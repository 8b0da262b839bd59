import CodexaCoin.Wallet.Multisig

/-!
# What the node makes of the wallets' transactions

The node reads the bytes that both wallets send as the transaction that they have signed, and the other way round.
-/

namespace CodexaCoin.Wallet

open Wire Check

/-! ## Digests -/

theorem scriptOps_p2pkh (hash : Hash20) :
    scriptOps (p2pkhScriptPubKey hash) = ([(0x76, []), (0xa9, []), (20, hash.1), (0x88, []), (0xac, [])], true) := by
  have hpush : getScriptOp (0x14 :: (hash.1 ++ [0x88, 0xac])) = some ((20, hash.1), [0x88, 0xac]) :=
    getScriptOp_push20 hash.2 _
  have hshape : p2pkhScriptPubKey hash = 0x76 :: 0xa9 :: 0x14 :: (hash.1 ++ [0x88, 0xac]) := rfl
  have hop : ∀ (b : UInt8) (rest : CScript), opPushdata4 < b.toNat → scriptOps (b :: rest) =
      ((b.toNat, []) :: (scriptOps rest).1, (scriptOps rest).2) :=
        fun b rest h => scriptOps_cons (getScriptOp_opcode h rest)
  rw [hshape, hop 0x76 _ (by decide), hop 0xa9 _ (by decide), scriptOps_cons hpush]
  rfl

theorem no_codeSeparator_p2pkh (hash : Hash20) : ∀ op ∈ (scriptOps (p2pkhScriptPubKey hash)).1, op.1 ≠ 0xab := by
  rw [scriptOps_p2pkh]
  simp

theorem no_codeSeparator_redeemScript (s : MultisigSetup) : ∀ op ∈ (scriptOps s.redeemScript).1, op.1 ≠ 0xab := by
  have h1 := s.m_le
  have h2 := s.le_sixteen
  rw [s.scriptOps_redeemScript]
  intro op hop
  simp only [List.cons_append, List.mem_cons, List.mem_append, List.mem_map, List.not_mem_nil, or_false] at hop
  rcases hop with rfl | ⟨pk, hpk, rfl⟩ | rfl | rfl
  · show 0x50 + s.m ≠ _
    omega
  · show pk.length ≠ _
    rw [s.length_of_mem_keys hpk]
    decide
  · show 0x50 + s.pubkeys.length ≠ _
    omega
  · decide

/-- **The digest of the wallets is the node's.** -/
theorem legacySighash_eq_signatureHash (C : Crypto) {inputs inputs' : List Web.TxIn} (outputs : List TxOutputSpec)
    (i : Nat)
    {subscript : List UInt8} (locktime : Nat) (amount : Int)
      (hblank : inputs.map Web.TxIn.blank = inputs'.map Web.TxIn.blank)
    (hsep : ∀ op ∈ (scriptOps subscript).1, op.1 ≠ 0xab) :
    Web.legacySighash C inputs outputs i subscript locktime =
      signatureHash C subscript (Web.transactionOf inputs' outputs locktime) i 1 amount .base := by
  have hsingle : fHashSingle 1 = false := rfl
  have hnone : fHashNone 1 = false := rfl
  have hanyone : fAnyoneCanPay 1 = false := by decide
  have hin : (Web.blanked inputs' i subscript).map Web.serializeTxIn =
      (Web.transactionOf inputs' outputs locktime).vin.zipIdx.map fun p => serializeInput subscript i 1 p.1 p.2 := by
    rw [Web.blanked, Web.transactionOf, List.zipIdx_map, List.map_map, List.map_map]
    refine List.map_congr_left fun p _ => ?_
    simp only [Function.comp_apply, serializeInput, withoutCodeSeparators_eq_self hsep, hsingle, hnone, Bool.or_self,
      Bool.false_eq_true, and_false, if_false]
    rfl
  have hout : outputs.map Web.serializeTxOut =
      (Web.transactionOf inputs' outputs locktime).vout.map CTxOut.serialize := by
    rw [Web.transactionOf, List.map_map]
    rfl
  have hlen : (Web.blanked inputs' i subscript).length = (Web.transactionOf inputs' outputs locktime).vin.length := by
    simp [Web.blanked, Web.transactionOf]
  rw [Web.legacySighash_congr i subscript hblank, Web.legacySighash, signatureHash, basePreimage, Web.serializeTx, hin,
    hout, hlen]
  simp only [hsingle, hnone, hanyone, Bool.false_and, Bool.false_eq_true, if_false, Bool.not_false, Bool.true_or,
    List.filter_true, serVector, List.length_map, List.length_zipIdx, varInt_eq]
  simp [Web.transactionOf, serVersion, u32le]

/-! ## Reading -/

/-- Numbers of inputs and outputs, values, scripts and a lock time that a transaction can carry. -/
structure Sizes (nInputs : Nat) (outputs : List TxOutputSpec) (locktime : Nat) : Prop where
  inputs_pos : 0 < nInputs
  inputs_le : nInputs ≤ maxSize
  outputs_le : outputs.length ≤ maxSize
  value_nonneg : ∀ out ∈ outputs, 0 ≤ out.valueSatoshis
  value_lt : ∀ out ∈ outputs, out.valueSatoshis < 2 ^ 63
  script_le : ∀ out ∈ outputs, out.scriptPubKey.length ≤ maxSize
  locktime_lt : locktime < 2 ^ 32

structure InputSizes (inp : Web.TxIn) : Prop where
  vout_lt : inp.prevVout < 2 ^ 32
  script_le : inp.scriptSig.length ≤ maxSize
  sequence_lt : inp.sequence.getD 0xffffffff < 2 ^ 32

section Reading

variable {inputs : List Web.TxIn} {outputs : List TxOutputSpec} {locktime : Nat}

theorem fits_transactionOf (hsizes : Sizes inputs.length outputs locktime) (hinputs : ∀ inp ∈ inputs, InputSizes inp) :
    (Web.transactionOf inputs outputs locktime).Fits maxSize where
  version_ge := by show (-2 ^ 31 : Int) ≤ 2; decide
  version_lt := by show (2 : Int) < 2 ^ 31; decide
  time_lt := by show 0 < 2 ^ 32; decide
  vin_le := by simpa [Web.transactionOf] using hsizes.inputs_le
  vin_fits := by
    intro txin hmem
    obtain ⟨inp, hinp, rfl⟩ := List.mem_map.1 hmem
    have hfit := hinputs inp hinp
    exact ⟨hfit.vout_lt, hfit.script_le, hfit.sequence_lt, Nat.zero_le _, by simp⟩
  vout_le := by simpa [Web.transactionOf] using hsizes.outputs_le
  vout_fits := by
    intro txout hmem
    obtain ⟨out, hout, rfl⟩ := List.mem_map.1 hmem
    have hnonneg := hsizes.value_nonneg out hout
    exact ⟨show -2 ^ 63 ≤ out.valueSatoshis by omega, hsizes.value_lt out hout, hsizes.script_le out hout⟩
  lockTime_lt := hsizes.locktime_lt

/-- **The node reads the wallets' bytes back**, and there are none left. -/
theorem unserializeTransaction_serializeTx (hsizes : Sizes inputs.length outputs locktime)
    (hinputs : ∀ inp ∈ inputs, InputSizes inp) :
    unserializeTransaction true (Web.serializeTx 2 inputs outputs locktime) =
      some (Web.transactionOf inputs outputs locktime, []) := by
  have hvin : (Web.transactionOf inputs outputs locktime).vin ≠ [] := by
    have := hsizes.inputs_pos
    exact fun h => by simp_all [Web.transactionOf]
  have hread := (reads_serialize (fits_transactionOf hsizes hinputs) hvin).apply_stream []
  rw [List.append_nil] at hread
  rw [Web.serializeTx_eq inputs outputs locktime true, hread]
  rfl

end Reading

/-! ## Payments -/

def Web.Utxo.toMobile (u : Web.Utxo) : Mobile.Utxo :=
  ⟨u.txid, u.vout, u.valueSatoshis, u.pubkeyHash, u.privateKey, u.publicKeyCompressed, u.sequence.getD 0xfffffffd⟩

section Mobile

variable {C : Crypto} {sign signWeb : Uint256 → List UInt8 → ECSignature} {outputs : List TxOutputSpec}
  {privateKey : Option (List UInt8)} {publicKeyCompressed : Option PublicKey} {locktime : Nat}

theorem signedIn_toMobile_toWeb (inputs : List Web.Utxo) : (inputs.map fun u => u.toMobile.toWeb).zipIdx.map
      (Web.signedIn C signWeb outputs privateKey publicKeyCompressed locktime (inputs.map fun u => u.toMobile.toWeb)) =
    inputs.zipIdx.map (Web.signedIn C signWeb outputs privateKey publicKeyCompressed locktime inputs) := by
  have hunsigned : (inputs.map fun u => u.toMobile.toWeb).map Web.unsigned = inputs.map Web.unsigned := by
    rw [List.map_map]
    rfl
  rw [List.zipIdx_map, List.map_map]
  refine List.map_congr_left fun q _ => ?_
  simp only [Function.comp_apply, Web.signedIn, hunsigned]
  rfl

/-- **What the mobile wallet builds**, when every input has its keys. -/
theorem Mobile.buildAndSignTransaction_eq (hsign : ∀ digest key, signWeb digest key = Mobile.lowS (sign digest key))
    {inputs : List Web.Utxo} (hne : inputs ≠ [])
    (hkeys : ∀ u ∈ inputs, (Web.inputKeys privateKey publicKeyCompressed u).isSome) :
    Mobile.buildAndSignTransaction C sign outputs privateKey publicKeyCompressed locktime (inputs.map Web.Utxo.toMobile) =
      .ok (Web.serializeTx 2 (inputs.zipIdx.map
        (Web.signedIn C signWeb outputs privateKey publicKeyCompressed locktime inputs))
        outputs locktime) := by
  have hkeys' : ∀ u ∈ inputs.map fun u => u.toMobile.toWeb, (Web.inputKeys privateKey publicKeyCompressed u).isSome := by
    intro u hu
    obtain ⟨v, hv, rfl⟩ := List.mem_map.1 hu
    exact hkeys v hv
  have hmobile : (Mobile.buildAndSignTransaction C sign outputs privateKey publicKeyCompressed locktime
      (inputs.map Web.Utxo.toMobile)).toOption = some (Web.serializeTx 2 (inputs.zipIdx.map
        (Web.signedIn C signWeb outputs privateKey publicKeyCompressed locktime inputs)) outputs locktime) := by
    rw [Mobile.buildAndSignTransaction_toOption hsign, List.map_map, ← signedIn_toMobile_toWeb]
    exact congrArg Except.toOption (Web.buildAndSignTransaction_eq (by simpa using hne) hkeys')
  cases hbuild : Mobile.buildAndSignTransaction C sign outputs privateKey publicKeyCompressed locktime
    (inputs.map Web.Utxo.toMobile) with
  | error e => rw [hbuild] at hmobile; cases hmobile
  | ok bytes => rw [hbuild] at hmobile; cases hmobile; rfl

end Mobile

/-- The arguments of `buildAndSignTransaction`, with a signing key for every input. -/
structure Payment where
  inputs : List Web.Utxo
  outputs : List TxOutputSpec
  privateKey : Option (List UInt8)
  publicKeyCompressed : Option PublicKey
  locktime : Nat
  keys : ∀ u ∈ inputs, (Web.inputKeys privateKey publicKeyCompressed u).isSome
  vout_lt : ∀ u ∈ inputs, u.vout < 2 ^ 32
  sequence_lt : ∀ u ∈ inputs, ∀ n ∈ u.sequence, n < 2 ^ 32
  sizes : Sizes inputs.length outputs locktime

/-- The transaction has version 2 and these outpoints, sequences, outputs and lock time. -/
structure HasFields (tx : CTransaction) (inputs : List (COutPoint × Nat)) (outputs : List TxOutputSpec) (locktime : Nat) :
    Prop where
  version : tx.nVersion = 2
  inputs : (tx.vin.map fun txin => (txin.prevout, txin.nSequence)) = inputs
  outputs : tx.vout = outputs.map fun out => ⟨out.valueSatoshis, out.scriptPubKey⟩
  locktime : tx.nLockTime = locktime

namespace Payment

variable (C : Crypto) (sign signWeb : Uint256 → List UInt8 → ECSignature) (p : Payment)

/-- Both wallets build bytes that the node reads as a transaction with the fields of the payment, in which every input is
signed over the node's own `SignatureHash` of that transaction for the P2PKH script. -/
def ReadAsSigned : Prop :=
  ∃ bytes tx,
    Web.buildAndSignTransaction C signWeb p.outputs p.privateKey p.publicKeyCompressed p.locktime p.inputs = .ok bytes ∧
    Mobile.buildAndSignTransaction C sign p.outputs p.privateKey p.publicKeyCompressed p.locktime
      (p.inputs.map Web.Utxo.toMobile) = .ok bytes ∧
    unserializeTransaction true bytes = some (tx, []) ∧
    HasFields tx (p.inputs.map fun u => (⟨u.txid, u.vout⟩, u.sequence.getD 0xfffffffd)) p.outputs p.locktime ∧
    ∀ i u, p.inputs[i]? = some u → ∃ keys, Web.inputKeys p.privateKey p.publicKeyCompressed u = some keys ∧
      ∀ amount, (tx.vin[i]?).map CTxIn.scriptSig = some (p2pkhScriptSig (Web.derEncodeSignature
        (signWeb (signatureHash C (p2pkhScriptPubKey u.pubkeyHash) tx i 1 amount .base) keys.1) ++ [0x01]) keys.2)

def signedInputs : List Web.TxIn :=
  p.inputs.zipIdx.map (Web.signedIn C signWeb p.outputs p.privateKey p.publicKeyCompressed p.locktime p.inputs)

variable {C sign signWeb p}

theorem inputs_ne : p.inputs ≠ [] := List.ne_nil_of_length_pos p.sizes.inputs_pos

theorem length_signedInputs : (p.signedInputs C signWeb).length = p.inputs.length := by
  simp [signedInputs]

theorem web_eq : Web.buildAndSignTransaction C signWeb p.outputs p.privateKey p.publicKeyCompressed p.locktime p.inputs =
    .ok (Web.serializeTx 2 (p.signedInputs C signWeb) p.outputs p.locktime) :=
  Web.buildAndSignTransaction_eq p.inputs_ne p.keys

theorem mobile_eq (hsign : ∀ digest key, signWeb digest key = Mobile.lowS (sign digest key)) :
    Mobile.buildAndSignTransaction C sign p.outputs p.privateKey p.publicKeyCompressed p.locktime
      (p.inputs.map Web.Utxo.toMobile) = .ok (Web.serializeTx 2 (p.signedInputs C signWeb) p.outputs p.locktime) :=
  Mobile.buildAndSignTransaction_eq hsign p.inputs_ne p.keys

theorem length_p2pkhScriptSig_le (sig : ECSignature) (pub : PublicKey) :
    (p2pkhScriptSig (Web.derEncodeSignature sig ++ [0x01]) pub).length ≤ maxSize := by
  have hn : secp256k1N < 2 ^ 256 := by decide
  have hr := length_encodeInt_le (sig.r_lt.trans hn)
  have hs := length_encodeInt_le (sig.s_lt.trans hn)
  have hmax : maxSize = 0x02000000 := rfl
  have hpub := pub.2
  simp only [p2pkhScriptSig, Web.derEncodeSignature, derEncode, List.length_append, List.length_cons, List.length_nil]
  omega

theorem inputSizes_signedInputs : ∀ inp ∈ p.signedInputs C signWeb, InputSizes inp := by
  intro inp hmem
  obtain ⟨⟨u, i⟩, hu, rfl⟩ := List.mem_map.1 hmem
  have hu : u ∈ p.inputs := List.fst_mem_of_mem_zipIdx hu
  refine ⟨p.vout_lt u hu, ?_, ?_⟩
  · obtain ⟨keys, hkeys⟩ := Option.isSome_iff_exists.1 (p.keys u hu)
    simp only [Web.signedIn, hkeys, Option.map_some, Option.getD_some]
    exact length_p2pkhScriptSig_le _ _
  · show u.sequence.getD 0xfffffffd < 2 ^ 32
    cases hseq : u.sequence with
    | none => decide
    | some n => exact p.sequence_lt u hu n hseq

/-- **The node reads a payment as it was signed.** -/
theorem readAsSigned (hsign : ∀ digest key, signWeb digest key = Mobile.lowS (sign digest key)) :
    p.ReadAsSigned C sign signWeb := by
  refine ⟨_, Web.transactionOf (p.signedInputs C signWeb) p.outputs p.locktime, web_eq, mobile_eq hsign,
    unserializeTransaction_serializeTx (length_signedInputs ▸ p.sizes) inputSizes_signedInputs, ⟨rfl, ?_, rfl, rfl⟩, ?_⟩
  · rw [Web.transactionOf, List.map_map, signedInputs, List.map_map]
    exact List.ext_getElem (by simp) fun i _ _ => by simp [Web.signedIn, Web.unsigned]
  · intro i u hu
    obtain ⟨keys, hkeys⟩ := Option.isSome_iff_exists.1 (p.keys u (List.mem_of_getElem? hu))
    have hblank : (p.inputs.map Web.unsigned).map Web.TxIn.blank = (p.signedInputs C signWeb).map Web.TxIn.blank := by
      rw [signedInputs, List.map_map, List.map_map]
      exact List.ext_getElem (by simp) fun i _ _ => by simp [Web.signedIn, Web.unsigned, Web.TxIn.blank]
    refine ⟨keys, hkeys, fun amount => ?_⟩
    rw [← legacySighash_eq_signatureHash C p.outputs i p.locktime amount hblank (no_codeSeparator_p2pkh u.pubkeyHash)]
    simp [Web.transactionOf, signedInputs, hu, Web.signedIn, hkeys, Web.signedScript]

end Payment

/-! ## Multisig spends -/

theorem Mobile.multisigSighash_eq (C : Crypto) (proposal : MultisigProposal) (p : MultisigInput × Nat) :
    Mobile.multisigSighash C proposal p = Web.multisigSighash C proposal p := by
  have hin : ∀ l : List CScript, (Web.blanked ((Mobile.proposalTxInputs proposal l).map Mobile.TxInput.toWeb) p.2
        p.1.redeemScript).map Web.serializeTxIn =
      (Web.blanked (Web.proposalTxInputs proposal l) p.2 p.1.redeemScript).map Web.serializeTxIn := by
    intro l
    refine List.ext_getElem ?_ fun i _ _ => ?_
    · simp [Web.blanked, Mobile.proposalTxInputs, Web.proposalTxInputs]
    · simp [Web.blanked, Mobile.proposalTxInputs, Web.proposalTxInputs, Mobile.TxInput.toWeb, Web.serializeTxIn]
  have hlen : ∀ l : List CScript, (Web.blanked ((Mobile.proposalTxInputs proposal l).map Mobile.TxInput.toWeb) p.2
        p.1.redeemScript).length = (Web.blanked (Web.proposalTxInputs proposal l) p.2 p.1.redeemScript).length :=
    fun l => by simpa using congrArg List.length (hin l)
  rw [Mobile.multisigSighash, Mobile.legacySighash_eq, Web.multisigSighash, Web.legacySighash, Web.legacySighash,
    Web.serializeTx, Web.serializeTx, hin, hlen]

/-- A multisig spend of version 2, with signatures that are not empty. -/
structure MultisigSend extends MultisigSpend where
  version_eq : proposal.version = 2
  vout_lt : ∀ inp ∈ proposal.inputs, inp.vout < 2 ^ 32
  signature_ne : ∀ collected ∈ proposal.signatures, ∀ pk sig, collected pk = some sig → sig ≠ []
  sizes : Sizes proposal.inputs.length proposal.outputs proposal.locktime

namespace MultisigSend

variable (C : Crypto) (sign signWeb : Uint256 → List UInt8 → ECSignature) (send : MultisigSend)

def withSignatures (signatures : List Collected) : MultisigProposal := { send.proposal with signatures }

def ReadAsSigned : Prop :=
  Mobile.finalizeMultisigTransaction send.proposal = Web.finalizeMultisigTransaction send.proposal ∧
  ∀ bytes, Web.finalizeMultisigTransaction send.proposal = .ok bytes → ∃ tx,
    unserializeTransaction true bytes = some (tx, []) ∧
    HasFields tx (send.proposal.inputs.map fun inp => (⟨inp.txid, inp.vout⟩, 0xffffffff)) send.proposal.outputs
      send.proposal.locktime ∧
    Web.finalScriptSigs send.proposal = .ok (tx.vin.map CTxIn.scriptSig) ∧
    ∀ before key (pub : PublicKey), before.length = send.proposal.inputs.length → ∃ after,
      Web.signMultisigProposal C signWeb (send.withSignatures before) key pub = .ok (send.withSignatures after) ∧
      Mobile.signMultisigProposal C sign (send.withSignatures before) key pub = .ok (send.withSignatures after) ∧
      ∀ i s, send.setups[i]? = some s → pub ∈ s.pubkeys → ∀ amount, (after[i]?).bind (· pub.1) =
        some (Web.derEncodeSignature (signWeb (signatureHash C s.redeemScript tx i 1 amount .base) key) ++ [0x01])

variable {C sign signWeb send}

theorem filter_collectedSigs {a : MultisigSetup × Collected} (ha : a ∈ send.asks) :
    (a.1.collectedSigs a.2).filter (· ≠ []) = a.1.collectedSigs a.2 := by
  refine List.filter_eq_self.2 fun sig hsig => decide_eq_true ?_
  obtain ⟨pk, -, hpk⟩ := List.mem_filterMap.1 hsig
  exact send.signature_ne _ (List.of_mem_zip ha).2 pk sig hpk

theorem web_finalScriptSigs : Web.finalScriptSigs send.proposal =
    send.asks.zipIdx.mapM fun a => finalScriptSig a.2 a.1.1 (a.1.1.collectedSigs a.1.2) := by
  have hweb : Web.finalScriptSigs send.proposal = _ :=
    send.mapM_scriptSigOf fun inp i s collected => Web.scriptSigOf_eq
  rw [hweb]
  refine mapM_eq_mapM (List.map_congr_left fun a ha => ?_)
  rw [filter_collectedSigs (List.fst_mem_of_mem_zipIdx ha)]

theorem mobile_finalScriptSigs : Mobile.finalScriptSigs send.proposal = Web.finalScriptSigs send.proposal := by
  rw [web_finalScriptSigs]
  exact send.mapM_scriptSigOf fun inp i s collected => Mobile.scriptSigOf_eq

theorem mobile_finalizeMultisigTransaction :
    Mobile.finalizeMultisigTransaction send.proposal = Web.finalizeMultisigTransaction send.proposal := by
  simp only [Mobile.finalizeMultisigTransaction, mobile_finalScriptSigs, Mobile.serialize_proposalTxInputs]
  rfl

theorem length_multisigScriptSig_le {sigs : List (List UInt8)} {s : MultisigSetup} (hcount : sigs.length ≤ s.m)
    (hsigs : ∀ sig ∈ sigs, sig.length ≤ 73) : (multisigScriptSig sigs s.redeemScript).length ≤ maxSize := by
  have hflat : ∀ l : List (List UInt8), (∀ sig ∈ l, sig.length ≤ 73) → (l.map pushed).flatten.length ≤ 74 * l.length := by
    intro l hl
    induction l with
    | nil => exact Nat.le_refl _
    | cons sig l ih =>
      have h1 := ih fun x hx => hl x (List.mem_cons_of_mem _ hx)
      have h2 := hl sig List.mem_cons_self
      simp only [List.map_cons, List.flatten_cons, List.length_append, pushed, List.length_cons] at h1 ⊢
      omega
  have hvarInt : (varInt s.redeemScript.length).length ≤ 9 := by
    unfold varInt
    repeat' split
    all_goals simp
  have hparts := hflat sigs hsigs
  have h1 := s.m_le
  have h2 := s.le_sixteen
  have hmax : maxSize = 0x02000000 := rfl
  rw [multisigScriptSig_eq, List.map_cons, List.flatten_cons, List.length_append, List.length_append, List.length_append,
    s.length_redeemScript]
  rw [s.length_redeemScript] at hvarInt
  have hzero : (pushed []).length = 1 := rfl
  omega

theorem scripts_of_finalScriptSigs {scripts : List CScript} (h : Web.finalScriptSigs send.proposal = .ok scripts) :
    scripts.length = send.proposal.inputs.length ∧ ∀ script ∈ scripts, script.length ≤ maxSize := by
  rw [web_finalScriptSigs, MultisigSpend.loop_eq_ok_iff] at h
  obtain ⟨-, rfl⟩ := h
  constructor
  · have h1 := send.toMultisigSpend.length_setups
    have h2 := send.length_signatures
    rw [List.length_map, MultisigSpend.asks, List.length_zip, h1, h2, Nat.min_self]
  · intro script hmem
    obtain ⟨a, ha, rfl⟩ := List.mem_map.1 hmem
    refine length_multisigScriptSig_le (List.length_take_le _ _) fun sig hsig => ?_
    exact MultisigSpend.length_le_of_mem_collectedSigs ha (List.mem_of_mem_take hsig)

section Finalized

variable {scripts : List CScript} (hlen : scripts.length = send.proposal.inputs.length)

include hlen in
theorem length_proposalTxInputs : (Web.proposalTxInputs send.proposal scripts).length = send.proposal.inputs.length := by
  rw [Web.proposalTxInputs, List.length_zipWith, hlen, Nat.min_self]

include hlen in
theorem blank_proposalTxInputs (before : List Collected) :
    (Web.proposalTxInputs (send.withSignatures before) (send.proposal.inputs.map fun _ => [])).map Web.TxIn.blank =
      (Web.proposalTxInputs send.proposal scripts).map Web.TxIn.blank := by
  refine List.ext_getElem ?_ fun i _ _ => ?_
  · simp [Web.proposalTxInputs, hlen, withSignatures]
  · simp [Web.proposalTxInputs, Web.TxIn.blank, withSignatures]

theorem inputSizes_proposalTxInputs (hshort : ∀ script ∈ scripts, script.length ≤ maxSize) :
    ∀ inp ∈ Web.proposalTxInputs send.proposal scripts, InputSizes inp := by
  intro inp hmem
  rw [Web.proposalTxInputs, ← List.map_uncurry_zip_eq_zipWith, List.mem_map] at hmem
  obtain ⟨⟨input, script⟩, hzip, rfl⟩ := hmem
  obtain ⟨hinput, hscript⟩ := List.of_mem_zip hzip
  exact ⟨send.vout_lt input hinput, hshort script hscript, show 0xffffffff < 2 ^ 32 by decide⟩

include hlen in
theorem signed_over_signatureHash (hsign : ∀ digest key, signWeb digest key = Mobile.lowS (sign digest key))
    {before : List Collected} (key : List UInt8) (pub : PublicKey)
      (hbefore : before.length = send.proposal.inputs.length) :
    ∃ after,
      Web.signMultisigProposal C signWeb (send.withSignatures before) key pub = .ok (send.withSignatures after) ∧
      Mobile.signMultisigProposal C sign (send.withSignatures before) key pub = .ok (send.withSignatures after) ∧
      ∀ i s, send.setups[i]? = some s → pub ∈ s.pubkeys → ∀ amount, (after[i]?).bind (· pub.1) =
        some (Web.derEncodeSignature (signWeb (signatureHash C s.redeemScript
          (Web.transactionOf (Web.proposalTxInputs send.proposal scripts) send.proposal.outputs send.proposal.locktime)
          i 1 amount .base) key) ++ [0x01]) := by
  refine ⟨_, signInputs_eq (send.withSignatures before) hbefore, ?_, fun i s hs hpub amount => ?_⟩
  · simp only [Mobile.signMultisigProposal, Mobile.derEncodeSignature_eq, ← hsign, Mobile.multisigSighash_eq]
    exact signInputs_eq (send.withSignatures before) hbefore
  · obtain ⟨hi, rfl⟩ := List.getElem?_eq_some_iff.1 hs
    have hinputs := send.scripts.length_eq
    have hscript : send.proposal.inputs[i].redeemScript = send.setups[i].redeemScript :=
      MultisigSpend.redeemScript_eq ((List.forall₂_iff_get.1 send.scripts).2 i (by omega) hi)
    have hdigest := legacySighash_eq_signatureHash C send.proposal.outputs i send.proposal.locktime amount
      (blank_proposalTxInputs hlen before) (no_codeSeparator_redeemScript send.setups[i])
    have hin : (send.withSignatures before).inputs.zipIdx[i]? = some (send.proposal.inputs[i], i) := by
      simp [withSignatures]
    obtain ⟨collected, hcollected⟩ : ∃ collected, (send.withSignatures before).signatures[i]? = some collected :=
      ⟨_, List.getElem?_eq_getElem (show i < before.length by omega)⟩
    rw [List.getElem?_zipWith, hin, hcollected, ← hdigest]
    simp only [Option.bind_some, signedCollected, hscript, scriptContainsPubkey_redeemScript hpub, if_true, Collected.add,
      Web.multisigSighash]
    rfl

end Finalized

/-- **The node reads a multisig spend as it was signed.** -/
theorem readAsSigned (hsign : ∀ digest key, signWeb digest key = Mobile.lowS (sign digest key)) :
    send.ReadAsSigned C sign signWeb := by
  refine ⟨mobile_finalizeMultisigTransaction, fun bytes hbytes => ?_⟩
  obtain ⟨scripts, hscripts, hbytes⟩ := bind_eq_ok.1 hbytes
  obtain ⟨hlen, hshort⟩ := scripts_of_finalScriptSigs hscripts
  cases hbytes
  rw [send.version_eq]
  refine ⟨_, unserializeTransaction_serializeTx ((length_proposalTxInputs hlen).symm ▸ send.sizes)
    (inputSizes_proposalTxInputs hshort), ⟨rfl, ?_, rfl, rfl⟩, ?_, fun before key pub hbefore =>
      signed_over_signatureHash hlen hsign key pub hbefore⟩
  · refine List.ext_getElem ?_ fun i _ _ => ?_
    · simp [Web.transactionOf, Web.proposalTxInputs, hlen]
    · simp [Web.transactionOf, Web.proposalTxInputs]
  · rw [hscripts]
    refine congrArg Except.ok (List.ext_getElem ?_ fun i _ _ => ?_)
    · simp [Web.transactionOf, Web.proposalTxInputs, hlen]
    · simp [Web.transactionOf, Web.proposalTxInputs]

end MultisigSend

/-- **Wallet transactions mean to the node what the wallets signed.** With the same signatures, both wallets give the node
the same bytes; it reads them back with no bytes left and computes the digests that were signed. -/
theorem node_reads_what_wallets_signed (C : Crypto) (sign signWeb : Uint256 → List UInt8 → ECSignature)
    (hsign : ∀ digest key, signWeb digest key = Mobile.lowS (sign digest key)) :
    (∀ p : Payment, p.ReadAsSigned C sign signWeb) ∧ (∀ send : MultisigSend, send.ReadAsSigned C sign signWeb) :=
  ⟨fun _ => Payment.readAsSigned hsign, fun _ => MultisigSend.readAsSigned hsign⟩

/-- The signature `(1, 1)`, whatever is signed. -/
def signOne : Uint256 → List UInt8 → ECSignature := fun _ _ => ⟨1, 1, by decide, by decide⟩

theorem lowS_signOne (digest : Uint256) (key : List UInt8) : signOne digest key = Mobile.lowS (signOne digest key) := by
  rw [Mobile.lowS, dif_neg]
  exact (show ¬ secp256k1N / 2 < 1 by decide)

def sampleUtxo : Web.Utxo where
  txid := 7
  vout := 1
  valueSatoshis := 1000000
  pubkeyHash := ⟨List.replicate 20 9, rfl⟩
  privateKey := some [1]
  publicKeyCompressed := some ⟨List.replicate 33 2, rfl⟩

theorem sampleUtxo_keys : ∀ u ∈ [sampleUtxo], (Web.inputKeys none none u).isSome := by decide

def samplePayment : Payment where
  inputs := [sampleUtxo]
  outputs := [⟨p2wpkhScriptPubKey ⟨List.replicate 20 5, rfl⟩, 900000⟩]
  privateKey := none
  publicKeyCompressed := none
  locktime := 0
  keys := sampleUtxo_keys
  vout_lt := by decide
  sequence_lt := by decide
  sizes := ⟨by decide, by decide, by decide, by decide, by decide, by decide, by decide⟩

def oneOfTwo : MultisigSetup where
  m := 1
  pubkeys := [⟨List.replicate 33 2, rfl⟩, ⟨List.replicate 33 3, rfl⟩]
  one_le := by decide
  m_le := by decide
  le_sixteen := by decide
  nodup := by decide

/-- A spend of an output of `oneOfTwo` with a signature of 71 bytes for either key. -/
def oneOfTwoSend : MultisigSend where
  proposal :=
    { version := 2
      locktime := 0
      inputs := [⟨7, 0, 1000000, oneOfTwo.redeemScript⟩]
      outputs := [⟨[0x51], 900000⟩]
      signatures := [fun _ => some (List.replicate 71 0x30)] }
  setups := [oneOfTwo]
  scripts := .cons oneOfTwo.createMultisigRedeemScript_eq .nil
  length_signatures := rfl
  length_signature_le := by
    rintro collected hc pk sig h
    obtain rfl := List.mem_singleton.1 hc
    cases h
    decide
  version_eq := rfl
  vout_lt := by
    intro inp hinp
    obtain rfl := List.mem_singleton.1 hinp
    decide
  signature_ne := by
    rintro collected hc pk sig h
    obtain rfl := List.mem_singleton.1 hc
    cases h
    decide
  sizes := ⟨by decide, by decide, by decide, by decide, by decide, by decide, by decide⟩

theorem samplePayment_read_as_signed :
    samplePayment.ReadAsSigned Crypto.sample signOne signOne ∧ oneOfTwoSend.ReadAsSigned Crypto.sample signOne signOne :=
  have h := node_reads_what_wallets_signed Crypto.sample signOne signOne lowS_signOne
  ⟨h.1 samplePayment, h.2 oneOfTwoSend⟩

/-- An output whose script is one byte longer than `MAX_SIZE`. -/
def longOutput : TxOutputSpec := ⟨List.replicate (maxSize + 1) 0x51, 900000⟩

/-- **A script longer than `MAX_SIZE` is not read back**, though the wallet builds the transaction. -/
theorem longOutput_not_read_back :
    ∃ bytes, Web.buildAndSignTransaction Crypto.sample signOne [longOutput] none none 0 [sampleUtxo] = .ok bytes ∧
      ∀ tx rest, unserializeTransaction true bytes = some (tx, rest) →
        tx.vout ≠ [⟨longOutput.valueSatoshis, longOutput.scriptPubKey⟩] := by
  refine ⟨_, Web.buildAndSignTransaction_eq (by simp) (by decide), fun tx rest hread hvout => ?_⟩
  have hfits := returns_unserializeTransaction true _ tx rest hread
  have hscript := (hfits.vout_fits _ (hvout ▸ List.mem_singleton_self _)).script_le
  rw [longOutput, List.length_replicate] at hscript
  omega

end CodexaCoin.Wallet
