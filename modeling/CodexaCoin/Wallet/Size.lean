import CodexaCoin.Wallet.NodeAgreement
import CodexaCoin.Consensus.TxVerify

/-!
# The sizes of the wallets' transactions

The node asks for a fee by virtual size, which for the wallets' transactions is the number of their bytes. It depends on
the signatures, of which it is only known that they have at most 72 bytes with the hash type.
-/

namespace CodexaCoin.Wallet

open Wire Check

/-! ## Bytes -/

def inputSize (scriptLength : Nat) : Nat := 40 + (varInt scriptLength).length + scriptLength

def outputSize (out : TxOutputSpec) : Nat := 8 + (varInt out.scriptPubKey.length).length + out.scriptPubKey.length

/-- The bytes of a transaction whose scripts have the given lengths. -/
def txSize (scriptLengths : List Nat) (outputs : List TxOutputSpec) : Nat :=
  8 + (varInt scriptLengths.length).length + (scriptLengths.map inputSize).sum +
    (varInt outputs.length).length + (outputs.map outputSize).sum

theorem length_varInt (n : Nat) :
    (varInt n).length = if n < 0xfd then 1 else if n ≤ 0xffff then 3 else if n ≤ 0xffffffff then 5 else 9 := by
  unfold varInt
  repeat' split
  all_goals simp

theorem one_le_length_varInt (n : Nat) : 1 ≤ (varInt n).length := by
  rw [length_varInt]
  repeat' split
  all_goals decide

theorem inputSize_mono {m n : Nat} (h : m ≤ n) : inputSize m ≤ inputSize n := by
  unfold inputSize
  rw [length_varInt, length_varInt]
  repeat' split
  all_goals omega

section Sizes

variable {inputs : List Web.TxIn} {outputs : List TxOutputSpec} {locktime : Nat}

theorem length_serializeTx (version : Int) : (Web.serializeTx version inputs outputs locktime).length =
    txSize (inputs.map (·.scriptSig.length)) outputs := by
  have hin : inputs.map (List.length ∘ Web.serializeTxIn) = (inputs.map (·.scriptSig.length)).map inputSize := by
    rw [List.map_map]
    refine List.map_congr_left fun inp _ => ?_
    simp [Web.serializeTxIn, inputSize, u32le, serUint256]
    omega
  have hout : outputs.map (List.length ∘ Web.serializeTxOut) = outputs.map outputSize := by
    refine List.map_congr_left fun out _ => ?_
    simp [Web.serializeTxOut, outputSize, u64le, serInt]
    omega
  rw [Web.serializeTx]
  simp only [List.length_append, List.length_flatten, List.map_map, hin, hout, txSize, List.length_map]
  simp [serInt, u32le]
  omega

/-- **The virtual size of a transaction without witnesses is its length.** -/
theorem virtualSize_transactionOf :
    (Web.transactionOf inputs outputs locktime).virtualSize = txSize (inputs.map (·.scriptSig.length)) outputs := by
  rw [CTransaction.virtualSize, CTransaction.weight, ← Web.serializeTx_eq, ← Web.serializeTx_eq, length_serializeTx]
  have hfactor : Consensus.witnessScaleFactor = 4 := rfl
  rw [hfactor]
  omega

theorem forall₂_le_replicate {l : List Nat} {k n : Nat} (hlen : l.length = k) (h : ∀ m ∈ l, m ≤ n) :
    List.Forall₂ (· ≤ ·) l (List.replicate k n) := by
  subst hlen
  induction l with
  | nil => exact .nil
  | cons m l ih => exact .cons (h m List.mem_cons_self) (ih fun x hx => h x (List.mem_cons_of_mem _ hx))

theorem txSize_mono {l l' : List Nat} (h : List.Forall₂ (· ≤ ·) l l') : txSize l outputs ≤ txSize l' outputs := by
  have hsum : (l.map inputSize).sum ≤ (l'.map inputSize).sum := by
    induction h with
    | nil => exact Nat.le_refl _
    | cons hle _ ih => simpa using Nat.add_le_add (inputSize_mono hle) ih
  have hlen := h.length_eq
  unfold txSize
  rw [hlen]
  omega

theorem lt_txSize {l : List Nat} (hne : l ≠ []) (h : ∀ n ∈ l, 41 ≤ n) (hout : outputs ≠ []) : 100 < txSize l outputs := by
  obtain ⟨n, l, rfl⟩ := List.exists_cons_of_ne_nil hne
  obtain ⟨out, outputs, rfl⟩ := List.exists_cons_of_ne_nil hout
  have hn := h n List.mem_cons_self
  have h1 := one_le_length_varInt (n :: l).length
  have h2 := one_le_length_varInt (out :: outputs).length
  have h3 := one_le_length_varInt n
  have h4 := one_le_length_varInt out.scriptPubKey.length
  simp only [txSize, List.map_cons, List.sum_cons, inputSize, outputSize]
  omega

end Sizes

/-! ## The minimal fee -/

/-- The fee that consensus asks for a size above 100 bytes: 100 satoshis for each byte, in the money range. -/
def minFeeFor (size : Nat) : Int := min (100 * size) maxMoney

theorem minFeeFor_mono {m n : Nat} (h : m ≤ n) : minFeeFor m ≤ minFeeFor n := by
  unfold minFeeFor
  omega

theorem getMinFee_eq (net : CodexaCoin.Network) {tx : CTransaction} (h : 100 < tx.virtualSize) (nTimeTx : Int) :
    getMinFee net tx nTimeTx = minFeeFor tx.virtualSize := by
  have hfee : getFee 100000 tx.virtualSize = 100 * (tx.virtualSize : Int) := by
    unfold getFee
    omega
  unfold getMinFee minFeeFor
  dsimp only
  rw [if_neg (show ¬ tx.virtualSize ≤ 100 by omega), ite_self, hfee]
  split
  next hrange =>
    rw [moneyRange_iff] at hrange
    omega
  next hrange =>
    rw [moneyRange_iff] at hrange
    omega

/-! ## Signed inputs -/

def ShortSignatures (sign : Uint256 → List UInt8 → ECSignature) : Prop :=
  ∀ digest key, (Web.derEncodeSignature (sign digest key) ++ [0x01]).length ≤ 72

def longSignature : ECSignature := ⟨2 ^ 255, 2 ^ 254, by decide, by decide⟩

theorem length_longSignature : (Web.derEncodeSignature longSignature ++ [0x01]).length = 72 := by decide +kernel

theorem lowS_longSignature : Mobile.lowS longSignature = longSignature := by decide +kernel

section Payments

variable (C : Crypto) (finish : ECSignature → ECSignature)

def signedTx (sign : Uint256 → List UInt8 → ECSignature) (inputs : List Web.Utxo)
    (outputs : List TxOutputSpec) : CTransaction :=
  Web.transactionOf (inputs.zipIdx.map (Web.signedIn C sign outputs none none 0 inputs)) outputs 0

/-- Whatever short signatures the library makes, the fee is at least what consensus asks for. -/
def CoversMinFee (inputs : List Web.Utxo) (outputs : List TxOutputSpec) : Prop :=
  ∀ sign : Uint256 → List UInt8 → ECSignature, ShortSignatures (fun digest key => finish (sign digest key)) →
    ∀ net nTimeTx, getMinFee net (signedTx C (fun digest key => finish (sign digest key)) inputs outputs) nTimeTx ≤
      (inputs.map (·.valueSatoshis)).sum -
        (signedTx C (fun digest key => finish (sign digest key)) inputs outputs).valueOut

variable {C finish} {sign : Uint256 → List UInt8 → ECSignature} {inputs : List Web.Utxo} {outputs : List TxOutputSpec}

theorem length_p2pkhScriptSig (sig : List UInt8)
    (pub : PublicKey) : (p2pkhScriptSig sig pub).length = sig.length + 35 := by
  have := pub.2
  simp only [p2pkhScriptSig, List.length_append, List.length_cons, List.length_nil]
  omega

theorem valueOut_signedTx : (signedTx C sign inputs outputs).valueOut = (outputs.map (·.valueSatoshis)).sum := by
  rw [CTransaction.valueOut, signedTx, Web.transactionOf, List.map_map]
  rfl

variable (hkeys : ∀ u ∈ inputs, (Web.inputKeys none none u).isSome)

variable (C sign inputs outputs) in
def scriptLengths : List Nat :=
  (inputs.zipIdx.map (Web.signedIn C sign outputs none none 0 inputs)).map (·.scriptSig.length)

theorem virtualSize_signedTx :
    (signedTx C sign inputs outputs).virtualSize = txSize (scriptLengths C sign inputs outputs) outputs :=
  virtualSize_transactionOf

theorem length_scriptLengths : (scriptLengths C sign inputs outputs).length = inputs.length := by
  simp [scriptLengths]

include hkeys in
theorem mem_scriptLengths {n : Nat} (h : n ∈ scriptLengths C sign inputs outputs) :
    ∃ digest key, n = (Web.derEncodeSignature (sign digest key) ++ [0x01]).length + 35 := by
  rw [scriptLengths, List.map_map, List.mem_map] at h
  obtain ⟨⟨u, i⟩, hu, rfl⟩ := h
  obtain ⟨keys, hu⟩ := Option.isSome_iff_exists.1 (hkeys u (List.fst_mem_of_mem_zipIdx hu))
  simp only [Function.comp_apply, Web.signedIn, hu, Option.map_some, Option.getD_some, Web.signedScript,
    length_p2pkhScriptSig]
  exact ⟨_, keys.1, rfl⟩

include hkeys in
theorem getMinFee_signedTx (hne : inputs ≠ []) (hout : outputs ≠ []) (net : CodexaCoin.Network) (nTimeTx : Int) :
    getMinFee net (signedTx C sign inputs outputs) nTimeTx =
      minFeeFor (txSize (scriptLengths C sign inputs outputs) outputs) := by
  have hlt : 100 < txSize (scriptLengths C sign inputs outputs) outputs := by
    refine lt_txSize (List.ne_nil_of_length_pos ?_) (fun n hn => ?_) hout
    · rw [length_scriptLengths]
      exact List.length_pos_iff.2 hne
    · obtain ⟨digest, key, rfl⟩ := mem_scriptLengths hkeys hn
      simp only [Web.derEncodeSignature, derEncode, encodeInt, List.length_append, List.length_cons, List.length_nil]
      omega
  rw [← virtualSize_signedTx] at hlt ⊢
  exact getMinFee_eq net hlt nTimeTx

include hkeys in
theorem scriptLengths_long :
    scriptLengths C (fun _ _ => longSignature) inputs outputs = List.replicate inputs.length 107 := by
  refine List.eq_replicate_iff.2 ⟨length_scriptLengths, fun n hn => ?_⟩
  obtain ⟨digest, key, rfl⟩ := mem_scriptLengths hkeys hn
  rw [length_longSignature]

include hkeys in
/-- **When a payment covers the minimal fee**: for all short signatures if it does for the longest. -/
theorem coversMinFee_iff (hne : inputs ≠ []) (hout : outputs ≠ []) (hfinish : finish longSignature = longSignature) :
    CoversMinFee C finish inputs outputs ↔ minFeeFor (txSize (List.replicate inputs.length 107) outputs) ≤
      (inputs.map (·.valueSatoshis)).sum - (outputs.map (·.valueSatoshis)).sum := by
  constructor
  · intro h
    have hlong := h (fun _ _ => longSignature) (fun _ _ => by rw [hfinish, length_longSignature]) .main 0
    rwa [hfinish, getMinFee_signedTx hkeys hne hout, valueOut_signedTx, scriptLengths_long hkeys] at hlong
  · intro h sign hshort net nTimeTx
    rw [getMinFee_signedTx hkeys hne hout, valueOut_signedTx]
    refine (minFeeFor_mono (txSize_mono (forall₂_le_replicate length_scriptLengths fun n hn => ?_))).trans h
    obtain ⟨digest, key, rfl⟩ := mem_scriptLengths hkeys hn
    exact Nat.add_le_add_right (hshort digest key) 35

end Payments

section Multisig

def MultisigSetup.scriptLength (s : MultisigSetup) : Nat :=
  1 + 73 * s.m + (varInt s.redeemScript.length).length + s.redeemScript.length

/-- However the proposal is signed, if it can be finalized the fee is at least what consensus asks for. -/
def MultisigProposal.CoversMinFee (proposal : MultisigProposal) : Prop :=
  ∀ signatures : List Collected, signatures.length = proposal.inputs.length →
    (∀ collected ∈ signatures, ∀ pk sig, collected pk = some sig → sig.length ≤ 72) →
    ∀ scripts, Web.finalScriptSigs { proposal with signatures } = .ok scripts → ∀ net nTimeTx,
      getMinFee net (Web.transactionOf
        (Web.proposalTxInputs proposal scripts) proposal.outputs proposal.locktime) nTimeTx ≤
        (proposal.inputs.map (·.valueSatoshis)).sum -
          (Web.transactionOf (Web.proposalTxInputs proposal scripts) proposal.outputs proposal.locktime).valueOut

theorem length_multisigScriptSig (sigs : List (List UInt8)) (redeemScript : List UInt8) :
    (multisigScriptSig sigs redeemScript).length =
      1 + (sigs.map (·.length + 1)).sum + (varInt redeemScript.length).length + redeemScript.length := by
  simp only [multisigScriptSig, List.length_append, List.length_cons, List.length_flatten, List.map_map]
  have : List.length ∘ (fun sig : List UInt8 => UInt8.ofNat sig.length :: sig) = (·.length + 1) := rfl
  rw [this]
  omega

theorem sum_pushes {sigs : List (List UInt8)} (h : ∀ sig ∈ sigs, sig ≠ [] ∧ sig.length ≤ 72) :
    2 * sigs.length ≤ (sigs.map (·.length + 1)).sum ∧ (sigs.map (·.length + 1)).sum ≤ 73 * sigs.length := by
  induction sigs with
  | nil => exact ⟨Nat.le_refl _, Nat.le_refl _⟩
  | cons sig sigs ih =>
    obtain ⟨h1, h2⟩ := ih fun x hx => h x (List.mem_cons_of_mem _ hx)
    obtain ⟨hne, hle⟩ := h sig List.mem_cons_self
    have hpos := List.length_pos_iff.2 hne
    simp only [List.map_cons, List.sum_cons, List.length_cons]
    omega

variable {s : MultisigSetup} {proposal : MultisigProposal}

theorem length_multisigScriptSig_bounds {sigs : List (List UInt8)} (hlen : sigs.length = s.m)
    (h : ∀ sig ∈ sigs, sig ≠ [] ∧ sig.length ≤ 72) :
    41 ≤ (multisigScriptSig sigs s.redeemScript).length ∧
      (multisigScriptSig sigs s.redeemScript).length ≤ s.scriptLength := by
  obtain ⟨h1, h2⟩ := sum_pushes h
  have hone := s.one_le
  have hle := s.m_le
  have hpos := one_le_length_varInt s.redeemScript.length
  have hredeem := s.length_redeemScript
  rw [length_multisigScriptSig, MultisigSetup.scriptLength]
  omega

def usableSigs (s : MultisigScript) (collected : Collected) : List (List UInt8) :=
  (s.collectedSigs collected).filter (· ≠ [])

variable (s proposal) in
def signedProposal (hscript : ∀ inp ∈ proposal.inputs, inp.redeemScript = s.redeemScript) {signatures : List Collected}
    (hlen : signatures.length = proposal.inputs.length)
    (hshort : ∀ collected ∈ signatures, ∀ pk sig, collected pk = some sig → sig.length ≤ 72) : MultisigSpend where
  proposal := { proposal with signatures }
  setups := List.replicate proposal.inputs.length s
  scripts := by
    refine List.forall₂_iff_get.2 ⟨by simp, fun i h1 h2 => ?_⟩
    simp only [List.get_eq_getElem, List.getElem_replicate, s.createMultisigRedeemScript_eq]
    rw [hscript _ (List.getElem_mem h1)]
  length_signatures := hlen
  length_signature_le := fun collected hc pk sig h => (hshort collected hc pk sig h).trans (by decide)

/-- **The scripts of a finalized proposal.** -/
theorem finalScriptSigs_iff (hscript : ∀ inp ∈ proposal.inputs, inp.redeemScript = s.redeemScript)
    {signatures : List Collected} (hlen : signatures.length = proposal.inputs.length)
    (hshort : ∀ collected ∈ signatures, ∀ pk sig, collected pk = some sig → sig.length ≤ 72) {scripts : List CScript} :
    Web.finalScriptSigs { proposal with signatures } = .ok scripts ↔
      (∀ collected ∈ signatures, s.m ≤ (usableSigs s collected).length) ∧
      (signatures.map fun collected => multisigScriptSig ((usableSigs s collected).take s.m) s.redeemScript) =
        scripts := by
  have hloop : Web.finalScriptSigs { proposal with signatures } =
      (signedProposal s proposal hscript hlen hshort).asks.zipIdx.mapM fun a =>
        finalScriptSig a.2 a.1.1 (usableSigs a.1.1 a.1.2) :=
    (signedProposal s proposal hscript hlen hshort).mapM_scriptSigOf fun inp i s collected => Web.scriptSigOf_eq
  have hasks : (signedProposal s proposal hscript hlen hshort).asks = signatures.map fun collected => (s, collected) := by
    show (List.replicate proposal.inputs.length s).zip signatures = _
    refine List.ext_getElem (by simp [hlen]) fun i _ _ => by simp
  rw [hloop, MultisigSpend.loop_eq_ok_iff, hasks, List.map_map, List.forall_mem_map]
  rfl

def longSignatures (n : Nat) : List Collected := List.replicate n fun _ => some (List.replicate 72 0)

theorem usableSigs_long (s : MultisigSetup) :
    usableSigs s (fun _ => some (List.replicate 72 0)) = List.replicate s.pubkeys.length (List.replicate 72 0) := by
  have hall : s.collectedSigs (fun _ => some (List.replicate 72 0)) =
      List.replicate s.keys.length (List.replicate 72 0) := by
    rw [MultisigScript.collectedSigs, List.filterMap_eq_map', List.map_const']
  rw [usableSigs, hall, s.length_keys, List.filter_eq_self.2]
  intro sig hsig
  rw [List.eq_of_mem_replicate hsig]
  decide

theorem length_finalScript {collected : Collected} (hshort : ∀ pk sig, collected pk = some sig → sig.length ≤ 72)
    (henough : s.m ≤ (usableSigs s collected).length) :
    41 ≤ (multisigScriptSig ((usableSigs s collected).take s.m) s.redeemScript).length ∧
      (multisigScriptSig ((usableSigs s collected).take s.m) s.redeemScript).length ≤ s.scriptLength := by
  refine length_multisigScriptSig_bounds (List.length_take_of_le henough) fun sig hsig => ?_
  obtain ⟨hmem, hne⟩ := List.mem_filter.1 (List.mem_of_mem_take hsig)
  obtain ⟨pk, -, hpk⟩ := List.mem_filterMap.1 hmem
  exact ⟨of_decide_eq_true hne, hshort pk sig hpk⟩

theorem length_finalScript_long (s : MultisigSetup) :
    (multisigScriptSig ((usableSigs s fun _ => some (List.replicate 72 0)).take s.m) s.redeemScript).length =
      s.scriptLength := by
  rw [usableSigs_long, List.take_replicate, Nat.min_eq_left s.m_le, length_multisigScriptSig, List.map_replicate,
    List.sum_replicate, List.length_replicate, MultisigSetup.scriptLength]
  simp [Nat.mul_comm]

theorem getMinFee_proposal {scripts : List CScript} (hlen : scripts.length = proposal.inputs.length)
    (hlong : ∀ script ∈ scripts, 41 ≤ script.length) (hne : proposal.inputs ≠ []) (hout : proposal.outputs ≠ [])
    (net : CodexaCoin.Network) (nTimeTx : Int) :
    getMinFee net (Web.transactionOf (Web.proposalTxInputs proposal scripts) proposal.outputs proposal.locktime) nTimeTx =
      minFeeFor (txSize (scripts.map (·.length)) proposal.outputs) := by
  have hlengths : (Web.proposalTxInputs proposal scripts).map (·.scriptSig.length) = scripts.map (·.length) :=
    List.ext_getElem (by simp [Web.proposalTxInputs, hlen]) fun i _ _ => by simp [Web.proposalTxInputs]
  have hsize : (Web.transactionOf
    (Web.proposalTxInputs proposal scripts) proposal.outputs proposal.locktime).virtualSize =
      txSize (scripts.map (·.length)) proposal.outputs := by rw [virtualSize_transactionOf, hlengths]
  have hlt : 100 < txSize (scripts.map (·.length)) proposal.outputs := by
    refine lt_txSize (List.ne_nil_of_length_pos ?_) (List.forall_mem_map.2 hlong) hout
    rw [List.length_map, hlen]
    exact List.length_pos_iff.2 hne
  rw [← hsize] at hlt ⊢
  exact getMinFee_eq net hlt nTimeTx

/-- **When a proposal covers the minimal fee**: however it is signed if it does for the longest signatures. -/
theorem MultisigProposal.coversMinFee_iff (hscript : ∀ inp ∈ proposal.inputs, inp.redeemScript = s.redeemScript)
    (hne : proposal.inputs ≠ []) (hout : proposal.outputs ≠ []) :
    proposal.CoversMinFee ↔ minFeeFor (txSize (List.replicate proposal.inputs.length s.scriptLength) proposal.outputs) ≤
      (proposal.inputs.map (·.valueSatoshis)).sum - (proposal.outputs.map (·.valueSatoshis)).sum := by
  have hvalue : ∀ scripts, (Web.transactionOf (Web.proposalTxInputs proposal scripts) proposal.outputs
      proposal.locktime).valueOut = (proposal.outputs.map (·.valueSatoshis)).sum := by
    intro scripts
    rw [CTransaction.valueOut, Web.transactionOf, List.map_map]
    rfl
  have hmin : ∀ signatures : List Collected, signatures.length = proposal.inputs.length →
      (∀ collected ∈ signatures, ∀ pk sig, collected pk = some sig → sig.length ≤ 72) →
      (∀ collected ∈ signatures, s.m ≤ (usableSigs s collected).length) → ∀ net nTimeTx,
      getMinFee net (Web.transactionOf (Web.proposalTxInputs proposal (signatures.map fun collected =>
        multisigScriptSig ((usableSigs s collected).take s.m) s.redeemScript)) proposal.outputs proposal.locktime)
          nTimeTx =
      minFeeFor (txSize (signatures.map fun collected =>
        (multisigScriptSig ((usableSigs s collected).take s.m) s.redeemScript).length) proposal.outputs) := by
    intro signatures hlen hshort henough net nTimeTx
    rw [getMinFee_proposal (by rw [List.length_map, hlen]) ?_ hne hout, List.map_map]
    · rfl
    · exact List.forall_mem_map.2 fun collected hc => (length_finalScript (hshort collected hc) (henough collected hc)).1
  constructor
  · intro h
    have hlen : (longSignatures proposal.inputs.length).length = proposal.inputs.length := List.length_replicate
    have hshort : ∀ collected ∈ longSignatures proposal.inputs.length, ∀ pk sig, collected pk = some sig →
        sig.length ≤ 72 := by
      intro collected hc pk sig hsig
      rw [List.eq_of_mem_replicate hc] at hsig
      rw [← Option.some.inj hsig, List.length_replicate]
    have henough : ∀ collected ∈ longSignatures proposal.inputs.length, s.m ≤ (usableSigs s collected).length := by
      intro collected hc
      rw [List.eq_of_mem_replicate hc, usableSigs_long, List.length_replicate]
      exact s.m_le
    have hpaid := h _ hlen hshort _ ((finalScriptSigs_iff hscript hlen hshort).2 ⟨henough, rfl⟩) .main 0
    rwa [hmin _ hlen hshort henough, hvalue, longSignatures, List.map_replicate, length_finalScript_long] at hpaid
  · intro h signatures hlen hshort scripts hscripts net nTimeTx
    obtain ⟨henough, rfl⟩ := (finalScriptSigs_iff hscript hlen hshort).1 hscripts
    rw [hmin _ hlen hshort henough, hvalue]
    refine (minFeeFor_mono (txSize_mono (forall₂_le_replicate (by rw [List.length_map, hlen]) ?_))).trans h
    exact List.forall_mem_map.2 fun collected hc => (length_finalScript (hshort collected hc) (henough collected hc)).2

end Multisig

end CodexaCoin.Wallet
