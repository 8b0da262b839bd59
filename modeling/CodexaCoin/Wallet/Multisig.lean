import CodexaCoin.Wallet.Transaction
import CodexaCoin.Script.Reading

/-!
# Multisig spends of the wallets

`createMultisigRedeemScript`, `signMultisigProposal` and `finalizeMultisigTransaction` of `web-wallet/crypto.js` and of
`cac_wallet/lib/crypto/transaction.dart`. Hex texts of the proposals are byte strings here.
-/

namespace CodexaCoin.Wallet

open Check

/-! ## Redeem scripts -/

def opCheckMultisig : UInt8 := 0xae

def opN (n : Nat) : Except String UInt8 :=
  if n < 1 ∨ 16 < n then .error "OP_N only supports 1..16" else .ok (UInt8.ofNat (0x50 + n))

/-- The push of a key in `createMultisigRedeemScript`. -/
def pushPubkey (pk : List UInt8) : Except String (List UInt8) :=
  if pk.length ≠ 33 then .error "Only compressed (33-byte) pubkeys are supported" else .ok (UInt8.ofNat pk.length :: pk)

def createMultisigRedeemScript (m : Nat) (pubkeysCompressed : List (List UInt8)) : Except String (List UInt8) := do
  if m < 1 ∨ pubkeysCompressed.length < m then .error "m must be between 1 and the number of pubkeys"
  else if 16 < pubkeysCompressed.length then .error "at most 16 pubkeys supported (OP_N range)"
  else
    let opM ← opN m
    let parts ← pubkeysCompressed.mapM pushPubkey
    let opCount ← opN pubkeysCompressed.length
    .ok (opM :: parts.flatten ++ [opCount, opCheckMultisig])

/-! ## Proposals -/

abbrev Collected := List UInt8 → Option (List UInt8)

structure MultisigInput where
  txid : Uint256
  vout : Nat
  valueSatoshis : Int
  redeemScript : List UInt8

structure MultisigProposal where
  version : Int
  locktime : Nat
  inputs : List MultisigInput
  outputs : List TxOutputSpec
  signatures : List Collected

def createMultisigProposal (inputs : List MultisigInput) (outputs : List TxOutputSpec)
    (locktime : Nat) : MultisigProposal :=
  ⟨2, locktime, inputs, outputs, inputs.map fun _ _ => none⟩

def hexDigits (bs : List UInt8) : List Nat := bs.flatMap fun b => [b.toNat / 16, b.toNat % 16]

def scriptContainsPubkey (redeemScript pubkeyCompressed : List UInt8) : Bool :=
  decide (hexDigits pubkeyCompressed <:+: hexDigits redeemScript)

def Collected.add (collected : Collected) (pubkey sig : List UInt8) : Collected :=
  fun pk => if pk = pubkey then some sig else collected pk

/-- One round of the loops of `signMultisigProposal`: inputs in whose redeem script the key does not appear are
skipped. -/
def signInput (noMap : String) (sigOf : MultisigInput × Nat → List UInt8) (pubkey : PublicKey)
    (signatures : List Collected) (p : MultisigInput × Nat) : Except String (List Collected) :=
  if !scriptContainsPubkey p.1.redeemScript pubkey.1 then .ok signatures
  else if signatures.length ≤ p.2 then .error noMap
  else .ok (signatures.modify p.2 fun collected => collected.add pubkey.1 (sigOf p))

/-- The loops of `signMultisigProposal`. -/
def signInputs (noMap : String) (sigOf : MultisigInput × Nat → List UInt8) (pubkey : PublicKey)
    (proposal : MultisigProposal) : Except String MultisigProposal := do
  let signatures ← proposal.inputs.zipIdx.foldlM (signInput noMap sigOf pubkey) proposal.signatures
  .ok { proposal with signatures }

def tooFewSignatures (i count : Nat) (m : Int) : String :=
  "Input " ++ toString i ++ " has " ++ toString count ++ " signature(s), needs " ++ toString m

/-- `OP_0`, the signatures and the redeem script behind its compact size. -/
def multisigScriptSig (sigs : List (List UInt8)) (redeemScript : List UInt8) : List UInt8 :=
  0x00 :: (sigs.map fun sig => UInt8.ofNat sig.length :: sig).flatten ++ (varInt redeemScript.length ++ redeemScript)

namespace Web

/-- The inputs of `proposalToTxInputsOutputs`, with their scripts. -/
def proposalTxInputs (proposal : MultisigProposal) (scriptSigs : List (List UInt8)) : List TxIn :=
  List.zipWith (fun i scriptSig => ⟨i.txid, i.vout, scriptSig, none⟩) proposal.inputs scriptSigs

/-- The digest that is signed for an input, with the redeem script as subscript. -/
def multisigSighash (C : Crypto) (proposal : MultisigProposal) (p : MultisigInput × Nat) : Uint256 :=
  legacySighash C (proposalTxInputs proposal (proposal.inputs.map fun _ => [])) proposal.outputs p.2 p.1.redeemScript
    proposal.locktime

def signMultisigProposal (C : Crypto) (sign : Uint256 → List UInt8 → ECSignature) (proposal : MultisigProposal)
    (privateKey : List UInt8) (publicKeyCompressed : PublicKey) : Except String MultisigProposal :=
  signInputs "TypeError" (fun p => derEncodeSignature (sign (multisigSighash C proposal p) privateKey) ++ [0x01])
    publicKeyCompressed proposal

/-- The loop of `parsePubkeysInOrder`; `slice` stops at the end of the script. -/
def parsePubkeysAux : (fuel : Nat) → List UInt8 → List (List UInt8)
  | 0, _ => []
  | _, [] => []
  | fuel + 1, opcode :: rest =>
    if 1 ≤ opcode ∧ opcode ≤ 75 then
      rest.take opcode.toNat :: parsePubkeysAux fuel (rest.drop opcode.toNat)
    else []

def parsePubkeysInOrder (redeemScript : List UInt8) : List (List UInt8) :=
  parsePubkeysAux redeemScript.length (redeemScript.drop 1)

/-- `slice(0, m)`; a negative end counts from the back and one that is not a number is zero. -/
def sliceTo {α : Type} (l : List α) : Option Int → List α
  | none => []
  | some m => if m < 0 then l.take (l.length + m).toNat else l.take m.toNat

/-- One round of the loop of `finalizeMultisigTransaction`. An empty text is dropped with the missing ones, and the first
byte of an empty script is not a number. -/
def scriptSigOf (proposal : MultisigProposal) (p : MultisigInput × Nat) : Except String (List UInt8) := do
  let redeemScript := p.1.redeemScript
  let m : Option Int := redeemScript.head?.map fun b => (b.toNat : Int) - 0x50
  let found ← (parsePubkeysInOrder redeemScript).mapM fun pk =>
    match proposal.signatures[p.2]? with
    | none => .error "TypeError"
    | some collected => .ok (collected pk)
  let orderedSigs := (found.filterMap id).filter (· ≠ [])
  if m.any fun m => (orderedSigs.length : Int) < m then
    .error (tooFewSignatures p.2 orderedSigs.length (m.getD 0))
  else .ok (multisigScriptSig (sliceTo orderedSigs m) redeemScript)

/-- The scripts that the loop of `finalizeMultisigTransaction` writes. -/
def finalScriptSigs (proposal : MultisigProposal) : Except String (List (List UInt8)) :=
  proposal.inputs.zipIdx.mapM (scriptSigOf proposal)

def finalizeMultisigTransaction (proposal : MultisigProposal) : Except String (List UInt8) := do
  let scriptSigs ← finalScriptSigs proposal
  .ok (serializeTx proposal.version (proposalTxInputs proposal scriptSigs) proposal.outputs proposal.locktime)

end Web

namespace Mobile

def proposalTxInputs (p : MultisigProposal) (scriptSigs : List (List UInt8)) : List TxInput :=
  List.zipWith (fun inp scriptSig => { prevTxid := inp.txid, prevVout := inp.vout, scriptSig }) p.inputs scriptSigs

def multisigSighash (C : Crypto) (proposal : MultisigProposal) (p : MultisigInput × Nat) : Uint256 :=
  legacySighash C (proposalTxInputs proposal (proposal.inputs.map fun _ => [])) proposal.outputs p.2 p.1.redeemScript
    proposal.locktime

def signMultisigProposal (C : Crypto) (sign : Uint256 → List UInt8 → ECSignature) (proposal : MultisigProposal)
    (privateKey : List UInt8) (publicKeyCompressed : PublicKey) : Except String MultisigProposal :=
  signInputs "RangeError" (fun p => derEncodeSignature (sign (multisigSighash C proposal p) privateKey) ++ [0x01])
    publicKeyCompressed proposal

/-- The loop of `_parsePubkeysInOrder`; `sublist` throws beyond the end of the script. -/
def parsePubkeysAux : (fuel : Nat) → List UInt8 → Except String (List (List UInt8))
  | 0, _ => .ok []
  | _, [] => .ok []
  | fuel + 1, opcode :: rest =>
    if 1 ≤ opcode ∧ opcode ≤ 75 then
      if rest.length < opcode.toNat then .error "RangeError"
      else do
        let pubkeys ← parsePubkeysAux fuel (rest.drop opcode.toNat)
        .ok (rest.take opcode.toNat :: pubkeys)
    else .ok []

def parsePubkeysInOrder (redeemScript : List UInt8) : Except String (List (List UInt8)) :=
  parsePubkeysAux redeemScript.length (redeemScript.drop 1)

/-- One round of the loop of `finalizeMultisigTransaction`. -/
def scriptSigOf (proposal : MultisigProposal) (p : MultisigInput × Nat) : Except String (List UInt8) := do
  let redeemScript := p.1.redeemScript
  match redeemScript.head? with
  | none => .error "RangeError"
  | some b =>
    let m : Int := (b.toNat : Int) - 0x50
    let pubkeysInOrder ← parsePubkeysInOrder redeemScript
    match proposal.signatures[p.2]? with
    | none => .error "RangeError"
    | some collected =>
      let orderedSigs := pubkeysInOrder.filterMap collected
      if (orderedSigs.length : Int) < m then .error (tooFewSignatures p.2 orderedSigs.length m)
      else if m < 0 then .error "RangeError"
      else .ok (multisigScriptSig (orderedSigs.take m.toNat) redeemScript)

/-- The scripts that the loop of `finalizeMultisigTransaction` writes. -/
def finalScriptSigs (proposal : MultisigProposal) : Except String (List (List UInt8)) :=
  proposal.inputs.zipIdx.mapM (scriptSigOf proposal)

def finalizeMultisigTransaction (proposal : MultisigProposal) : Except String (List UInt8) := do
  let scriptSigs ← finalScriptSigs proposal
  .ok (serialize proposal.version (proposalTxInputs proposal scriptSigs) proposal.outputs proposal.locktime)

end Mobile

/-! ## The scripts of a setup -/

/-- What the redeem script of `m` of `n` keys is made of. -/
structure MultisigScript where
  m : Nat
  pubkeys : List PublicKey
  one_le : 1 ≤ m
  m_le : m ≤ pubkeys.length
  le_sixteen : pubkeys.length ≤ 16

/-- An `m` of `n` setup with distinct keys. -/
structure MultisigSetup extends MultisigScript where
  nodup : pubkeys.Nodup

instance : CoeOut MultisigSetup MultisigScript := ⟨MultisigSetup.toMultisigScript⟩

namespace MultisigScript

variable (s : MultisigScript)

def keys : List (List UInt8) := s.pubkeys.map Subtype.val

def redeemScript : List UInt8 :=
  UInt8.ofNat (0x50 + s.m) :: (s.keys.map pushed).flatten ++ [UInt8.ofNat (0x50 + s.pubkeys.length), opCheckMultisig]

theorem length_keys : s.keys.length = s.pubkeys.length := List.length_map _

theorem length_of_mem_keys {pk : List UInt8} (h : pk ∈ s.keys) : pk.length = 33 := by
  obtain ⟨key, -, rfl⟩ := List.mem_map.1 h
  exact key.2

theorem m_toNat : (UInt8.ofNat (0x50 + s.m)).toNat = 0x50 + s.m := by
  have h1 := s.m_le
  have h2 := s.le_sixteen
  rw [UInt8.toNat_ofNat', Nat.mod_eq_of_lt (by omega)]

theorem count_toNat : (UInt8.ofNat (0x50 + s.pubkeys.length)).toNat = 0x50 + s.pubkeys.length := by
  have h := s.le_sixteen
  rw [UInt8.toNat_ofNat', Nat.mod_eq_of_lt (by omega)]

theorem createMultisigRedeemScript_eq : createMultisigRedeemScript s.m s.keys = .ok s.redeemScript := by
  have hpk : ∀ pk ∈ s.keys, pushPubkey pk = .ok (pushed pk) := fun pk hpk => if_neg (by simp [s.length_of_mem_keys hpk])
  have h1 := s.one_le
  have h2 := s.m_le
  have h3 := s.le_sixteen
  rw [createMultisigRedeemScript, s.length_keys, if_neg (by omega), if_neg (by omega), opN, if_neg (by omega), ok_bind,
    mapM_eq_ok_map hpk, ok_bind, opN, if_neg (by omega), ok_bind, redeemScript]

theorem length_redeemScript : s.redeemScript.length = 3 + 34 * s.pubkeys.length := by
  have hparts : ∀ l : List (List UInt8), (∀ pk ∈ l, pk.length = 33) → (l.map pushed).flatten.length = 34 * l.length := by
    intro l hl
    induction l with
    | nil => rfl
    | cons pk l ih =>
      rw [List.map_cons, List.flatten_cons, List.length_append, ih fun x hx => hl x (List.mem_cons_of_mem _ hx), pushed,
        List.length_cons, hl pk List.mem_cons_self, List.length_cons]
      omega
  rw [redeemScript, List.length_append, List.length_cons, hparts _ fun pk hpk => s.length_of_mem_keys hpk, length_keys]
  simp only [List.length_cons, List.length_nil]
  omega

theorem scriptOps_redeemScript :
    scriptOps s.redeemScript =
      ((0x50 + s.m, []) :: (s.keys.map fun pk => (pk.length, pk)) ++ [(0x50 + s.pubkeys.length, []), (0xae, [])],
        true) := by
  have h1 := s.one_le
  have h2 := s.m_le
  have hop : opPushdata4 = 0x4e := rfl
  have hpush : opPushdata1 = 0x4c := rfl
  have hm := getScriptOp_opcode (b := UInt8.ofNat (0x50 + s.m)) (by rw [s.m_toNat]; omega)
    ((s.keys.map pushed).flatten ++ [UInt8.ofNat (0x50 + s.pubkeys.length), opCheckMultisig])
  have hn := getScriptOp_opcode (b := UInt8.ofNat (0x50 + s.pubkeys.length)) (by rw [s.count_toNat]; omega)
    [opCheckMultisig]
  have hcheck := getScriptOp_opcode (b := opCheckMultisig) (by decide) []
  rw [redeemScript, List.cons_append, scriptOps_cons hm,
    scriptOps_pushes (fun pk hpk => by rw [s.length_of_mem_keys hpk]; decide), scriptOps_cons hn, scriptOps_cons hcheck,
    s.m_toNat, s.count_toNat]
  rfl

end MultisigScript

/-! ## What the loops write -/

/-- **Parsing the redeem script recovers the keys in order**, in the mobile wallet. -/
theorem Mobile.parsePubkeysAux_pushed {keys : List (List UInt8)} (hkeys : ∀ pk ∈ keys, pk.length = 33) {opcode : UInt8}
    (hop : 75 < opcode) (rest : List UInt8) {fuel : Nat} (hfuel : keys.length < fuel) :
    Mobile.parsePubkeysAux fuel ((keys.map pushed).flatten ++ opcode :: rest) = .ok keys := by
  induction keys generalizing fuel with
  | nil =>
    obtain ⟨fuel, rfl⟩ : ∃ f, fuel = f + 1 := ⟨fuel - 1, by simp at hfuel; omega⟩
    rw [List.map_nil, List.flatten_nil, List.nil_append, Mobile.parsePubkeysAux, if_neg]
    exact fun h => absurd h.2 (by rw [UInt8.not_le]; exact hop)
  | cons pk keys ih =>
    obtain ⟨fuel, rfl⟩ : ∃ f, fuel = f + 1 := ⟨fuel - 1, by simp at hfuel; omega⟩
    have hpk := hkeys pk List.mem_cons_self
    have h33 : (UInt8.ofNat pk.length).toNat = pk.length := by rw [hpk]; rfl
    rw [List.map_cons, List.flatten_cons, List.append_assoc, pushed, List.cons_append, Mobile.parsePubkeysAux,
      if_pos (by rw [hpk]; decide), h33, if_neg (by simp), List.drop_left, List.take_left,
      ih (fun x hx => hkeys x (List.mem_cons_of_mem _ hx)) (by simpa using hfuel)]
    rfl

theorem Web.parsePubkeysAux_eq {fuel : Nat} {script : List UInt8} {keys : List (List UInt8)}
    (h : Mobile.parsePubkeysAux fuel script = .ok keys) : Web.parsePubkeysAux fuel script = keys := by
  induction fuel generalizing script keys with
  | zero => cases h; rfl
  | succ fuel ih =>
    cases script with
    | nil => cases h; rfl
    | cons opcode rest =>
      rw [Mobile.parsePubkeysAux] at h
      rw [Web.parsePubkeysAux]
      split at h
      · rename_i hop
        rw [if_pos hop]
        split at h
        · cases h
        · obtain ⟨keys', hrest, hkeys⟩ := bind_eq_ok.1 h
          cases hkeys
          rw [ih hrest]
      · rename_i hop
        rw [if_neg hop]
        cases h
        rfl

theorem Mobile.parsePubkeysInOrder_redeemScript (s : MultisigScript) :
    Mobile.parsePubkeysInOrder s.redeemScript = .ok s.keys := by
  have h1 := s.one_le
  have h2 := s.m_le
  refine Mobile.parsePubkeysAux_pushed (fun pk hpk => s.length_of_mem_keys hpk) ?_ _ ?_
  · rw [UInt8.lt_iff_toNat_lt, s.count_toNat]
    show 75 < _
    omega
  · rw [s.length_redeemScript, s.length_keys]
    omega

theorem Web.parsePubkeysInOrder_redeemScript (s : MultisigScript) : Web.parsePubkeysInOrder s.redeemScript = s.keys :=
  Web.parsePubkeysAux_eq (Mobile.parsePubkeysInOrder_redeemScript s)

def MultisigScript.collectedSigs (s : MultisigScript) (collected : Collected) : List (List UInt8) :=
  s.keys.filterMap collected

/-- The script of an input whose usable signatures are given. -/
def finalScriptSig (i : Nat) (s : MultisigScript) (sigs : List (List UInt8)) : Except String (List UInt8) :=
  if sigs.length < s.m then .error (tooFewSignatures i sigs.length s.m)
  else .ok (multisigScriptSig (sigs.take s.m) s.redeemScript)

section Rounds

variable {proposal : MultisigProposal} {inp : MultisigInput} {i : Nat} {s : MultisigScript} {collected : Collected}

theorem MultisigScript.head_redeemScript (s : MultisigScript) :
    s.redeemScript.head?.map (fun b => (b.toNat : Int) - 0x50) = some (s.m : Int) := by
  rw [redeemScript, List.cons_append, List.head?_cons, Option.map_some, s.m_toNat]
  congr 1
  omega

theorem Web.scriptSigOf_eq (hscript : inp.redeemScript = s.redeemScript) (hc : proposal.signatures[i]? = some collected) :
    Web.scriptSigOf proposal (inp, i) = finalScriptSig i s ((s.collectedSigs collected).filter (· ≠ [])) := by
  have hfound : (s.keys.mapM fun pk => (match proposal.signatures[i]? with
      | none => .error "TypeError"
      | some collected => .ok (collected pk) : Except String (Option (List UInt8)))) = .ok (s.keys.map collected) :=
    mapM_eq_ok_map fun pk _ => by rw [hc]
  have hsigs : (s.keys.map collected).filterMap id = s.collectedSigs collected := by
    rw [List.filterMap_map]
    rfl
  simp only [Web.scriptSigOf, hscript, Web.parsePubkeysInOrder_redeemScript, s.head_redeemScript, hfound, ok_bind, hsigs,
    Option.any_some, Nat.cast_lt, Web.sliceTo, finalScriptSig, Option.getD_some]
  rw [if_neg (show ¬ (s.m : Int) < 0 by omega)]
  simp

theorem Mobile.scriptSigOf_eq (hscript : inp.redeemScript = s.redeemScript)
    (hc : proposal.signatures[i]? = some collected) :
    Mobile.scriptSigOf proposal (inp, i) = finalScriptSig i s (s.collectedSigs collected) := by
  have hhead : s.redeemScript.head? = some (UInt8.ofNat (0x50 + s.m)) := rfl
  have hm : ((UInt8.ofNat (0x50 + s.m)).toNat : Int) - 0x50 = s.m := by rw [s.m_toNat]; omega
  simp only [Mobile.scriptSigOf, hscript, hhead, hm, Mobile.parsePubkeysInOrder_redeemScript, ok_bind, hc, finalScriptSig,
    MultisigScript.collectedSigs, Nat.cast_lt]
  rw [if_neg (show ¬ (s.m : Int) < 0 by omega), Int.toNat_natCast]
  exact if_congr Iff.rfl rfl rfl

end Rounds

/-! ## What signing adds -/

section Signing

variable {noMap : String} {sigOf : MultisigInput × Nat → List UInt8} {pubkey : PublicKey}

variable (sigOf pubkey) in
def signedCollected (p : MultisigInput × Nat) (collected : Collected) : Collected :=
  if scriptContainsPubkey p.1.redeemScript pubkey.1 then collected.add pubkey.1 (sigOf p) else collected

theorem foldlM_signInput (todo : List MultisigInput) (done rest : List Collected) (hlen : rest.length = todo.length) :
    (todo.zipIdx done.length).foldlM (signInput noMap sigOf pubkey) (done ++ rest) =
      .ok (done ++ List.zipWith (signedCollected sigOf pubkey) (todo.zipIdx done.length) rest) := by
  induction todo generalizing done rest with
  | nil =>
    obtain rfl := List.eq_nil_of_length_eq_zero hlen
    rfl
  | cons inp todo ih =>
    obtain ⟨collected, rest, rfl⟩ := List.exists_cons_of_length_eq_add_one hlen
    have hstep : signInput noMap sigOf pubkey (done ++ collected :: rest) (inp, done.length) =
        .ok ((done ++ [signedCollected sigOf pubkey (inp, done.length) collected]) ++ rest) := by
      unfold signInput signedCollected
      cases scriptContainsPubkey inp.redeemScript pubkey.1 with
      | false => simp
      | true => simp [modify_append_cons]
    have hnext := ih (done ++ [signedCollected sigOf pubkey (inp, done.length) collected]) rest (by simpa using hlen)
    rw [List.length_append, List.length_singleton] at hnext
    rw [List.zipIdx_cons, List.foldlM_cons, hstep, ok_bind, hnext, List.zipWith_cons_cons]
    simp

/-- **What signing adds**: each input's signatures with that of the signer, if the signer's key appears in its script. -/
theorem signInputs_eq (proposal : MultisigProposal) (hlen : proposal.signatures.length = proposal.inputs.length) :
    signInputs noMap sigOf pubkey proposal =
      .ok { proposal with
        signatures := List.zipWith (signedCollected sigOf pubkey) proposal.inputs.zipIdx proposal.signatures } := by
  have hloop : proposal.inputs.zipIdx.foldlM (signInput noMap sigOf pubkey) proposal.signatures = _ :=
    foldlM_signInput proposal.inputs [] proposal.signatures hlen
  rw [signInputs, hloop]
  rfl

theorem scriptContainsPubkey_redeemScript {s : MultisigScript} (h : pubkey ∈ s.pubkeys) :
    scriptContainsPubkey s.redeemScript pubkey.1 = true := by
  have hdigits : ∀ as bs, hexDigits (as ++ bs) = hexDigits as ++ hexDigits bs := fun as bs => List.flatMap_append
  obtain ⟨l, r, hkeys⟩ := List.append_of_mem (List.mem_map_of_mem (f := Subtype.val) h)
  have hscript : ∃ as bs, s.redeemScript = as ++ pubkey.1 ++ bs := by
    refine ⟨UInt8.ofNat (0x50 + s.m) :: (l.map pushed).flatten ++ [UInt8.ofNat pubkey.1.length], (r.map pushed).flatten ++
      [UInt8.ofNat (0x50 + s.pubkeys.length), opCheckMultisig], ?_⟩
    rw [MultisigScript.redeemScript, show s.keys = _ from hkeys]
    simp [pushed]
  obtain ⟨as, bs, hscript⟩ := hscript
  refine decide_eq_true ⟨hexDigits as, hexDigits bs, ?_⟩
  rw [hscript, hdigits, hdigits]

end Signing

/-! ## The scripts as the node reads them -/

/-- `OP_0`, then pushes of `m` of the signatures in the order of their keys, then a push of the redeem script, none of
them too long for the stack. -/
def SpendsMultisig (s : MultisigSetup) (collected : Collected) (scriptSig : CScript) : Prop :=
  ∃ sigs : List (List UInt8), sigs.length = s.m ∧ sigs.Sublist (s.collectedSigs collected) ∧
    (scriptOps scriptSig).2 = true ∧ (scriptOps scriptSig).1.head? = some (0, []) ∧
    (scriptOps scriptSig).1.map Prod.snd = [] :: sigs ++ [s.redeemScript] ∧
    ∀ op ∈ (scriptOps scriptSig).1, op.1 ≤ opPushdata4 ∧ op.2.length ≤ maxScriptElementSize

theorem multisigScriptSig_eq (sigs : List (List UInt8)) (redeemScript : List UInt8) :
    multisigScriptSig sigs redeemScript =
      (([] :: sigs).map pushed).flatten ++ (varInt redeemScript.length ++ redeemScript) :=
  rfl

section Reading

variable {sigs : List (List UInt8)} (hsigs : ∀ sig ∈ sigs, sig.length ≤ 73)

include hsigs in
theorem scriptOps_multisigScriptSig (redeemScript : List UInt8) :
    scriptOps (multisigScriptSig sigs redeemScript) =
      ((0, []) :: (sigs.map fun sig => (sig.length, sig)) ++ (scriptOps (varInt redeemScript.length ++ redeemScript)).1,
        (scriptOps (varInt redeemScript.length ++ redeemScript)).2) := by
  rw [multisigScriptSig_eq, scriptOps_pushes]
  · rfl
  · intro data hdata
    rcases List.mem_cons.1 hdata with rfl | hdata
    · decide
    · exact Nat.lt_of_le_of_lt (hsigs data hdata) (by decide)

theorem varInt_opcode {n : Nat} (h : opPushdata4 < n) : ∃ b l, varInt n = b :: l ∧ opPushdata4 < b.toNat := by
  unfold varInt
  split
  · refine ⟨_, [], rfl, ?_⟩
    rw [UInt8.toNat_ofNat', Nat.mod_eq_of_lt (by omega)]
    exact h
  · split
    · exact ⟨_, _, rfl, by decide⟩
    · split
      · exact ⟨_, _, rfl, by decide⟩
      · exact ⟨_, _, rfl, by decide⟩

variable {s : MultisigSetup} {collected : Collected}

include hsigs in
/-- **With up to two keys the redeem script is pushed directly.** -/
theorem spendsMultisig_of_le_two (hlen : sigs.length = s.m) (hsub : sigs.Sublist (s.collectedSigs collected))
    (h : s.pubkeys.length ≤ 2) : SpendsMultisig s collected (multisigScriptSig sigs s.redeemScript) := by
  have hsize := s.length_redeemScript
  have hpush : s.redeemScript.length < opPushdata1 := Nat.lt_of_le_of_lt (show _ ≤ 71 by omega) (by decide)
  have hvarInt : varInt s.redeemScript.length = [UInt8.ofNat s.redeemScript.length] := if_pos (by omega)
  have hlast : scriptOps (varInt s.redeemScript.length ++ s.redeemScript) =
      ([(s.redeemScript.length, s.redeemScript)], true) := by
    have hop := getScriptOp_pushed hpush []
    rw [List.append_nil] at hop
    rw [hvarInt, List.singleton_append, scriptOps_cons hop]
    rfl
  have hops := scriptOps_multisigScriptSig hsigs s.redeemScript
  rw [hlast] at hops
  refine ⟨sigs, hlen, hsub, ?_⟩
  rw [hops]
  refine ⟨rfl, rfl, by simp [Function.comp_def], fun op hop => ?_⟩
  have hmax : maxScriptElementSize = 520 := rfl
  have h4 : opPushdata4 = 78 := rfl
  simp only [List.cons_append, List.mem_cons, List.mem_append, List.mem_map, List.not_mem_nil, or_false] at hop
  rcases hop with rfl | ⟨sig, hsig, rfl⟩ | rfl
  · exact ⟨Nat.zero_le _, Nat.zero_le _⟩
  · have := hsigs sig hsig
    exact ⟨show sig.length ≤ _ by omega, show sig.length ≤ _ by omega⟩
  · exact ⟨show s.redeemScript.length ≤ _ by omega, show s.redeemScript.length ≤ _ by omega⟩

include hsigs in
/-- **With three keys or more it is not pushed at all.** -/
theorem le_two_of_spendsMultisig (h : SpendsMultisig s collected (multisigScriptSig sigs s.redeemScript)) :
    s.pubkeys.length ≤ 2 := by
  by_contra hthree
  have h4 : opPushdata4 = 78 := rfl
  obtain ⟨b, l, hvarInt, hb⟩ := varInt_opcode
    (show opPushdata4 < s.redeemScript.length by rw [s.length_redeemScript]; omega)
  obtain ⟨-, -, -, -, -, -, hpushes⟩ := h
  have hmem : (b.toNat, []) ∈ (scriptOps (multisigScriptSig sigs s.redeemScript)).1 := by
    have hop : getScriptOp (b :: l ++ s.redeemScript) = some ((b.toNat, []), l ++ s.redeemScript) :=
      getScriptOp_opcode hb _
    rw [scriptOps_multisigScriptSig hsigs, hvarInt, scriptOps_cons hop]
    simp
  have := (hpushes _ hmem).1
  omega

end Reading

/-! ## Whole proposals -/

/-- A proposal for setups of any kind, with a map of signatures for each input. -/
structure MultisigSpend where
  proposal : MultisigProposal
  setups : List MultisigSetup
  scripts : List.Forall₂ (fun inp s => createMultisigRedeemScript s.m s.keys = .ok inp.redeemScript)
    proposal.inputs setups
  length_signatures : proposal.signatures.length = proposal.inputs.length
  length_signature_le : ∀ collected ∈ proposal.signatures, ∀ pk sig, collected pk = some sig → sig.length ≤ 73

namespace MultisigSpend

variable (spend : MultisigSpend)

def asks : List (MultisigSetup × Collected) := spend.setups.zip spend.proposal.signatures

/-- Every input has signatures for at least `m` of its keys. -/
def Covered : Prop := ∀ a ∈ spend.asks, a.1.m ≤ (a.1.collectedSigs a.2).length

/-- What is expected of the scripts and the transaction of a wallet: with enough signatures the scripts spend, with too
few on some input there is no transaction. -/
def Finalizes (scriptSigs : Except String (List CScript)) (rawTx : Except String (List UInt8)) : Prop :=
  (spend.Covered → ∃ scripts, scriptSigs = .ok scripts ∧
    rawTx = .ok (Web.serializeTx spend.proposal.version (Web.proposalTxInputs spend.proposal scripts)
      spend.proposal.outputs spend.proposal.locktime) ∧
    List.Forall₂ (fun a script => SpendsMultisig a.1 a.2 script) spend.asks scripts) ∧
  (¬ spend.Covered → ∃ e, rawTx = .error e)

variable {spend}

theorem redeemScript_eq {inp : MultisigInput} {s : MultisigSetup}
    (h : createMultisigRedeemScript s.m s.keys = .ok inp.redeemScript) : inp.redeemScript = s.redeemScript := by
  rw [s.createMultisigRedeemScript_eq] at h
  exact (Except.ok.inj h).symm

theorem length_setups : spend.setups.length = spend.proposal.inputs.length := spend.scripts.length_eq.symm

variable (spend) in
theorem mapM_scriptSigOf {f : MultisigInput × Nat → Except String CScript}
    {sel : MultisigScript → Collected → List (List UInt8)}
    (hf : ∀ inp i (s : MultisigScript) collected, inp.redeemScript = s.redeemScript →
      spend.proposal.signatures[i]? = some collected → f (inp, i) = finalScriptSig i s (sel s collected)) :
    spend.proposal.inputs.zipIdx.mapM f = spend.asks.zipIdx.mapM fun a => finalScriptSig a.2 a.1.1 (sel a.1.1 a.1.2) := by
  have hset := spend.length_setups
  have hsig := spend.length_signatures
  refine mapM_eq_mapM (List.ext_getElem ?_ fun i h1 h2 => ?_)
  · simp only [List.length_map, List.length_zipIdx, asks, List.length_zip]
    omega
  · simp only [List.length_map, List.length_zipIdx] at h1
    have hscript := (List.forall₂_iff_get.1 spend.scripts).2 i h1 (by omega)
    simp only [List.getElem_map, List.getElem_zipIdx, asks, List.getElem_zip, Nat.zero_add]
    exact hf _ i _ _ (redeemScript_eq hscript) (List.getElem?_eq_getElem (by omega))

theorem length_le_of_mem_collectedSigs {a : MultisigSetup × Collected} (ha : a ∈ spend.asks) {sig : List UInt8}
    (h : sig ∈ a.1.collectedSigs a.2) : sig.length ≤ 73 := by
  obtain ⟨pk, -, hpk⟩ := List.mem_filterMap.1 h
  exact spend.length_signature_le _ (List.of_mem_zip ha).2 pk sig hpk

section Selection

variable {sel : MultisigScript → Collected → List (List UInt8)}

variable (sel) in
def selectedScriptSig (a : MultisigSetup × Collected) : CScript :=
  multisigScriptSig ((sel a.1 a.2).take a.1.m) a.1.redeemScript

theorem loop_eq_ok_iff {scripts : List CScript} :
    (spend.asks.zipIdx.mapM fun a => finalScriptSig a.2 a.1.1 (sel a.1.1 a.1.2)) = .ok scripts ↔
      (∀ a ∈ spend.asks, a.1.m ≤ (sel a.1 a.2).length) ∧ spend.asks.map (selectedScriptSig sel) = scripts := by
  have hround : ∀ (a : (MultisigSetup × Collected) × Nat) (script : CScript),
      finalScriptSig a.2 a.1.1 (sel a.1.1 a.1.2) = .ok script ↔
        a.1.1.m ≤ (sel a.1.1 a.1.2).length ∧ selectedScriptSig sel a.1 = script := by
    intro a script
    unfold finalScriptSig
    split
    · exact ⟨fun h => (nomatch h), fun h => by omega⟩
    · exact ⟨fun h => ⟨by omega, Except.ok.inj h⟩, fun h => congrArg Except.ok h.2⟩
  rw [mapM_eq_ok_iff]
  simp only [hround]
  rw [← List.forall₂_map_left_iff (f := Prod.fst) (R := fun a script =>
      a.1.m ≤ (sel a.1 a.2).length ∧ selectedScriptSig sel a = script), List.zipIdx_map_fst, List.forall₂_and_left,
    ← List.forall₂_map_left_iff (f := selectedScriptSig sel) (R := Eq), List.forall₂_eq_eq_eq]

/-- **A wallet that signs with a selection of the signatures** finalizes exactly the proposals that have at most two keys
for each input and enough signatures in the selection. -/
theorem finalizes_iff (hsel : ∀ s collected, (sel s collected).Sublist (s.collectedSigs collected))
    {scriptSigs : Except String (List CScript)}
    (hloop : scriptSigs = spend.asks.zipIdx.mapM fun a => finalScriptSig a.2 a.1.1 (sel a.1.1 a.1.2)) :
    spend.Finalizes scriptSigs (scriptSigs >>= fun scripts => .ok (Web.serializeTx spend.proposal.version
        (Web.proposalTxInputs spend.proposal scripts) spend.proposal.outputs spend.proposal.locktime)) ↔
      (spend.Covered → ∀ a ∈ spend.asks, a.1.pubkeys.length ≤ 2 ∧ a.1.m ≤ (sel a.1 a.2).length) := by
  have hsub : ∀ a : MultisigSetup × Collected, ((sel a.1 a.2).take a.1.m).Sublist (a.1.collectedSigs a.2) :=
    fun a => (List.take_sublist _ _).trans (hsel _ _)
  have hshort : ∀ a ∈ spend.asks, ∀ sig ∈ (sel a.1 a.2).take a.1.m, sig.length ≤ 73 :=
    fun a ha sig hsig => length_le_of_mem_collectedSigs ha ((hsub a).subset hsig)
  constructor
  · rintro ⟨hspends, -⟩ hcovered a ha
    obtain ⟨scripts, hscripts, -, hspent⟩ := hspends hcovered
    rw [hloop, loop_eq_ok_iff] at hscripts
    obtain ⟨henough, rfl⟩ := hscripts
    rw [List.forall₂_map_right_iff, List.forall₂_same] at hspent
    exact ⟨le_two_of_spendsMultisig (hshort a ha) (hspent a ha), henough a ha⟩
  · refine fun h => ⟨fun hcovered => ?_, fun hshortage => ?_⟩
    · have hok := hloop.trans (loop_eq_ok_iff.2 ⟨fun a ha => (h hcovered a ha).2, rfl⟩)
      refine ⟨_, hok, by rw [hok, ok_bind], ?_⟩
      rw [List.forall₂_map_right_iff, List.forall₂_same]
      intro a ha
      obtain ⟨htwo, henough⟩ := h hcovered a ha
      exact spendsMultisig_of_le_two (hshort a ha) (List.length_take_of_le henough) (hsub a) htwo
    · cases hok : scriptSigs with
      | error e => exact ⟨e, rfl⟩
      | ok scripts =>
        have henough := (loop_eq_ok_iff.1 (hloop.symm.trans hok)).1
        exact absurd (fun a ha => (henough a ha).trans (hsel _ _).length_le) hshortage

end Selection

end MultisigSpend

theorem Mobile.serialize_proposalTxInputs (p : MultisigProposal) (scriptSigs : List CScript) :
    Mobile.serialize p.version (Mobile.proposalTxInputs p scriptSigs) p.outputs p.locktime =
      Web.serializeTx p.version (Web.proposalTxInputs p scriptSigs) p.outputs p.locktime := by
  have hin : ((Mobile.proposalTxInputs p scriptSigs).map TxInput.toWeb).map Web.serializeTxIn =
      (Web.proposalTxInputs p scriptSigs).map Web.serializeTxIn := by
    simp only [Mobile.proposalTxInputs, Web.proposalTxInputs, List.map_zipWith]
    rfl
  have hlen : ((Mobile.proposalTxInputs p scriptSigs).map TxInput.toWeb).length =
      (Web.proposalTxInputs p scriptSigs).length := by simpa using congrArg List.length hin
  rw [Mobile.serialize_eq, Web.serializeTx, Web.serializeTx, hin, hlen]

theorem finalizeMultisigTransaction_spends_iff (spend : MultisigSpend) :
    (spend.Finalizes (Web.finalScriptSigs spend.proposal) (Web.finalizeMultisigTransaction spend.proposal) ↔
      (spend.Covered → ∀ a ∈ spend.asks, a.1.pubkeys.length ≤ 2 ∧
        a.1.m ≤ ((a.1.collectedSigs a.2).filter (· ≠ [])).length)) ∧
    (spend.Finalizes (Mobile.finalScriptSigs spend.proposal) (Mobile.finalizeMultisigTransaction spend.proposal) ↔
      (spend.Covered → ∀ a ∈ spend.asks, a.1.pubkeys.length ≤ 2)) := by
  constructor
  · have hloop := spend.mapM_scriptSigOf fun inp i s collected => Web.scriptSigOf_eq
    exact MultisigSpend.finalizes_iff (fun s collected => List.filter_sublist) hloop
  · have hloop := spend.mapM_scriptSigOf fun inp i s collected => Mobile.scriptSigOf_eq
    have hiff := MultisigSpend.finalizes_iff (fun s collected => List.Sublist.refl _) hloop
    simp only [Mobile.finalizeMultisigTransaction, Mobile.serialize_proposalTxInputs]
    refine hiff.trans ⟨fun h hcovered a ha => (h hcovered a ha).1,
      fun h hcovered a ha => ⟨h hcovered a ha, hcovered a ha⟩⟩

theorem length_twos : (List.replicate 33 (2 : UInt8)).length = 33 := rfl

theorem length_threes : (List.replicate 33 (3 : UInt8)).length = 33 := rfl

def twoOfThree : MultisigSetup where
  m := 2
  pubkeys := [⟨List.replicate 33 2, length_twos⟩, ⟨List.replicate 33 3, length_threes⟩, ⟨List.replicate 33 4, rfl⟩]
  one_le := by decide
  m_le := by decide
  le_sixteen := by decide
  nodup := by decide

def twoSignatures : Collected := fun pk =>
  if pk = List.replicate 33 2 then some (List.replicate 71 0x30)
  else if pk = List.replicate 33 4 then some (List.replicate 71 0x31)
  else none

/-- A proposal to spend one output of `twoOfThree`, with enough signatures. -/
def twoOfThreeSpend : MultisigSpend where
  proposal :=
    { version := 2
      locktime := 0
      inputs := [⟨7, 0, 1000000, twoOfThree.redeemScript⟩]
      outputs := [⟨[0x51], 900000⟩]
      signatures := [twoSignatures] }
  setups := [twoOfThree]
  scripts := .cons twoOfThree.createMultisigRedeemScript_eq .nil
  length_signatures := rfl
  length_signature_le := by
    intro collected hc pk sig h
    obtain rfl := List.mem_singleton.1 hc
    unfold twoSignatures at h
    split at h
    · cases h; decide
    · split at h
      · cases h; decide
      · cases h

/-- **The redeem script of a two of three setup is not pushed**: its 105 bytes stand behind the byte `0x69`, which the
node reads as `OP_VERIFY`. -/
theorem twoOfThree_redeemScript_read_as_opcodes :
    twoOfThreeSpend.Covered ∧ ∃ script,
      Web.finalScriptSigs twoOfThreeSpend.proposal = .ok [script] ∧
      Mobile.finalScriptSigs twoOfThreeSpend.proposal = .ok [script] ∧
      (scriptOps script).1.take 4 =
        [(0, []), (71, List.replicate 71 0x30), (71, List.replicate 71 0x31), (0x69, [])] ∧
      ¬ SpendsMultisig twoOfThree twoSignatures script := by
  have hsigs : twoOfThree.collectedSigs twoSignatures = [List.replicate 71 0x30, List.replicate 71 0x31] := by
    decide +kernel
  refine ⟨?_, multisigScriptSig (twoOfThree.collectedSigs twoSignatures) twoOfThree.redeemScript, ?_, ?_, ?_, fun h => ?_⟩
  · intro a ha
    obtain rfl := List.mem_singleton.1 ha
    rw [hsigs]
    decide
  · decide +kernel
  · decide +kernel
  · decide +kernel
  · have hshort : ∀ sig ∈ twoOfThree.collectedSigs twoSignatures, sig.length ≤ 73 := by rw [hsigs]; decide
    exact absurd (le_two_of_spendsMultisig hshort h) (by decide)

end CodexaCoin.Wallet
