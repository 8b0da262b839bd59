import CodexaCoin.Wallet.BumpFee

/-!
# Collecting the signatures of a multisig spend

`mergeMultisigProposals` of `web-wallet/crypto.js` and `cac_wallet/lib/crypto/transaction.dart`, and all the ways in
which cosigners come from a new proposal to one that has their signatures: signing a copy after the other, or copies of
their own that are merged, in any order and grouping.
-/

namespace CodexaCoin.Wallet

open Check

/-! ## Merging -/

def Collected.assign (collected other : Collected) : Collected := fun pk => (other pk).or (collected pk)

/-- One round of the loop of `mergeMultisigProposals`: `Object.assign` passes over a map that is not there. -/
def Web.assignSignatures (merged p : MultisigProposal) : MultisigProposal :=
  { merged with signatures := merged.signatures.mapIdx fun i collected =>
      match p.signatures[i]? with
      | some other => collected.assign other
      | none => collected }

def Web.mergeMultisigProposals : List MultisigProposal → Except String MultisigProposal
  | [] => .error "SyntaxError"
  | first :: rest => .ok (rest.foldl Web.assignSignatures first)

def Mobile.assignSignatures (merged p : MultisigProposal) : Except String MultisigProposal :=
  if p.signatures.length < merged.signatures.length then .error "RangeError" else .ok (Web.assignSignatures merged p)

/-- `mergeMultisigProposals` of the mobile wallet. It writes into the maps of the first proposal, which is the result. -/
def Mobile.mergeMultisigProposals : List MultisigProposal → Except String MultisigProposal
  | [] => .error "Bad state: No element"
  | first :: rest => rest.foldlM Mobile.assignSignatures first

/-- The functions of a wallet that a multisig spend goes through. -/
structure MultisigClient where
  sign : MultisigProposal → KeyPair → Except String MultisigProposal
  merge : List MultisigProposal → Except String MultisigProposal
  scriptSigOf : MultisigProposal → MultisigInput × Nat → Except String CScript
  finalize : MultisigProposal → Except String (List UInt8)

/-- The scripts that `finalizeMultisigTransaction` writes. -/
def MultisigClient.finalScriptSigs (W : MultisigClient) (proposal : MultisigProposal) : Except String (List CScript) :=
  proposal.inputs.zipIdx.mapM (W.scriptSigOf proposal)

def Web.client (C : Crypto) (sign : Uint256 → List UInt8 → ECSignature) : MultisigClient where
  sign proposal key := Web.signMultisigProposal C sign proposal key.1 key.2
  merge := Web.mergeMultisigProposals
  scriptSigOf := Web.scriptSigOf
  finalize := Web.finalizeMultisigTransaction

def Mobile.client (C : Crypto) (sign : Uint256 → List UInt8 → ECSignature) : MultisigClient where
  sign proposal key := Mobile.signMultisigProposal C sign proposal key.1 key.2
  merge := Mobile.mergeMultisigProposals
  scriptSigOf := Mobile.scriptSigOf
  finalize := Mobile.finalizeMultisigTransaction

/-! ## Collecting -/

/-- How a copy of a new proposal comes to its signatures. -/
inductive Collecting where
  | fresh
  | signed (copy : Collecting) (signer : KeyPair)
  | merged (first : Collecting) (rest : List Collecting)

namespace Collecting

mutual

/-- The proposal that it leads to. -/
def run (W : MultisigClient) (proposal : MultisigProposal) : Collecting → Except String MultisigProposal
  | fresh => .ok proposal
  | signed copy signer => do
    let p ← copy.run W proposal
    W.sign p signer
  | merged first rest => do
    let p ← first.run W proposal
    let ps ← runAll W proposal rest
    W.merge (p :: ps)

def runAll (W : MultisigClient) (proposal : MultisigProposal) : List Collecting → Except String (List MultisigProposal)
  | [] => .ok []
  | c :: cs => do
    let p ← c.run W proposal
    let ps ← runAll W proposal cs
    .ok (p :: ps)

end

mutual

def signers : Collecting → List KeyPair
  | fresh => []
  | signed copy signer => signer :: copy.signers
  | merged first rest => signersAll rest ++ first.signers

def signersAll : List Collecting → List KeyPair
  | [] => []
  | c :: cs => signersAll cs ++ c.signers

end

end Collecting

/-! ## What is collected -/

section Collected

variable (sigOf : KeyPair → MultisigInput × Nat → List UInt8)

def collectedBy (signers : List KeyPair) (p : MultisigInput × Nat) : Collected := fun pk =>
  if scriptContainsPubkey p.1.redeemScript pk then (signers.find? fun key => key.2.1 = pk).map (sigOf · p) else none

def MultisigProposal.signedBy (proposal : MultisigProposal) (signers : List KeyPair) : MultisigProposal :=
  { proposal with signatures := proposal.inputs.zipIdx.map (collectedBy sigOf signers) }

variable {sigOf} {signers : List KeyPair} {p : MultisigInput × Nat} {pk : List UInt8}

theorem signedCollected_collectedBy (key : KeyPair) :
    signedCollected (sigOf key) key.2 p (collectedBy sigOf signers p) = collectedBy sigOf (key :: signers) p := by
  funext pk
  unfold signedCollected collectedBy
  by_cases heq : pk = key.2.1
  · subst heq
    cases hcontains : scriptContainsPubkey p.1.redeemScript key.2.1 with
    | false => simp [hcontains]
    | true => simp [Collected.add]
  · have hfind : (key :: signers).find? (fun k => k.2.1 = pk) = signers.find? fun k => k.2.1 = pk :=
      List.find?_cons_of_neg (by simpa using Ne.symm heq)
    rw [hfind]
    split
    · rw [Collected.add, if_neg heq]
    · rfl

theorem assign_collectedBy (others : List KeyPair) :
    (collectedBy sigOf signers p).assign (collectedBy sigOf others p) = collectedBy sigOf (others ++ signers) p := by
  funext pk
  unfold Collected.assign collectedBy
  split
  · rw [List.find?_append, Option.map_or]
  · rfl

theorem collectedBy_eq_some_iff : (∃ sig, collectedBy sigOf signers p pk = some sig) ↔
    scriptContainsPubkey p.1.redeemScript pk = true ∧ pk ∈ signers.map (·.2.1) := by
  unfold collectedBy
  split
  next hcontains =>
    rw [and_iff_right hcontains, ← Option.isSome_iff_exists, Option.isSome_map, List.find?_isSome]
    simp
  next hcontains => simp [hcontains]

end Collected

/-! ## Runs -/

/-- What the functions of a wallet do to proposals that some have signed. -/
structure MultisigClient.Signs (W : MultisigClient) (proposal : MultisigProposal)
    (sigOf : KeyPair → MultisigInput × Nat → List UInt8) : Prop where
  sign : ∀ signers key, W.sign (proposal.signedBy sigOf signers) key = .ok (proposal.signedBy sigOf (key :: signers))
  merge : ∀ signers (others : List (List KeyPair)),
    W.merge (proposal.signedBy sigOf signers :: others.map (proposal.signedBy sigOf)) =
    .ok (proposal.signedBy sigOf (others.foldl (fun all signers => signers ++ all) signers))
  scriptSigOf : ∀ signers, ∀ p ∈ proposal.inputs.zipIdx, ∀ s : MultisigScript, p.1.redeemScript = s.redeemScript →
    W.scriptSigOf (proposal.signedBy sigOf signers) p =
      finalScriptSig p.2 s (s.collectedSigs (collectedBy sigOf signers p))
  finalize : ∀ p scripts, W.finalScriptSigs p = .ok scripts → ∃ rawTx, W.finalize p = .ok rawTx

section Runs

variable {W : MultisigClient} {proposal : MultisigProposal} {sigOf : KeyPair → MultisigInput × Nat → List UInt8}

theorem foldl_signers (cs : List Collecting) (all : List KeyPair) :
    (cs.map Collecting.signers).foldl (fun all signers => signers ++ all) all = Collecting.signersAll cs ++ all := by
  induction cs generalizing all with
  | nil => rfl
  | cons c cs ih => rw [List.map_cons, List.foldl_cons, ih, Collecting.signersAll, List.append_assoc]

mutual

/-- **What a run leads to** depends on who has signed only. -/
theorem Collecting.run_eq (hW : W.Signs proposal sigOf) (hfresh : proposal = proposal.signedBy sigOf []) :
    ∀ c : Collecting, c.run W proposal = .ok (proposal.signedBy sigOf c.signers)
  | .fresh => by rw [run, signers, ← hfresh]
  | .signed copy signer => by rw [run, run_eq hW hfresh copy, ok_bind, hW.sign, signers]
  | .merged first rest => by
    rw [run, run_eq hW hfresh first, ok_bind, runAll_eq hW hfresh rest, ok_bind, ← List.map_map, hW.merge, foldl_signers,
      signers]

theorem Collecting.runAll_eq (hW : W.Signs proposal sigOf) (hfresh : proposal = proposal.signedBy sigOf []) :
    ∀ cs : List Collecting, Collecting.runAll W proposal cs = .ok (cs.map (proposal.signedBy sigOf ∘ Collecting.signers))
  | [] => rfl
  | c :: cs => by rw [runAll, Collecting.run_eq hW hfresh c, ok_bind, runAll_eq hW hfresh cs, ok_bind]; rfl

end

variable (proposal sigOf) in
theorem signInputs_signedBy (noMap : String) (signers : List KeyPair) (key : KeyPair) :
    signInputs noMap (sigOf key) key.2 (proposal.signedBy sigOf signers) =
      .ok (proposal.signedBy sigOf (key :: signers)) := by
  have hlen : (proposal.signedBy sigOf signers).signatures.length = (proposal.signedBy sigOf signers).inputs.length := by
    simp [MultisigProposal.signedBy]
  rw [signInputs_eq _ hlen]
  simp only [MultisigProposal.signedBy, List.zipWith_map_right, List.zipWith_self, signedCollected_collectedBy]

variable (proposal) in
theorem assignSignatures_signedBy (signers others : List KeyPair) :
    Web.assignSignatures (proposal.signedBy sigOf signers) (proposal.signedBy sigOf others) =
      proposal.signedBy sigOf (others ++ signers) := by
  simp only [Web.assignSignatures, MultisigProposal.signedBy]
  congr 1
  refine List.ext_getElem (by simp) fun i h1 h2 => ?_
  simp at h1
  simp [h1, assign_collectedBy]

variable (proposal) in
theorem foldl_assignSignatures (signers : List KeyPair) (others : List (List KeyPair)) :
    (others.map (proposal.signedBy sigOf)).foldl Web.assignSignatures (proposal.signedBy sigOf signers) =
      proposal.signedBy sigOf (others.foldl (fun all signers => signers ++ all) signers) := by
  induction others generalizing signers with
  | nil => rfl
  | cons other others ih => rw [List.map_cons, List.foldl_cons, assignSignatures_signedBy, ih, List.foldl_cons]

variable (proposal) in
theorem foldlM_assignSignatures (signers : List KeyPair) (others : List (List KeyPair)) :
    (others.map (proposal.signedBy sigOf)).foldlM Mobile.assignSignatures (proposal.signedBy sigOf signers) =
      .ok (proposal.signedBy sigOf (others.foldl (fun all signers => signers ++ all) signers)) := by
  induction others generalizing signers with
  | nil => rfl
  | cons other others ih =>
    have hlen : ¬(proposal.signedBy sigOf other).signatures.length <
        (proposal.signedBy sigOf signers).signatures.length := by
      simp [MultisigProposal.signedBy]
    rw [List.map_cons, List.foldlM_cons, Mobile.assignSignatures, if_neg hlen, assignSignatures_signedBy, ok_bind, ih,
      List.foldl_cons]

end Runs

section Clients

variable (C : Crypto) (sign : Uint256 → List UInt8 → ECSignature) (proposal : MultisigProposal)

def Web.multisigSignature (key : KeyPair) (p : MultisigInput × Nat) : List UInt8 :=
  derEncodeSignature (sign (Web.multisigSighash C proposal p) key.1) ++ [0x01]

def Mobile.multisigSignature (key : KeyPair) (p : MultisigInput × Nat) : List UInt8 :=
  derEncodeSignature (sign (Mobile.multisigSighash C proposal p) key.1) ++ [0x01]

variable {proposal} in
theorem signatures_signedBy {sigOf : KeyPair → MultisigInput × Nat → List UInt8} (signers : List KeyPair)
    {p : MultisigInput × Nat} (h : p ∈ proposal.inputs.zipIdx) :
    (proposal.signedBy sigOf signers).signatures[p.2]? = some (collectedBy sigOf signers p) := by
  rw [MultisigProposal.signedBy, List.getElem?_map, List.getElem?_zipIdx, Nat.zero_add, List.mem_zipIdx_iff_getElem?.1 h]
  rfl

theorem Web.client_signs : (Web.client C sign).Signs proposal (Web.multisigSignature C sign proposal) where
  sign := signInputs_signedBy proposal (Web.multisigSignature C sign proposal) "TypeError"
  merge signers others := congrArg Except.ok (foldl_assignSignatures proposal signers others)
  scriptSigOf signers p hp s hs := by
    have hne : ∀ sig ∈ s.collectedSigs (collectedBy (Web.multisigSignature C sign proposal) signers p),
        decide (sig ≠ []) = true := by
      intro sig hsig
      obtain ⟨pk, -, hpk⟩ := List.mem_filterMap.1 hsig
      unfold collectedBy at hpk
      split at hpk
      · obtain ⟨key, -, rfl⟩ := Option.map_eq_some_iff.1 hpk
        simp [Web.multisigSignature]
      · cases hpk
    refine (Web.scriptSigOf_eq hs (signatures_signedBy signers hp)).trans ?_
    rw [List.filter_eq_self.2 hne]
  finalize p scripts h := ⟨_, by
    show Web.finalizeMultisigTransaction p = _
    rw [Web.finalizeMultisigTransaction, show Web.finalScriptSigs p = _ from h, ok_bind]⟩

theorem Mobile.client_signs : (Mobile.client C sign).Signs proposal (Mobile.multisigSignature C sign proposal) where
  sign := signInputs_signedBy proposal (Mobile.multisigSignature C sign proposal) "RangeError"
  merge signers others := foldlM_assignSignatures proposal signers others
  scriptSigOf signers _ hp _ hs := Mobile.scriptSigOf_eq hs (signatures_signedBy signers hp)
  finalize p scripts h := ⟨_, by
    show Mobile.finalizeMultisigTransaction p = _
    rw [Mobile.finalizeMultisigTransaction, show Mobile.finalScriptSigs p = _ from h, ok_bind]⟩

end Clients

/-! ## New proposals -/

theorem MultisigScript.exists_of_create {m : Nat} {keys : List (List UInt8)} {redeemScript : List UInt8}
    (h : createMultisigRedeemScript m keys = .ok redeemScript) :
    ∃ s : MultisigScript, s.m = m ∧ s.keys = keys ∧ redeemScript = s.redeemScript := by
  have hcreate := h
  unfold createMultisigRedeemScript at h
  by_cases hm : m < 1 ∨ keys.length < m
  · rw [if_pos hm] at h
    cases h
  by_cases hcount : 16 < keys.length
  · rw [if_neg hm, if_pos hcount] at h
    cases h
  rw [if_neg hm, if_neg hcount] at h
  obtain ⟨opM, -, h⟩ := bind_eq_ok.1 h
  obtain ⟨parts, hparts, -⟩ := bind_eq_ok.1 h
  have hlength : ∀ pk ∈ keys, pk.length = 33 := by
    intro pk hpk
    obtain ⟨i, hi, rfl⟩ := List.mem_iff_getElem.1 hpk
    obtain ⟨hlen, hpushed⟩ := List.forall₂_iff_get.1 (mapM_eq_ok_iff.1 hparts)
    have hpush : pushPubkey keys[i] = .ok _ := hpushed i hi (hlen ▸ hi)
    unfold pushPubkey at hpush
    split at hpush
    · cases hpush
    · omega
  obtain ⟨pubkeys, rfl⟩ : ∃ pubkeys : List PublicKey, pubkeys.map Subtype.val = keys :=
    ⟨keys.pmap Subtype.mk hlength, by rw [List.map_pmap, List.pmap_eq_map, List.map_id']⟩
  rw [List.length_map] at hm hcount
  let s : MultisigScript := ⟨m, pubkeys, by omega, by omega, by omega⟩
  refine ⟨s, rfl, rfl, ?_⟩
  exact Except.ok.inj (hcreate.symm.trans s.createMultisigRedeemScript_eq)

/-- A new proposal to spend from redeem scripts that were made, each of its own number of its own keys. -/
structure FreshProposal where
  inputs : List MultisigInput
  outputs : List TxOutputSpec
  locktime : Nat
  m : MultisigInput → Nat
  listed : MultisigInput → List (List UInt8)
  built : ∀ inp ∈ inputs, createMultisigRedeemScript (m inp) (listed inp) = .ok inp.redeemScript

/-- Cosigners, each with one private key for a public key. -/
structure Cosigners where
  keys : List KeyPair
  unique : ∀ key ∈ keys, ∀ key' ∈ keys, key.2 = key'.2 → key = key'

def Cosigners.pubkeys (cosigners : Cosigners) : List (List UInt8) := cosigners.keys.map (·.2.1)

def Collecting.By (c : Collecting) (cosigners : Cosigners) : Prop := ∀ key, key ∈ c.signers ↔ key ∈ cosigners.keys

namespace FreshProposal

variable (P : FreshProposal) (cosigners : Cosigners)

/-- The proposal as it is created. -/
def proposal : MultisigProposal := createMultisigProposal P.inputs P.outputs P.locktime

/-- An input is spent with as many signatures as its script asks for, all of them for keys that it lists. -/
def SpentBy (inp : MultisigInput) (collected : Collected) (script : CScript) : Prop :=
  ∃ pks sigs : List (List UInt8), pks.Sublist (P.listed inp) ∧ pks.length = P.m inp ∧ pks.map collected = sigs.map some ∧
    script = multisigScriptSig sigs inp.redeemScript

/-- What cosigners expect: however they sign and merge, the same signatures are collected, those of the cosigners that an
input's redeem script lists; and if these are enough everywhere, the transaction is made of them. -/
def CollectsExactly (W : MultisigClient) : Prop :=
  ∃ signatures : List Collected,
    (∀ c : Collecting, c.By cosigners → c.run W P.proposal = .ok { P.proposal with signatures }) ∧
    List.Forall₂ (fun inp collected => ∀ pk, (∃ sig, collected pk = some sig) ↔ pk ∈ cosigners.pubkeys ∧
      pk ∈ P.listed inp)
      P.inputs signatures ∧
    ((∀ inp ∈ P.inputs, P.m inp ≤ ((P.listed inp).filter (· ∈ cosigners.pubkeys)).length) →
      ∃ scripts rawTx, W.finalScriptSigs { P.proposal with signatures } = .ok scripts ∧
        W.finalize { P.proposal with signatures } = .ok rawTx ∧
        List.Forall₂ (fun p script => P.SpentBy p.1 p.2 script) (P.inputs.zip signatures) scripts)

/-- The hex digits of a cosigner's key stand in a row among those of a redeem script only if the script lists the key. -/
def Unambiguous : Prop :=
  ∀ inp ∈ P.inputs, ∀ pk ∈ cosigners.pubkeys, hexDigits pk <:+: hexDigits inp.redeemScript → pk ∈ P.listed inp

variable {P cosigners} {sigOf : KeyPair → MultisigInput × Nat → List UInt8} {W : MultisigClient} {c : Collecting}

theorem proposal_eq_signedBy : P.proposal = P.proposal.signedBy sigOf [] := by
  have hnone : (fun _ _ => none : MultisigInput × Nat → Collected) = collectedBy sigOf [] := by
    funext p pk
    unfold collectedBy
    split <;> rfl
  have hsignatures : P.inputs.map (fun _ _ => none : MultisigInput → Collected) =
      P.inputs.zipIdx.map (collectedBy sigOf []) := by
    rw [← hnone, List.map_const', List.map_const', List.length_zipIdx]
  rw [MultisigProposal.signedBy]
  exact congrArg (MultisigProposal.mk 2 P.locktime P.inputs P.outputs) hsignatures

theorem exists_collecting (cosigners : Cosigners) : ∃ c : Collecting, c.By cosigners := by
  suffices h : ∀ keys, ∃ c : Collecting, c.signers = keys by
    obtain ⟨c, hc⟩ := h cosigners.keys
    exact ⟨c, fun key => by rw [hc]⟩
  intro keys
  induction keys with
  | nil => exact ⟨.fresh, rfl⟩
  | cons key keys ih =>
    obtain ⟨c, rfl⟩ := ih
    exact ⟨.signed c key, rfl⟩

theorem collectedBy_eq (hc : c.By cosigners) (p : MultisigInput × Nat) :
    collectedBy sigOf c.signers p = collectedBy sigOf cosigners.keys p := by
  have hfind : ∀ pk : List UInt8,
      c.signers.find? (fun key => key.2.1 = pk) = cosigners.keys.find? fun key => key.2.1 = pk := by
    intro pk
    cases hsigner : c.signers.find? (fun key => key.2.1 = pk) with
    | none =>
      rw [List.find?_eq_none] at hsigner
      exact (List.find?_eq_none.2 fun key hkey => hsigner key ((hc key).2 hkey)).symm
    | some key =>
      have hkey := (hc key).1 (List.mem_of_find?_eq_some hsigner)
      have hpk : key.2.1 = pk := by simpa using List.find?_some hsigner
      cases hcosigner : cosigners.keys.find? (fun key => key.2.1 = pk) with
      | none => exact absurd hpk (by simpa using List.find?_eq_none.1 hcosigner key hkey)
      | some key' =>
        have hpk' : key'.2.1 = pk := by simpa using List.find?_some hcosigner
        exact congrArg some (cosigners.unique key hkey key' (List.mem_of_find?_eq_some hcosigner)
          (Subtype.ext (hpk.trans hpk'.symm)))
  funext pk
  rw [collectedBy, collectedBy, hfind]

/-- **However the cosigners sign and merge, the same is collected.** -/
theorem run_eq (hW : W.Signs P.proposal sigOf) (hc : c.By cosigners) :
    c.run W P.proposal = .ok (P.proposal.signedBy sigOf cosigners.keys) := by
  rw [Collecting.run_eq hW proposal_eq_signedBy, MultisigProposal.signedBy, MultisigProposal.signedBy,
    funext (collectedBy_eq hc)]

theorem contains_of_listed {inp : MultisigInput} (hinp : inp ∈ P.inputs) {pk : List UInt8} (hpk : pk ∈ P.listed inp) :
    scriptContainsPubkey inp.redeemScript pk = true := by
  obtain ⟨s, -, hkeys, hscript⟩ := MultisigScript.exists_of_create (P.built inp hinp)
  rw [← hkeys] at hpk
  obtain ⟨pubkey, hpubkey, rfl⟩ := List.mem_map.1 hpk
  rw [hscript]
  exact scriptContainsPubkey_redeemScript hpubkey

theorem forall₂_inputs_iff {R : MultisigInput → Collected → Prop} :
    List.Forall₂ R P.inputs (P.proposal.signedBy sigOf cosigners.keys).signatures ↔
      ∀ p ∈ P.inputs.zipIdx, R p.1 (collectedBy sigOf cosigners.keys p) := by
  have hsignatures : (P.proposal.signedBy sigOf cosigners.keys).signatures =
    P.inputs.zipIdx.map (collectedBy sigOf cosigners.keys) := rfl
  have hinputs : P.inputs = P.inputs.zipIdx.map Prod.fst := (List.zipIdx_map_fst 0 P.inputs).symm
  rw [hsignatures]
  nth_rewrite 1 [hinputs]
  rw [List.forall₂_map_left_iff, List.forall₂_map_right_iff, List.forall₂_same]

/-- **When the collected signatures are those of the listed keys.** -/
theorem exact_iff : List.Forall₂ (fun inp collected => ∀ pk, (∃ sig, collected pk = some sig) ↔
      pk ∈ cosigners.pubkeys ∧ pk ∈ P.listed inp) P.inputs (P.proposal.signedBy sigOf cosigners.keys).signatures ↔
    P.Unambiguous cosigners := by
  rw [forall₂_inputs_iff]
  constructor
  · intro h inp hinp pk hpk hinfix
    obtain ⟨i, hi, rfl⟩ := List.mem_iff_getElem.1 hinp
    have hmem : (P.inputs[i], i) ∈ P.inputs.zipIdx := List.mem_zipIdx_iff_getElem?.2 (List.getElem?_eq_getElem hi)
    exact ((h _ hmem pk).1 (collectedBy_eq_some_iff.2 ⟨decide_eq_true hinfix, hpk⟩)).2
  · intro h p hp pk
    have hinp : p.1 ∈ P.inputs := List.fst_mem_of_mem_zipIdx hp
    rw [collectedBy_eq_some_iff]
    exact ⟨fun ⟨hcontains, hpk⟩ => ⟨hpk, h p.1 hinp pk hpk (of_decide_eq_true hcontains)⟩,
      fun ⟨hpk, hlisted⟩ => ⟨contains_of_listed hinp hlisted, hpk⟩⟩

theorem map_some_filterMap {α β : Type} (f : α → Option β) (l : List α) :
    (l.filterMap f).map some = (l.filter fun x => (f x).isSome).map f := by
  induction l with
  | nil => rfl
  | cons x l ih =>
    cases hx : f x with
    | none => simp [hx, ih]
    | some y => simp [hx, ih]

theorem scriptSigOf_spentBy (hW : W.Signs P.proposal sigOf) {p : MultisigInput × Nat} (hp : p ∈ P.inputs.zipIdx)
    (henough : P.m p.1 ≤ ((P.listed p.1).filter (· ∈ cosigners.pubkeys)).length) :
    ∃ script, W.scriptSigOf (P.proposal.signedBy sigOf cosigners.keys) p = .ok script ∧
      P.SpentBy p.1 (collectedBy sigOf cosigners.keys p) script := by
  have hinp : p.1 ∈ P.inputs := List.fst_mem_of_mem_zipIdx hp
  obtain ⟨s, hm, hkeys, hscript⟩ := MultisigScript.exists_of_create (P.built p.1 hinp)
  -- the listed keys with a signature are those of the cosigners
  have hsigned : (P.listed p.1).filter (fun pk => (collectedBy sigOf cosigners.keys p pk).isSome) =
      (P.listed p.1).filter (· ∈ cosigners.pubkeys) := by
    refine List.filter_congr fun pk hpk => ?_
    rw [Bool.eq_iff_iff, Option.isSome_iff_exists, collectedBy_eq_some_iff, decide_eq_true_iff,
      and_iff_right (contains_of_listed hinp hpk)]
    rfl
  have hsome := map_some_filterMap (collectedBy sigOf cosigners.keys p) (P.listed p.1)
  have hsigs : s.collectedSigs (collectedBy sigOf cosigners.keys p) =
      (P.listed p.1).filterMap (collectedBy sigOf cosigners.keys p) := by
    rw [MultisigScript.collectedSigs, hkeys]
  have hlen : ((P.listed p.1).filterMap (collectedBy sigOf cosigners.keys p)).length =
      ((P.listed p.1).filter (· ∈ cosigners.pubkeys)).length := by
    have := congrArg List.length hsome
    rwa [List.length_map, List.length_map, hsigned] at this
  refine ⟨_, (hW.scriptSigOf _ p hp s hscript).trans (if_neg (by rw [hsigs, hlen, hm]; omega)), ?_⟩
  refine ⟨((P.listed p.1).filter (· ∈ cosigners.pubkeys)).take (P.m p.1), _, ?_, List.length_take_of_le henough, ?_,
    by rw [hscript]⟩
  · exact (List.take_sublist _ _).trans List.filter_sublist
  · rw [hsigs, hm, List.map_take, List.map_take, hsome, hsigned]

/-- **Enough listed signers finalize.** -/
theorem finalizes (hW : W.Signs P.proposal sigOf)
    (henough : ∀ inp ∈ P.inputs, P.m inp ≤ ((P.listed inp).filter (· ∈ cosigners.pubkeys)).length) :
    ∃ scripts rawTx, W.finalScriptSigs (P.proposal.signedBy sigOf cosigners.keys) = .ok scripts ∧
      W.finalize (P.proposal.signedBy sigOf cosigners.keys) = .ok rawTx ∧
      List.Forall₂ (fun p script => P.SpentBy p.1 p.2 script)
        (P.inputs.zip (P.proposal.signedBy sigOf cosigners.keys).signatures) scripts := by
  have hspent : ∀ p ∈ P.inputs.zipIdx, ∃ script, W.scriptSigOf (P.proposal.signedBy sigOf cosigners.keys) p = .ok script ∧
      P.SpentBy p.1 (collectedBy sigOf cosigners.keys p) script :=
    fun p hp => scriptSigOf_spentBy hW hp (henough p.1 (List.fst_mem_of_mem_zipIdx hp))
  choose! script hscript hspent using hspent
  have hok : W.finalScriptSigs (P.proposal.signedBy sigOf cosigners.keys) = .ok (P.inputs.zipIdx.map script) :=
    mapM_eq_ok_map hscript
  obtain ⟨rawTx, hraw⟩ := hW.finalize _ _ hok
  refine ⟨_, rawTx, hok, hraw, ?_⟩
  have hzip : P.inputs.zip (P.proposal.signedBy sigOf cosigners.keys).signatures =
      P.inputs.zipIdx.map fun p => (p.1, collectedBy sigOf cosigners.keys p) :=
    calc P.inputs.zip (P.inputs.zipIdx.map (collectedBy sigOf cosigners.keys))
      _ = (P.inputs.zipIdx.map Prod.fst).zip (P.inputs.zipIdx.map (collectedBy sigOf cosigners.keys)) := by
        rw [List.zipIdx_map_fst]
      _ = P.inputs.zipIdx.map fun p => (p.1, collectedBy sigOf cosigners.keys p) := List.zip_map' ..
  rw [hzip, List.forall₂_map_left_iff, List.forall₂_map_right_iff, List.forall₂_same]
  exact hspent

theorem collectsExactly_iff (hW : W.Signs P.proposal sigOf) : P.CollectsExactly cosigners W ↔
    P.Unambiguous cosigners := by
  constructor
  · rintro ⟨signatures, hrun, hexact, -⟩
    obtain ⟨c, hc⟩ := exists_collecting cosigners
    have hsame := (hrun c hc).symm.trans (run_eq hW hc)
    have hsignatures : signatures = (P.proposal.signedBy sigOf cosigners.keys).signatures :=
      congrArg MultisigProposal.signatures (Except.ok.inj hsame)
    rw [hsignatures, exact_iff] at hexact
    exact hexact
  · intro h
    exact ⟨_, fun c hc => run_eq hW hc, exact_iff.2 h, fun henough => finalizes hW henough⟩

end FreshProposal

/-- **When cosigners collect what they expect**: exactly when the hex text of a redeem script contains the keys of those
cosigners only that it lists. -/
theorem collects_exactly_iff (C : Crypto) (sign : Uint256 → List UInt8 → ECSignature) (P : FreshProposal)
    (cosigners : Cosigners) :
    (P.CollectsExactly cosigners (Web.client C sign) ↔ P.Unambiguous cosigners) ∧
      (P.CollectsExactly cosigners (Mobile.client C sign) ↔ P.Unambiguous cosigners) :=
  ⟨FreshProposal.collectsExactly_iff (Web.client_signs C sign P.proposal),
    FreshProposal.collectsExactly_iff (Mobile.client_signs C sign P.proposal)⟩

def cosignerKey (n : Nat) : KeyPair := ([UInt8.ofNat n], ⟨2 :: List.replicate 32 (UInt8.ofNat n), rfl⟩)

def listedKeys : List (List UInt8) := [(cosignerKey 1).2.1, (cosignerKey 2).2.1, (cosignerKey 3).2.1]

/-- A proposal to spend an output of two of three. -/
def spendTwoOfThree : FreshProposal where
  inputs := [⟨5, 0, 1000000, 0x52 :: (listedKeys.map pushed).flatten ++ [0x53, 0xae]⟩]
  outputs := [⟨p2pkhScriptPubKey ⟨List.replicate 20 6, rfl⟩, 970000⟩]
  locktime := 0
  m _ := 2
  listed _ := listedKeys
  built := by decide +kernel

/-- Two of the three, and one who is not listed. -/
def threeCosigners : Cosigners where
  keys := [cosignerKey 1, cosignerKey 3, cosignerKey 4]
  unique := by decide +kernel

/-- One of them signs the copy of another, and both merge it with what the third has signed. -/
def signAndMerge : Collecting :=
  .merged (.signed (.signed .fresh (cosignerKey 3)) (cosignerKey 1)) [.signed .fresh (cosignerKey 4)]

theorem spendTwoOfThree_collects :
    signAndMerge.By threeCosigners ∧
    (∀ inp ∈ spendTwoOfThree.inputs,
      spendTwoOfThree.m inp ≤ ((spendTwoOfThree.listed inp).filter (· ∈ threeCosigners.pubkeys)).length) ∧
    spendTwoOfThree.CollectsExactly threeCosigners (Web.client .sample signOne) ∧
    spendTwoOfThree.CollectsExactly threeCosigners (Mobile.client .sample signOne) := by
  have hunambiguous : spendTwoOfThree.Unambiguous threeCosigners := by
    unfold FreshProposal.Unambiguous
    decide +kernel
  obtain ⟨hweb, hmobile⟩ := collects_exactly_iff .sample signOne spendTwoOfThree threeCosigners
  refine ⟨fun key => ?_, by decide +kernel, hweb.2 hunambiguous, hmobile.2 hunambiguous⟩
  show key ∈ [cosignerKey 4, cosignerKey 1, cosignerKey 3] ↔ key ∈ [cosignerKey 1, cosignerKey 3, cosignerKey 4]
  simp only [List.mem_cons, List.not_mem_nil, or_false]
  tauto

def strayKey : PublicKey :=
  ⟨[0x03, 0x2b, 0x22, 0xef, 0xda, 0x32, 0x49, 0x1a, 0x9e, 0x02, 0x94, 0x33, 0x9c, 0xa3, 0xda, 0x76, 0x1f, 0x7d, 0x36,
    0xcf, 0xc8, 0x81, 0x4c, 0x1b, 0x29, 0xca, 0x73, 0x19, 0x21, 0x02, 0x5f, 0xf6, 0x95], rfl⟩

/-- Two keys of which the first ends and the second begins as `strayKey` does around its byte 0x21, the length of a
key. -/
def splitKeys : List (List UInt8) :=
  [[0x02, 0, 0, 0, 0] ++ strayKey.1.take 28, strayKey.1.drop 29 ++ List.replicate 29 0]

def splitInput : MultisigInput :=
  ⟨7, 0, 1000000, 0x51 :: (splitKeys.map pushed).flatten ++ [0x52, 0xae]⟩

/-- **A signature of someone who is not listed**: the wallets find the key in the redeem script and record its
signature. -/
theorem strayKey_signs :
    createMultisigRedeemScript 1 splitKeys = .ok splitInput.redeemScript ∧ strayKey.1 ∉ splitKeys ∧
      ∀ C sign outputs locktime,
        (∃ p, (Web.client C sign).sign (createMultisigProposal [splitInput] outputs locktime) ([52], strayKey) = .ok p ∧
          ∀ collected ∈ p.signatures, (collected strayKey.1).isSome) ∧
        ∃ p, (Mobile.client C sign).sign (createMultisigProposal [splitInput] outputs locktime) ([52], strayKey) = .ok p ∧
          ∀ collected ∈ p.signatures, (collected strayKey.1).isSome := by
  have hcontains : scriptContainsPubkey splitInput.redeemScript strayKey.1 = true := by decide +kernel
  refine ⟨by decide +kernel, by decide +kernel, fun C sign outputs locktime =>
    ⟨⟨_, signInputs_eq _ rfl, ?_⟩, ⟨_, signInputs_eq _ rfl, ?_⟩⟩⟩
  · simp [createMultisigProposal, signedCollected, hcontains, Collected.add]
  · simp [createMultisigProposal, signedCollected, hcontains, Collected.add]

end CodexaCoin.Wallet
