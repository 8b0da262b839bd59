import CodexaCoin.Wallet.NodeAgreement
import CodexaCoin.Node.PreChecks
import CodexaCoin.Lib.Double

/-!
# Raising the fee of a sent transaction

`buildBumpFeeTransaction` of `web-wallet/crypto.js` and `cac_wallet/lib/crypto/transaction.dart`: the same inputs and
outputs again, with the fee increase taken from the change. The web wallet computes in doubles, the mobile wallet in
64-bit integers.
-/

namespace CodexaCoin.Wallet

open Check

/-! ## Records -/

structure SentTxInput where
  txid : Uint256
  vout : Nat
  valueSatoshis : Int
  derivationIndex : Nat := 0
deriving DecidableEq, Repr

structure SentTxOutput where
  scriptPubKey : List UInt8
  valueSatoshis : Int
  isChange : Bool := false
deriving DecidableEq, Repr

structure SentTxRecord where
  inputs : List SentTxInput
  outputs : List SentTxOutput
  feeSatoshis : Int
deriving DecidableEq, Repr

abbrev KeyPair := List UInt8 × PublicKey

def SentTxOutput.spec (o : SentTxOutput) : TxOutputSpec := ⟨o.scriptPubKey, o.valueSatoshis⟩

namespace SentTxRecord

variable (record : SentTxRecord)

def valueIn : Int := (record.inputs.map (·.valueSatoshis)).sum

def valueOut : Int := (record.outputs.map (·.valueSatoshis)).sum

def outpoints : List COutPoint := record.inputs.map fun input => ⟨input.txid, input.vout⟩

def change : Int := ((record.outputs.find? (·.isChange)).map (·.valueSatoshis)).getD 0

/-- The record of a sent transaction with a change output, in amounts that are numbers of the client. -/
structure Consistent (IsNumber : Int → Prop) : Prop where
  sums : record.valueIn = record.valueOut + record.feeSatoshis
  change : ∃ o ∈ record.outputs, o.isChange = true
  values : ∀ o ∈ record.outputs, 0 ≤ o.valueSatoshis ∧ o.valueSatoshis ≤ maxMoney ∧ IsNumber o.valueSatoshis
  fee_nonneg : 0 ≤ record.feeSatoshis
  fee_number : IsNumber record.feeSatoshis

end SentTxRecord

/-! ## The functions -/

/-- The outputs of the replacement, with the subtraction of the client. -/
def newOutputs (sub : Int → Int → Int) (record : SentTxRecord) (newFeeSatoshis : Int) :
    Except String (List SentTxOutput) :=
  match record.outputs.findIdx? (·.isChange) with
  | none => .error "This transaction has no change output to reduce -- can't bump its fee automatically here."
  | some changeIndex =>
    let feeIncrease := sub newFeeSatoshis record.feeSatoshis
    let newChangeValue := sub ((record.outputs[changeIndex]?.map (·.valueSatoshis)).getD 0) feeIncrease
    if newChangeValue ≤ 0 then .error "Not enough change left to cover a higher fee."
    else .ok (record.outputs.mapIdx fun i o => if i = changeIndex then { o with valueSatoshis := newChangeValue } else o)

def bumpUtxo (hash160 : PublicKey → Hash20) (p : SentTxInput × KeyPair) : Web.Utxo where
  txid := p.1.txid
  vout := p.1.vout
  valueSatoshis := p.1.valueSatoshis
  pubkeyHash := hash160 p.2.2
  privateKey := some p.2.1
  publicKeyCompressed := some p.2.2

/-- `buildBumpFeeTransaction` of both wallets, given the subtraction and the function that signs. -/
def buildBumpFeeWith (sub : Int → Int → Int) (sign : List Web.Utxo → List TxOutputSpec → Except String (List UInt8))
    (hash160 : PublicKey → Hash20) (record : SentTxRecord) (newFeeSatoshis : Int) (inputKeys : List KeyPair) :
    Except String (List UInt8 × List SentTxOutput) := do
  let outputs ← newOutputs sub record newFeeSatoshis
  if inputKeys.length < record.inputs.length then .error "undefined"
  else
    let inputs := (record.inputs.zip inputKeys).map (bumpUtxo hash160)
    let rawTx ← sign inputs (outputs.map (·.spec))
    .ok (rawTx, outputs)

def jsSub (a b : Int) : Int := Double.roundInt 53 (a - b)

def dartSub (a b : Int) : Int := wrap64 (a - b)

section Build

variable (C : Crypto) (sign : Uint256 → List UInt8 → ECSignature) (hash160 : PublicKey → Hash20)

def Web.buildBumpFeeTransaction : SentTxRecord → Int → List KeyPair → Except String (List UInt8 × List SentTxOutput) :=
  buildBumpFeeWith jsSub (fun inputs outputs => Web.buildAndSignTransaction C sign outputs none none 0 inputs) hash160

def Mobile.buildBumpFeeTransaction : SentTxRecord → Int → List KeyPair → Except String (List UInt8 × List SentTxOutput) :=
  buildBumpFeeWith dartSub (fun inputs outputs =>
    Mobile.buildAndSignTransaction C sign outputs none none 0 (inputs.map Web.Utxo.toMobile)) hash160

def replacement (record : SentTxRecord) (inputKeys : List KeyPair) (outputs : List SentTxOutput) : CTransaction :=
  let inputs := (record.inputs.zip inputKeys).map (bumpUtxo hash160)
  let specs := outputs.map (·.spec)
  Web.transactionOf (inputs.zipIdx.map (Web.signedIn C sign specs none none 0 inputs)) specs 0

end Build

/-! ## Outputs -/

section Outputs

variable {sub : Int → Int → Int} {record : SentTxRecord} {newFeeSatoshis : Int} {outputs : List SentTxOutput}

theorem findIdx?_isChange_eq_some {l : List SentTxOutput} {i : Nat} (h : l.findIdx? (·.isChange) = some i) :
    ∃ pre c post, l = pre ++ c :: post ∧ pre.length = i ∧ (∀ o ∈ pre, o.isChange = false) ∧ c.isChange = true := by
  obtain ⟨hi, hc, hpre⟩ := List.findIdx?_eq_some_iff_getElem.1 h
  refine ⟨l.take i, l[i], l.drop (i + 1), ?_, by rw [List.length_take]; omega, fun o ho => ?_, hc⟩
  · rw [← List.drop_eq_getElem_cons, List.take_append_drop]
  · obtain ⟨j, hj, rfl⟩ := List.mem_take_iff_getElem.1 ho
    exact Bool.eq_false_iff.2 (hpre j (by omega))

theorem find?_isChange {pre post : List SentTxOutput} {c : SentTxOutput} (hpre : ∀ o ∈ pre, o.isChange = false)
    (hc : c.isChange = true) : (pre ++ c :: post).find? (·.isChange) = some c := by
  have hnone : pre.find? (·.isChange) = none := List.find?_eq_none.2 fun o ho => by simp [hpre o ho]
  rw [List.find?_append, hnone, List.find?_cons_of_pos hc]
  rfl

theorem mapIdx_append_cons {α : Type} (pre : List α) (c : α) (post : List α) (f : α → α) :
    (pre ++ c :: post).mapIdx (fun i o => if i = pre.length then f o else o) = pre ++ f c :: post := by
  have hpre : pre.mapIdx (fun i o => if i = pre.length then f o else o) = pre := by
    refine List.ext_getElem (by simp) fun i hi _ => ?_
    rw [List.length_mapIdx] at hi
    rw [List.getElem_mapIdx, if_neg (by omega)]
  have hpost : post.mapIdx (fun i o => if i + 1 + pre.length = pre.length then f o else o) = post := by
    refine List.ext_getElem (by simp) fun i hi _ => ?_
    rw [List.getElem_mapIdx, if_neg (by omega)]
  rw [List.mapIdx_append, hpre, List.mapIdx_cons, hpost, Nat.zero_add, if_pos rfl]

/-- **What happens to the outputs**: the first one for change is replaced. -/
theorem newOutputs_eq_ok (h : newOutputs sub record newFeeSatoshis = .ok outputs) :
    ∃ pre c post, record.outputs = pre ++ c :: post ∧ (∀ o ∈ pre, o.isChange = false) ∧ c.isChange = true ∧
      record.change = c.valueSatoshis ∧ 0 < sub record.change (sub newFeeSatoshis record.feeSatoshis) ∧
      outputs = pre ++ { c with valueSatoshis := sub record.change (sub newFeeSatoshis record.feeSatoshis) } :: post := by
  unfold newOutputs at h
  cases hi : record.outputs.findIdx? (·.isChange) with
  | none => rw [hi] at h; cases h
  | some i =>
    rw [hi] at h
    obtain ⟨pre, c, post, hl, rfl, hpre, hc⟩ := findIdx?_isChange_eq_some hi
    have hchange : record.change = c.valueSatoshis := by
      rw [SentTxRecord.change, hl, find?_isChange hpre hc]
      rfl
    have hget : ((record.outputs[pre.length]?).map (·.valueSatoshis)).getD 0 = record.change := by
      rw [hchange, hl, List.getElem?_append_right (Nat.le_refl _), Nat.sub_self]
      rfl
    dsimp only at h
    rw [hget] at h
    split at h
    · cases h
    · rename_i hpos
      refine ⟨pre, c, post, hl, hpre, hc, hchange, by omega, ?_⟩
      rw [← Except.ok.inj h, hl]
      exact mapIdx_append_cons pre c post _

end Outputs

/-! ## Chains of bumps -/

/-- A bump: the record, what is asked for, the node that gets the replacement, and what was built. -/
structure BumpStep where
  record : SentTxRecord
  newFeeSatoshis : Int
  inputKeys : List KeyPair
  node : MempoolNode
  rawTx : List UInt8
  newOutputs : List SentTxOutput

/-- The record that `bumpFee` keeps of the replacement. -/
def BumpStep.next (step : BumpStep) : SentTxRecord := ⟨step.record.inputs, step.newOutputs, step.newFeeSatoshis⟩

/-- Successive bumps with increasing fees, none of them refused. -/
inductive Bumps (IsNumber : Int → Prop)
    (build : SentTxRecord → Int → List KeyPair → Except String (List UInt8 × List SentTxOutput)) :
    SentTxRecord → List BumpStep → Prop
  | done (record : SentTxRecord) : Bumps IsNumber build record []
  | bump {step : BumpStep} {steps : List BumpStep} (hfee : step.record.feeSatoshis < step.newFeeSatoshis)
      (hnumber : IsNumber step.newFeeSatoshis)
      (hbuild : build step.record step.newFeeSatoshis step.inputKeys = .ok (step.rawTx, step.newOutputs))
      (rest : Bumps IsNumber build step.next steps) : Bumps IsNumber build step.record (step :: steps)

/-- What a replacement should be, given the transaction that was built. The node gets it with any memory pool: that the
original is in the pool is not asked, so a pool with another spender of its outpoints counts as well. -/
structure Replaces (IsNumber : Int → Prop) (tx : CTransaction) (step : BumpStep) : Prop where
  rawTx : step.rawTx = tx.serialize true
  outpoints : tx.vin.map (·.prevout) = step.record.outpoints
  outputs : tx.vout = step.newOutputs.map fun o => ⟨o.valueSatoshis, o.scriptPubKey⟩
  others : List.Forall₂ (fun o o' => o'.scriptPubKey = o.scriptPubKey ∧ o'.isChange = o.isChange ∧
    (o.isChange = false → o' = o))
    step.record.outputs step.newOutputs
  change : 0 < step.next.change
  fee : step.record.valueIn - tx.valueOut = step.newFeeSatoshis
  next : step.next.Consistent IsNumber
  admitted : step.node.OtherwiseValid tx → step.node.preChecks tx ≠ .error MempoolNode.conflict

/-- No transaction in the pool of the node spends an outpoint of the record, if nothing else is wrong with the
replacement. -/
def NoSpender (tx : CTransaction) (step : BumpStep) : Prop :=
  step.node.OtherwiseValid tx → ∀ other ∈ step.node.pool, ∀ o ∈ step.record.outpoints, o ∉ other.vin.map (·.prevout)

section Steps

variable {C : Crypto} {sign : Uint256 → List UInt8 → ECSignature} {hash160 : PublicKey → Hash20}
  {IsNumber : Int → Prop} {sub : Int → Int → Int} {step : BumpStep}
  {signed : List Web.Utxo → List TxOutputSpec → Except String (List UInt8)} {rawTx : List UInt8}

abbrev BumpStep.tx (C : Crypto) (sign : Uint256 → List UInt8 → ECSignature) (hash160 : PublicKey → Hash20)
    (step : BumpStep) : CTransaction := replacement C sign hash160 step.record step.inputKeys step.newOutputs

theorem web_signed (inputs : List Web.Utxo) {outputs : List TxOutputSpec}
    (hkeys : ∀ u ∈ inputs, (Web.inputKeys none none u).isSome)
    (h : Web.buildAndSignTransaction C sign outputs none none 0 inputs = .ok rawTx) :
    rawTx = (Web.transactionOf (inputs.zipIdx.map (Web.signedIn C sign outputs none none 0 inputs)) outputs 0).serialize
      true := by
  have hne : inputs ≠ [] := by
    rintro rfl
    cases h
  rw [Web.buildAndSignTransaction_eq hne hkeys] at h
  rw [← Except.ok.inj h, Web.serializeTx_eq]

theorem mobile_signed (inputs : List Web.Utxo) {outputs : List TxOutputSpec}
    (hkeys : ∀ u ∈ inputs, (Web.inputKeys none none u).isSome)
    (h : Mobile.buildAndSignTransaction C sign outputs none none 0 (inputs.map Web.Utxo.toMobile) = .ok rawTx) :
    rawTx = (Web.transactionOf (inputs.zipIdx.map
      (Web.signedIn C (fun digest key => Mobile.lowS (sign digest key)) outputs
      none none 0 inputs)) outputs 0).serialize true := by
  have hne : inputs ≠ [] := by
    rintro rfl
    cases h
  rw [Mobile.buildAndSignTransaction_eq (fun _ _ => rfl) hne hkeys] at h
  rw [← Except.ok.inj h, Web.serializeTx_eq]

theorem inputKeys_bumpUtxo (l : List (SentTxInput × KeyPair)) :
    ∀ u ∈ l.map (bumpUtxo hash160), (Web.inputKeys none none u).isSome := by
  intro u hu
  obtain ⟨p, -, rfl⟩ := List.mem_map.1 hu
  rfl

theorem outpoints_replacement {record : SentTxRecord} {inputKeys : List KeyPair} (outputs : List SentTxOutput)
    (h : record.inputs.length ≤ inputKeys.length) :
    (replacement C sign hash160 record inputKeys outputs).vin.map (·.prevout) = record.outpoints := by
  rw [replacement, Web.transactionOf, SentTxRecord.outpoints]
  refine List.ext_getElem ?_ fun i _ _ => ?_
  · simp only [List.length_map, List.length_zipIdx, List.length_zip]
    omega
  · simp [Web.signedIn, Web.unsigned, bumpUtxo]

theorem vout_replacement (record : SentTxRecord) (inputKeys : List KeyPair) (outputs : List SentTxOutput) :
    (replacement C sign hash160 record inputKeys outputs).vout =
      outputs.map fun o => ⟨o.valueSatoshis, o.scriptPubKey⟩ := by
  show (outputs.map (·.spec)).map (fun out => (⟨out.valueSatoshis, out.scriptPubKey⟩ : CTxOut)) = _
  rw [List.map_map]
  rfl

theorem valueOut_replacement (record : SentTxRecord) (inputKeys : List KeyPair) (outputs : List SentTxOutput) :
    (replacement C sign hash160 record inputKeys outputs).valueOut = (outputs.map (·.valueSatoshis)).sum := by
  rw [CTransaction.valueOut, vout_replacement, List.map_map]
  rfl

theorem buildBumpFeeWith_eq_ok
    (h : buildBumpFeeWith sub signed hash160 step.record step.newFeeSatoshis step.inputKeys =
      .ok (step.rawTx, step.newOutputs)) :
    newOutputs sub step.record step.newFeeSatoshis = .ok step.newOutputs ∧
      step.record.inputs.length ≤ step.inputKeys.length ∧
      signed ((step.record.inputs.zip step.inputKeys).map (bumpUtxo hash160))
        (step.newOutputs.map (·.spec)) = .ok step.rawTx := by
  obtain ⟨outputs, houtputs, h⟩ := bind_eq_ok.1 h
  split at h
  · cases h
  · obtain ⟨rawTx, hraw, h⟩ := bind_eq_ok.1 h
    cases h
    exact ⟨houtputs, by omega, hraw⟩

/-- **When a step is what it should be**: its subtractions are exact, and the node knows no other spender. -/
theorem replaces_iff {Exact : Prop} (hcons : step.record.Consistent IsNumber)
    (hfee : step.record.feeSatoshis < step.newFeeSatoshis) (hnumber : IsNumber step.newFeeSatoshis)
    (hbuild : buildBumpFeeWith sub signed hash160 step.record step.newFeeSatoshis step.inputKeys =
      .ok (step.rawTx, step.newOutputs))
    (hsigned : ∀ (l : List (SentTxInput × KeyPair)) outputs rawTx, signed (l.map (bumpUtxo hash160)) outputs = .ok rawTx →
      rawTx = (Web.transactionOf ((l.map (bumpUtxo hash160)).zipIdx.map
        (Web.signedIn C sign outputs none none 0 (l.map (bumpUtxo hash160)))) outputs 0).serialize true)
    (hsub : 0 < sub step.record.change (sub step.newFeeSatoshis step.record.feeSatoshis) →
      (sub step.record.change (sub step.newFeeSatoshis step.record.feeSatoshis) =
        step.record.change - (step.newFeeSatoshis - step.record.feeSatoshis) ↔ Exact))
    (hexact : Exact → IsNumber (step.record.change - (step.newFeeSatoshis - step.record.feeSatoshis))) :
    Replaces IsNumber (step.tx C sign hash160) step ↔ Exact ∧ NoSpender (step.tx C sign hash160) step := by
  obtain ⟨houtputs, hkeys, hraw⟩ := buildBumpFeeWith_eq_ok hbuild
  obtain ⟨pre, c, post, hl, hpre, hc, hchange, hpos, hnew⟩ := newOutputs_eq_ok houtputs
  have houtpoints : (step.tx C sign hash160).vin.map (·.prevout) = step.record.outpoints := outpoints_replacement _ hkeys
  have hvalue : (step.tx C sign hash160).valueOut = step.record.valueOut - step.record.change +
      sub step.record.change (sub step.newFeeSatoshis step.record.feeSatoshis) := by
    rw [valueOut_replacement, hnew, SentTxRecord.valueOut, hl, hchange]
    simp only [List.map_append, List.map_cons, List.sum_append, List.sum_cons]
    omega
  have hnext : step.next.change = sub step.record.change (sub step.newFeeSatoshis step.record.feeSatoshis) := by
    rw [SentTxRecord.change, BumpStep.next, hnew, find?_isChange hpre (by exact hc)]
    rfl
  have hspender : (∀ other ∈ step.node.pool, ∀ txin ∈ (step.tx C sign hash160).vin,
    txin.prevout ∉ other.vin.map (·.prevout)) ↔
      ∀ other ∈ step.node.pool, ∀ o ∈ step.record.outpoints, o ∉ other.vin.map (·.prevout) := by
    rw [← houtpoints]
    simp only [List.forall_mem_map]
  have hsums := hcons.sums
  constructor
  · intro h
    refine ⟨(hsub hpos).1 ?_, fun hvalid => ?_⟩
    · have := h.fee
      rw [hvalue] at this
      omega
    · have := h.admitted hvalid
      rwa [ne_eq, MempoolNode.preChecks_eq_conflict_iff hvalid, not_not, hspender] at this
  · rintro ⟨hex, hfree⟩
    have heq := (hsub hpos).2 hex
    have hc0 := hcons.values c (by rw [hl]; exact List.mem_append_right _ List.mem_cons_self)
    refine ⟨hsigned _ _ _ hraw, houtpoints, vout_replacement _ _ _, ?_, hnext ▸ hpos, ?_, ⟨?_, ?_, ?_, ?_, hnumber⟩, ?_⟩
    · rw [hl, hnew]
      refine List.rel_append (List.forall₂_same.2 fun o _ => ⟨rfl, rfl, fun _ => rfl⟩) (.cons ⟨rfl, rfl, fun h => ?_⟩ ?_)
      · rw [hc] at h
        cases h
      · exact List.forall₂_same.2 fun o _ => ⟨rfl, rfl, fun _ => rfl⟩
    · rw [hvalue]
      omega
    · have hsum : step.next.valueOut = (step.tx C sign hash160).valueOut := (valueOut_replacement _ _ _).symm
      show step.record.valueIn = step.next.valueOut + step.newFeeSatoshis
      rw [hsum, hvalue]
      omega
    · have hmem : { c with valueSatoshis := sub step.record.change (sub step.newFeeSatoshis step.record.feeSatoshis) } ∈
          step.newOutputs := hnew ▸ List.mem_append_right _ List.mem_cons_self
      exact ⟨_, hmem, hc⟩
    · intro o ho
      have ho : o ∈ step.newOutputs := ho
      rw [hnew] at ho
      rcases List.mem_append.1 ho with ho | ho
      · exact hcons.values o (hl ▸ List.mem_append_left _ ho)
      · rcases List.mem_cons.1 ho with rfl | ho
        · refine ⟨hpos.le, ?_, ?_⟩
          · show sub _ _ ≤ _
            rw [heq, hchange]
            omega
          · show IsNumber (sub _ _)
            rw [heq]
            exact hexact hex
        · exact hcons.values o (hl ▸ List.mem_append_right _ (List.mem_cons_of_mem _ ho))
    · have := hcons.fee_nonneg
      show 0 ≤ step.newFeeSatoshis
      omega
    · intro hvalid
      rw [ne_eq, MempoolNode.preChecks_eq_conflict_iff hvalid, not_not, hspender]
      exact hfree hvalid

end Steps

theorem Bumps.forall_iff {IsNumber : Int → Prop}
    {build : SentTxRecord → Int → List KeyPair → Except String (List UInt8 × List SentTxOutput)}
    {tx : BumpStep → CTransaction} {Condition : BumpStep → Prop}
    (hstep : ∀ step : BumpStep, step.record.Consistent IsNumber → step.record.feeSatoshis < step.newFeeSatoshis →
      IsNumber step.newFeeSatoshis →
      build step.record step.newFeeSatoshis step.inputKeys = .ok (step.rawTx, step.newOutputs) →
      (Replaces IsNumber (tx step) step ↔ Condition step))
    {record : SentTxRecord} {steps : List BumpStep} (hcons : record.Consistent IsNumber)
    (h : Bumps IsNumber build record steps) :
    (∀ step ∈ steps, Replaces IsNumber (tx step) step) ↔ ∀ step ∈ steps, Condition step := by
  induction h with
  | done record => simp
  | @bump step steps hfee hnumber hbuild rest ih =>
    have hhead := hstep step hcons hfee hnumber hbuild
    rw [List.forall_mem_cons, List.forall_mem_cons]
    constructor
    · rintro ⟨hfirst, hrest⟩
      exact ⟨hhead.1 hfirst, (ih hfirst.next).1 hrest⟩
    · rintro ⟨hfirst, hrest⟩
      exact ⟨hhead.2 hfirst, (ih (hhead.2 hfirst).next).2 hrest⟩

/-! ## Numbers of the clients -/

/-- An integer that is a double. -/
def IsDouble (n : Int) : Prop := Double.roundInt 53 n = n

instance : DecidablePred IsDouble := fun n => inferInstanceAs (Decidable (_ = n))

/-- A 64-bit integer. -/
def IsInt64 (n : Int) : Prop := -2 ^ 63 ≤ n ∧ n < 2 ^ 63

/-- Both subtractions of a bump in the web wallet have results that are doubles. -/
def ExactInDoubles (step : BumpStep) : Prop :=
  IsDouble (step.newFeeSatoshis - step.record.feeSatoshis) ∧
    IsDouble (step.record.change - (step.newFeeSatoshis - step.record.feeSatoshis))

theorem jsSub_jsSub_iff {change fee newFee : Int} (hchange : IsDouble change) (hfee : fee < newFee)
    (hpos : 0 < jsSub change (jsSub newFee fee)) :
    jsSub change (jsSub newFee fee) = change - (newFee - fee) ↔
      IsDouble (newFee - fee) ∧ IsDouble (change - (newFee - fee)) := by
  by_cases hlt : newFee - fee < change
  · exact Double.roundInt_sub_roundInt_iff (by decide) hchange (by omega) hlt
  · refine iff_of_false (by omega) fun ⟨hd, ht⟩ => ?_
    unfold IsDouble at hd ht
    rw [jsSub, jsSub, hd, ht] at hpos
    omega

/-- One satoshi less than a change of `2 ^ 53 + 2` is two satoshis less. -/
example : jsSub (2 ^ 53 + 2) (jsSub 11 10) = 2 ^ 53 := by decide +kernel

theorem dartSub_dartSub {change fee newFee : Int} (hchange : 0 ≤ change ∧ change ≤ maxMoney) (hfee0 : 0 ≤ fee)
    (hfee : fee < newFee) (hnewFee : IsInt64 newFee) :
    dartSub change (dartSub newFee fee) = change - (newFee - fee) := by
  have hmax : maxMoney = 2 ^ 63 - 1 := rfl
  unfold IsInt64 at hnewFee
  have hincrease : wrap64 (newFee - fee) = newFee - fee := wrap64_eq (by omega) (by omega)
  rw [dartSub, dartSub, hincrease, wrap64_eq (by omega) (by omega)]

theorem SentTxRecord.Consistent.change_value {IsNumber : Int → Prop} {record : SentTxRecord}
    (h : record.Consistent IsNumber) : 0 ≤ record.change ∧ record.change ≤ maxMoney ∧ IsNumber record.change := by
  obtain ⟨o, ho, hchange⟩ := h.change
  cases hfind : record.outputs.find? (·.isChange) with
  | none => exact absurd hchange (List.find?_eq_none.1 hfind o ho)
  | some c =>
    have hvalue : record.change = c.valueSatoshis := by rw [SentTxRecord.change, hfind]; rfl
    rw [hvalue]
    exact h.values c (List.mem_of_find?_eq_some hfind)

/-! ## Replacement -/

/-- A chain of bumps of the record of a sent transaction. -/
structure BumpRun (IsNumber : Int → Prop)
    (build : SentTxRecord → Int → List KeyPair → Except String (List UInt8 × List SentTxOutput)) where
  record : SentTxRecord
  consistent : record.Consistent IsNumber
  steps : List BumpStep
  bumps : Bumps IsNumber build record steps

section Replacement

variable (C : Crypto) (sign : Uint256 → List UInt8 → ECSignature) (hash160 : PublicKey → Hash20)

theorem web_forall_replaces_iff (run : BumpRun IsDouble (Web.buildBumpFeeTransaction C sign hash160)) :
    (∀ step ∈ run.steps, Replaces IsDouble (step.tx C sign hash160) step) ↔
      ∀ step ∈ run.steps, ExactInDoubles step ∧ NoSpender (step.tx C sign hash160) step := by
  refine Bumps.forall_iff (fun step hcons hfee hnumber hbuild => ?_) run.consistent run.bumps
  refine replaces_iff hcons hfee hnumber hbuild (fun l outputs rawTx h => ?_) (fun hpos => ?_) fun h => h.2
  · exact web_signed _ (inputKeys_bumpUtxo l) h
  · exact jsSub_jsSub_iff hcons.change_value.2.2 hfee hpos

theorem mobile_forall_replaces_iff (run : BumpRun IsInt64 (Mobile.buildBumpFeeTransaction C sign hash160)) :
    (∀ step ∈ run.steps, Replaces IsInt64 (step.tx C (fun digest key => Mobile.lowS (sign digest key)) hash160) step) ↔
      ∀ step ∈ run.steps, NoSpender (step.tx C (fun digest key => Mobile.lowS (sign digest key)) hash160) step := by
  refine Bumps.forall_iff (fun step hcons hfee hnumber hbuild => ?_) run.consistent run.bumps
  have hchange := hcons.change_value
  have hsub := dartSub_dartSub ⟨hchange.1, hchange.2.1⟩ hcons.fee_nonneg hfee hnumber
  refine (replaces_iff hcons hfee hnumber hbuild (fun l outputs rawTx h => ?_) (fun _ => iff_of_true hsub trivial)
    fun _ => ?_).trans (by rw [true_and])
  · exact mobile_signed _ (inputKeys_bumpUtxo l) h
  · rw [← hsub]
    exact wrap64_range _

theorem bumps_replace_iff :
    (∀ run : BumpRun IsDouble (Web.buildBumpFeeTransaction C sign hash160),
      (∀ step ∈ run.steps, Replaces IsDouble (step.tx C sign hash160) step) ↔
        ∀ step ∈ run.steps, ExactInDoubles step ∧ NoSpender (step.tx C sign hash160) step) ∧
    (∀ run : BumpRun IsInt64 (Mobile.buildBumpFeeTransaction C sign hash160),
      (∀ step ∈ run.steps, Replaces IsInt64 (step.tx C (fun digest key => Mobile.lowS (sign digest key)) hash160) step) ↔
        ∀ step ∈ run.steps, NoSpender (step.tx C (fun digest key => Mobile.lowS (sign digest key)) hash160) step) :=
  ⟨web_forall_replaces_iff C sign hash160, mobile_forall_replaces_iff C sign hash160⟩

end Replacement

def bumpKeys : List KeyPair := [([7], ⟨2 :: List.replicate 32 0, rfl⟩)]

def bumpOutputs (change : Int) : List SentTxOutput :=
  [⟨p2pkhScriptPubKey ⟨List.replicate 20 1, rfl⟩, 900000, false⟩,
    ⟨p2pkhScriptPubKey ⟨List.replicate 20 2, rfl⟩, change, true⟩]

def bumpRecord : SentTxRecord where
  inputs := [⟨5, 0, 1000000, 0⟩]
  outputs := bumpOutputs 70000
  feeSatoshis := 30000

abbrev zeroHash160 (_ : PublicKey) : Hash20 := ⟨List.replicate 20 0, rfl⟩

def bumpTx (change : Int) : CTransaction :=
  replacement .sample signOne zeroHash160 bumpRecord bumpKeys (bumpOutputs change)

def bumpNode (pool : List CTransaction) : MempoolNode where
  env := .sample .main 2000000000
  chain := [⟨0, 7, 1999999000, 0, false, 0⟩]
  coins := Finmap.singleton ⟨5, 0⟩
    ⟨⟨1000000, p2pkhScriptPubKey ⟨List.replicate 20 0, rfl⟩⟩, false, false, 0, 1, by decide⟩
  cached _ := false
  pool := pool
  policy := {}

/-- A bump of the sample that leaves an amount of change, sent to a node that has dropped the original. -/
def bumpTo (record : SentTxRecord) (newFeeSatoshis change : Int) : BumpStep :=
  ⟨record, newFeeSatoshis, bumpKeys, bumpNode [], (bumpTx change).serialize true, bumpOutputs change⟩

def firstBump : BumpStep := bumpTo bumpRecord 45000 55000

def secondBump : BumpStep := bumpTo firstBump.next 60000 40000

/-- Two bumps, the second of the record of the first. -/
def bumpedTwice : BumpRun IsDouble (Web.buildBumpFeeTransaction .sample signOne zeroHash160) where
  record := bumpRecord
  consistent := ⟨by decide +kernel, by decide +kernel, by decide +kernel, by decide +kernel, by decide +kernel⟩
  steps := [firstBump, secondBump]
  bumps := @Bumps.bump _ _ firstBump _ (by decide +kernel) (by decide +kernel) (by decide +kernel)
    (@Bumps.bump _ _ secondBump _ (by decide +kernel) (by decide +kernel) (by decide +kernel) (.done _))

theorem bumpedTwice_replaces : bumpedTwice.steps.length = 2 ∧
    ∀ step ∈ bumpedTwice.steps, Replaces IsDouble (step.tx .sample signOne zeroHash160) step := by
  refine ⟨rfl, ((bumps_replace_iff .sample signOne zeroHash160).1 bumpedTwice).2 fun step hstep => ?_⟩
  have hall : ∀ step ∈ bumpedTwice.steps, step.node.pool = [] ∧ ExactInDoubles step := by
    unfold ExactInDoubles
    decide +kernel
  obtain ⟨hpool, hexact⟩ := hall step hstep
  refine ⟨hexact, fun _ other hother => ?_⟩
  rw [hpool] at hother
  cases hother

/-- **The replacement is refused as a conflict with the original**, though the node would take it without the original. -/
theorem replacement_refused_as_conflict :
    Web.buildBumpFeeTransaction .sample signOne zeroHash160 bumpRecord 45000 bumpKeys =
      .ok ((bumpTx 55000).serialize true, bumpOutputs 55000) ∧
    (bumpNode []).preChecks (bumpTx 70000) = .ok 30000 ∧
    (bumpNode []).preChecks (bumpTx 55000) = .ok 45000 ∧
    (bumpNode [bumpTx 70000]).OtherwiseValid (bumpTx 55000) ∧
    (bumpNode [bumpTx 70000]).preChecks (bumpTx 55000) = .error MempoolNode.conflict :=
  ⟨by decide +kernel, by decide +kernel, by decide +kernel, ⟨by decide +kernel, 45000, by decide +kernel⟩,
    by decide +kernel⟩

end CodexaCoin.Wallet
