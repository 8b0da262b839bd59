import CodexaCoin.Wallet.BumpFee
import CodexaCoin.Wallet.Send

/-!
# What a send pays and records

The send handlers of `Send.lean` for any amounts and any rate, up to the record in the log of sent transactions: the
handler of `btn-send-confirm` of `web-wallet/app.js`, and `_send` with `sendTransaction` of the mobile wallet. They are
compared with the exact plan: the shortest list of first unspent outputs that covers the amounts and the fee for it.
-/

namespace CodexaCoin.Wallet

open Check

/-! ## The handlers -/

namespace SendArgs

variable (args : SendArgs)

/-- The record of a prepared send. -/
def record (A : Arithmetic) (prepared : SendPlan) : SentTxRecord where
  inputs := prepared.chosen.map fun u => ⟨u.txid, u.vout, A.number u.valueSatoshis, args.derivationIndex u⟩
  outputs := prepared.dest.map (fun o => ⟨o.scriptPubKey, o.valueSatoshis, false⟩) ++
    if 0 < prepared.change then [⟨args.changeScript, A.number prepared.change, true⟩] else []
  feeSatoshis := A.number prepared.feeSatoshis

theorem specs_record (A : Arithmetic) (prepared : SendPlan) :
    (args.record A prepared).outputs.map (·.spec) = args.outputs A prepared := by
  have hdest : (prepared.dest.map fun o => (⟨o.scriptPubKey, o.valueSatoshis, false⟩ : SentTxOutput)).map (·.spec) =
      prepared.dest := by
    rw [List.map_map]
    exact List.map_id prepared.dest
  rw [record, List.map_append, hdest, outputs, withChange]
  split
  · rfl
  · exact List.append_nil prepared.dest

end SendArgs

section Handlers

variable (C : Crypto) (sign : Uint256 → List UInt8 → ECSignature) (sha256 : Sha256) (args : SendArgs)

/-- The handler of `btn-send-confirm`: the transaction and its record. -/
def Web.confirmSend : Except String (List UInt8 × SentTxRecord) := do
  let prepared ← Web.prepareSend sha256 args
  let rawTx ← Web.signPlan C sign args prepared
  .ok (rawTx, args.record Web.arithmetic prepared)

/-- `_send` and `sendTransaction` of the mobile wallet: the transaction and its record. -/
def Mobile.confirmSend : Except String (List UInt8 × SentTxRecord) := do
  let prepared ← Mobile.prepareSend sha256 args
  let rawTx ← Mobile.signPlan C sign args prepared
  .ok (rawTx, args.record Mobile.arithmetic prepared)

end Handlers

/-! ## Requests -/

/-- A send of positive amounts, at any rate, to addresses that both wallets read, from unspent outputs of at most
`MAX_MONEY` whose keys the wallet has. -/
structure SendRequest (sha256 : Sha256) extends SendArgs where
  addressOf : SendRecipient → DecodedAddress
  recipients_ne : recipients ≠ []
  amounts : ∀ r ∈ recipients, 0 < r.amountSatoshis ∧ r.amountSatoshis ≤ maxMoney
  values : ∀ u ∈ allUtxos, 0 ≤ u.valueSatoshis ∧ u.valueSatoshis ≤ maxMoney
  rate_nonneg : 0 ≤ feeRate
  keys : ∀ u ∈ allUtxos, (Web.inputKeys none none u).isSome
  web_reads : ∀ r ∈ recipients, Web.decodeAddress sha256 r.address network = .ok (addressOf r)
  mobile_reads : ∀ r ∈ recipients, Mobile.decodeAddress sha256 r.address network = .ok (addressOf r)

namespace SendRequest

variable {sha256 : Sha256} (req : SendRequest sha256)

/-- The outputs for the recipients. -/
def destOutputs (number : Int → Int) : List TxOutputSpec :=
  req.recipients.map fun r => ⟨scriptPubKeyFor (req.addressOf r), number r.amountSatoshis⟩

/-- The outpoints of the first `k` unspent outputs. -/
def outpoints (k : Nat) : List COutPoint := (req.allUtxos.take k).map fun u => ⟨u.txid, u.vout⟩

/-- A transaction and its record follow the plan: they spend the fewest first outputs that cover everything, every
recipient gets the amount, and the outputs as they are serialized and the recorded fee are together what is spent. -/
structure Follows (rawTx : List UInt8) (record : SentTxRecord) (k : Nat) : Prop where
  shortest : req.plan.Shortest k
  inputs : record.outpoints = req.outpoints k
  serialized : ∃ tx : CTransaction, rawTx = tx.serialize true ∧ tx.vin.map (·.prevout) = record.outpoints ∧
    tx.vout = record.outputs.map fun o => ⟨o.valueSatoshis, o.scriptPubKey⟩
  range : ∀ o ∈ record.outputs, moneyRange o.valueSatoshis = true
  paid : (record.outputs.map (·.spec)).take req.recipients.length = req.destOutputs id
  conserved : record.valueOut + record.feeSatoshis = req.plan.total k

/-- A handler succeeds when some of the first unspent outputs cover everything, and then follows the plan. -/
structure Conserves (result : Except String (List UInt8 × SentTxRecord)) : Prop where
  succeeds : (∃ sent, result = .ok sent) ↔ ∃ k ≤ req.allUtxos.length, req.plan.Covers k
  follows : ∀ rawTx record, result = .ok (rawTx, record) → ∃ k, req.Follows rawTx record k

/-! ## What the wallets build -/

/-- What is prepared with `k` inputs. -/
def preparedIn (A : Arithmetic) (k : Nat) : SendPlan := req.planFor (req.destOutputs A.number) k

/-- The record for `k` inputs. -/
def recordIn (A : Arithmetic) (k : Nat) : SentTxRecord := req.record A (req.preparedIn A k)

/-- The transaction with `k` inputs. -/
def txIn (C : Crypto) (sign : Uint256 → List UInt8 → ECSignature) (A : Arithmetic) (k : Nat) : CTransaction :=
  signedTx C sign (req.allUtxos.take k) (req.outputs A (req.preparedIn A k))

variable {req} {A : Arithmetic} {C : Crypto} {sign : Uint256 → List UInt8 → ECSignature} {k : Nat}

theorem sane : req.plan.Sane := by
  have hne : req.recipients.map (·.amountSatoshis) ≠ [] := by simpa using req.recipients_ne
  have hamount : 0 < req.plan.amount := List.sum_pos _ (List.forall_mem_map.2 fun r hr => (req.amounts r hr).1) hne
  have hmul : 0 ≤ req.feeRate * req.plan.size 0 := Int.mul_nonneg req.rate_nonneg (Int.natCast_nonneg _)
  refine ⟨List.forall_mem_map.2 fun u hu => (req.values u hu).1, hamount.le, req.rate_nonneg, ?_⟩
  show 0 < req.plan.amount + (req.feeRate * req.plan.size 0 + 999) / 1000
  omega

theorem dest_eq {decode : Text → Network → Except String DecodedAddress}
    (hreads : ∀ r ∈ req.recipients, decode r.address req.network = .ok (req.addressOf r)) :
    req.dest A decode = .ok (req.destOutputs A.number) := by
  refine mapM_eq_ok_map fun r hr => ?_
  rw [destOutput, hreads r hr]
  rfl

theorem planned_iff {decode : Text → Network → Except String DecodedAddress}
    (hreads : ∀ r ∈ req.recipients, decode r.address req.network = .ok (req.addressOf r)) {prepared : SendPlan} :
    req.Planned A decode prepared ↔ ∃ k, req.plan.Shortest k ∧ prepared = req.preparedIn A k := by
  rw [SendArgs.Planned, dest_eq hreads]
  constructor
  · rintro ⟨dest, k, hdest, hk, rfl⟩
    cases hdest
    exact ⟨k, hk, rfl⟩
  · rintro ⟨k, hk, rfl⟩
    exact ⟨_, k, rfl, hk, rfl⟩

theorem keys_take (k : Nat) : ∀ u ∈ req.allUtxos.take k, (Web.inputKeys none none u).isSome :=
  fun u hu => req.keys u (List.mem_of_mem_take hu)

theorem take_ne_nil (hk : req.plan.Shortest k) : req.allUtxos.take k ≠ [] :=
  hk.take_ne_nil (show req.allUtxos.map (·.valueSatoshis) = _ from rfl) sane

theorem web_signPlan (hk : req.plan.Shortest k) :
    Web.signPlan C sign req.toSendArgs (req.preparedIn Web.arithmetic k) =
      .ok ((req.txIn C sign Web.arithmetic k).serialize true) := by
  rw [Web.signPlan, preparedIn, SendArgs.planFor, Web.buildAndSignTransaction_eq (take_ne_nil hk) (keys_take k),
    Web.serializeTx_eq]
  rfl

theorem mobile_signPlan (hk : req.plan.Shortest k) :
    Mobile.signPlan C sign req.toSendArgs (req.preparedIn Mobile.arithmetic k) =
      .ok ((req.txIn C (fun digest key => Mobile.lowS (sign digest key)) Mobile.arithmetic k).serialize true) := by
  rw [Mobile.signPlan, preparedIn, SendArgs.planFor,
    Mobile.buildAndSignTransaction_eq (fun _ _ => rfl) (take_ne_nil hk) (keys_take k), Web.serializeTx_eq]
  rfl

/-- **What the web wallet sends.** -/
theorem web_confirmSend_eq_ok_iff (rawTx : List UInt8) (record : SentTxRecord) :
    Web.confirmSend C sign sha256 req.toSendArgs = .ok (rawTx, record) ↔ ∃ k, req.plan.Shortest k ∧
      rawTx = (req.txIn C sign Web.arithmetic k).serialize true ∧ record = req.recordIn Web.arithmetic k := by
  have hprepared : ∀ prepared, Web.prepareSend sha256 req.toSendArgs = .ok prepared ↔ _ := fun prepared =>
    (Web.prepareSend_eq_ok_iff sane).trans (planned_iff req.web_reads)
  rw [Web.confirmSend, bind_eq_ok]
  constructor
  · rintro ⟨prepared, hprepares, h⟩
    obtain ⟨k, hk, rfl⟩ := (hprepared prepared).1 hprepares
    rw [web_signPlan hk, ok_bind] at h
    obtain ⟨hraw, hrecord⟩ := Prod.mk.inj (Except.ok.inj h)
    exact ⟨k, hk, hraw.symm, hrecord.symm⟩
  · rintro ⟨k, hk, rfl, rfl⟩
    refine ⟨_, (hprepared _).2 ⟨k, hk, rfl⟩, ?_⟩
    rw [web_signPlan hk, ok_bind]
    rfl

/-- **What the mobile wallet sends**, as long as nothing reaches 2^63. -/
theorem mobile_confirmSend_eq_ok_iff (hfits : req.plan.Fits) (rawTx : List UInt8) (record : SentTxRecord) :
    Mobile.confirmSend C sign sha256 req.toSendArgs = .ok (rawTx, record) ↔ ∃ k, req.plan.Shortest k ∧
      rawTx = (req.txIn C (fun digest key => Mobile.lowS (sign digest key)) Mobile.arithmetic k).serialize true ∧
      record = req.recordIn Mobile.arithmetic k := by
  have hprepared : ∀ prepared, Mobile.prepareSend sha256 req.toSendArgs = .ok prepared ↔ _ := fun prepared =>
    (Mobile.prepareSend_eq_ok_iff sane hfits req.recipients_ne).trans (planned_iff req.mobile_reads)
  rw [Mobile.confirmSend, bind_eq_ok]
  constructor
  · rintro ⟨prepared, hprepares, h⟩
    obtain ⟨k, hk, rfl⟩ := (hprepared prepared).1 hprepares
    rw [mobile_signPlan hk, ok_bind] at h
    obtain ⟨hraw, hrecord⟩ := Prod.mk.inj (Except.ok.inj h)
    exact ⟨k, hk, hraw.symm, hrecord.symm⟩
  · rintro ⟨k, hk, rfl, rfl⟩
    refine ⟨_, (hprepared _).2 ⟨k, hk, rfl⟩, ?_⟩
    rw [mobile_signPlan hk, ok_bind]
    rfl

/-! ## When a wallet follows the plan -/

variable (req A k) in
/-- For `k` inputs, the numbers of a wallet hold the amounts, and the change and the fee together. -/
structure ExactIn : Prop where
  amounts : ∀ r ∈ req.recipients, A.number r.amountSatoshis = r.amountSatoshis
  range : A.number (req.plan.change k) ≤ maxMoney
  sum : A.number (req.plan.change k) + A.number (req.plan.fee k) = req.plan.change k + req.plan.fee k

theorem specs_recordIn (A : Arithmetic) (k : Nat) : (req.recordIn A k).outputs.map (·.spec) =
    withChange A (req.destOutputs A.number) req.changeScript (req.plan.change k) :=
  req.specs_record A _

theorem outpoints_recordIn (A : Arithmetic) (k : Nat) : (req.recordIn A k).outpoints = req.outpoints k := by
  rw [SentTxRecord.outpoints, recordIn, SendArgs.record, List.map_map]
  rfl

theorem length_outpoints (hk : req.plan.Shortest k) : (req.outpoints k).length = k := by
  rw [outpoints, List.length_map, SendArgs.length_take_of_shortest hk]

theorem serialized_recordIn (A : Arithmetic) (k : Nat) :
    (req.txIn C sign A k).vin.map (·.prevout) = (req.recordIn A k).outpoints ∧
      (req.txIn C sign A k).vout = (req.recordIn A k).outputs.map fun o => ⟨o.valueSatoshis, o.scriptPubKey⟩ := by
  refine ⟨?_, ?_⟩
  · rw [outpoints_recordIn, txIn, signedTx, Web.transactionOf, outpoints]
    refine List.ext_getElem (by simp) fun i _ _ => ?_
    simp [Web.signedIn, Web.unsigned]
  · show (req.outputs A (req.preparedIn A k)).map (fun out => (⟨out.valueSatoshis, out.scriptPubKey⟩ : CTxOut)) = _
    rw [← SendArgs.specs_record, List.map_map]
    rfl

theorem paid_recordIn_iff (A : Arithmetic) (k : Nat) :
    ((req.recordIn A k).outputs.map (·.spec)).take req.recipients.length = req.destOutputs id ↔
      ∀ r ∈ req.recipients, A.number r.amountSatoshis = r.amountSatoshis := by
  have htake : (withChange A (req.destOutputs A.number) req.changeScript (req.plan.change k)).take req.recipients.length =
      req.destOutputs A.number := by
    have hlen : (req.destOutputs A.number).length = req.recipients.length := List.length_map _
    unfold withChange
    split
    · rw [← hlen, List.take_left]
    · rw [← hlen, List.take_length]
  rw [specs_recordIn, htake, destOutputs, destOutputs, List.map_inj_left]
  refine forall₂_congr fun r _ => ?_
  rw [TxOutputSpec.mk.injEq]
  exact and_iff_right rfl

theorem valueOut_recordIn (hk : req.plan.Shortest k) : (req.recordIn A k).valueOut =
    (req.recipients.map fun r => A.number r.amountSatoshis).sum + A.number (req.plan.change k) := by
  have hsum : (req.recordIn A k).valueOut = (((req.recordIn A k).outputs.map (·.spec)).map (·.valueSatoshis)).sum := by
    rw [SentTxRecord.valueOut, List.map_map]
    rfl
  rw [hsum, specs_recordIn, sum_withChange _ _ hk.change_nonneg, destOutputs, List.map_map]
  rfl

theorem range_recordIn_iff (hnumber : ∀ x, 0 ≤ x → 0 ≤ A.number x) (hk : req.plan.Shortest k)
    (hamounts : ∀ r ∈ req.recipients, A.number r.amountSatoshis = r.amountSatoshis) :
    (∀ o ∈ (req.recordIn A k).outputs, moneyRange o.valueSatoshis = true) ↔ A.number (req.plan.change k) ≤ maxMoney := by
  have hdest : ∀ o ∈ (req.destOutputs A.number).map fun o => (⟨o.scriptPubKey, o.valueSatoshis, false⟩ : SentTxOutput),
      moneyRange o.valueSatoshis = true := by
    rw [destOutputs, List.map_map, List.forall_mem_map]
    intro r hr
    have hr' := req.amounts r hr
    show moneyRange (A.number r.amountSatoshis) = true
    rw [hamounts r hr]
    exact moneyRange_iff.2 ⟨hr'.1.le, hr'.2⟩
  have hnonneg := hk.change_nonneg
  rw [recordIn, SendArgs.record, List.forall_mem_append]
  refine (and_iff_right hdest).trans ?_
  show (∀ o ∈ if 0 < req.plan.change k then [_] else [], _) ↔ _
  split
  · rw [List.forall_mem_singleton, moneyRange_iff]
    exact and_iff_right (hnumber _ hnonneg)
  next hzero =>
    rw [show req.plan.change k = 0 by omega, A.number_zero]
    exact iff_of_true (List.forall_mem_nil _) (by decide)

theorem follows_iff (hnumber : ∀ x, 0 ≤ x → 0 ≤ A.number x) (hk : req.plan.Shortest k) {j : Nat} :
    req.Follows ((req.txIn C sign A k).serialize true) (req.recordIn A k) j ↔ j = k ∧ req.ExactIn A k := by
  have hvalue (hamounts : ∀ r ∈ req.recipients, A.number r.amountSatoshis = r.amountSatoshis) :
      (req.recordIn A k).valueOut = req.plan.amount + A.number (req.plan.change k) := by
    rw [valueOut_recordIn hk, List.map_congr_left hamounts]
    rfl
  have hfee : (req.recordIn A k).feeSatoshis = A.number (req.plan.fee k) := rfl
  have htotal : req.plan.total k = req.plan.amount + (req.plan.change k + req.plan.fee k) := by
    unfold ExactPlan.change
    omega
  constructor
  · intro h
    obtain rfl := h.shortest.unique hk
    have hamounts := (paid_recordIn_iff A j).1 h.paid
    have hconserved := h.conserved
    rw [hvalue hamounts, hfee, htotal] at hconserved
    exact ⟨rfl, hamounts, (range_recordIn_iff hnumber hk hamounts).1 h.range, by omega⟩
  · rintro ⟨rfl, hexact⟩
    refine ⟨hk, outpoints_recordIn A j, ⟨_, rfl, serialized_recordIn A j⟩,
      (range_recordIn_iff hnumber hk hexact.amounts).2 hexact.range, (paid_recordIn_iff A j).2 hexact.amounts, ?_⟩
    have hsum := hexact.sum
    rw [hvalue hexact.amounts, hfee, htotal]
    omega

/-- **When a wallet follows the plan.** -/
theorem conserves_iff {result : Except String (List UInt8 × SentTxRecord)} (hnumber : ∀ x, 0 ≤ x → 0 ≤ A.number x)
    (hresult : ∀ rawTx record, result = .ok (rawTx, record) ↔ ∃ k, req.plan.Shortest k ∧
      rawTx = (req.txIn C sign A k).serialize true ∧ record = req.recordIn A k) :
    req.Conserves result ↔ ∀ k, req.plan.Shortest k → req.ExactIn A k := by
  have hok : (∃ sent, result = .ok sent) ↔ ∃ k, req.plan.Shortest k :=
    ⟨fun ⟨sent, h⟩ => ((hresult _ _).1 h).imp fun k hk => hk.1, fun ⟨k, hk⟩ => ⟨_, (hresult _ _).2 ⟨k, hk, rfl, rfl⟩⟩⟩
  have hlength : req.plan.values.length = req.allUtxos.length := List.length_map _
  constructor
  · intro h k hk
    obtain ⟨j, hj⟩ := h.follows _ _ ((hresult _ _).2 ⟨k, hk, rfl, rfl⟩)
    exact ((follows_iff hnumber hk).1 hj).2
  · intro hexact
    refine ⟨?_, fun rawTx record h => ?_⟩
    · rw [hok, ExactPlan.exists_shortest_iff, hlength]
    · obtain ⟨k, hk, rfl, rfl⟩ := (hresult _ _).1 h
      exact ⟨k, (follows_iff hnumber hk).2 ⟨rfl, hexact k hk⟩⟩

/-! ## Both wallets -/

variable (req k) in
/-- For `k` inputs, doubles hold the amounts, the change and the fee. -/
structure Representable : Prop where
  amounts : ∀ r ∈ req.recipients, Double.roundInt 53 r.amountSatoshis = r.amountSatoshis
  change : Double.roundInt 53 (req.plan.change k) = req.plan.change k
  fee : Double.roundInt 53 (req.plan.fee k) = req.plan.fee k

theorem change_le (hfits : req.plan.Fits) (hk : req.plan.Shortest k) : req.plan.change k ≤ maxMoney := by
  have htotal := (hfits k hk.le_length hk.least).1
  have hsane : req.plan.Sane := sane
  have hfee := hsane.fee_nonneg k
  have hamount := hsane.amount_nonneg
  have hmax : maxMoney = 2 ^ 63 - 1 := by decide
  unfold ExactPlan.change
  omega

theorem exactIn_mobile (hfits : req.plan.Fits) (hk : req.plan.Shortest k) : req.ExactIn Mobile.arithmetic k :=
  ⟨fun _ _ => rfl, change_le hfits hk, rfl⟩

theorem Representable.exactIn_web (h : req.Representable k) (hfits : req.plan.Fits) (hk : req.plan.Shortest k) :
    req.ExactIn Web.arithmetic k := by
  have hchange : Web.arithmetic.number (req.plan.change k) = req.plan.change k := h.change
  have hfee : Web.arithmetic.number (req.plan.fee k) = req.plan.fee k := h.fee
  exact ⟨h.amounts, hchange.le.trans (change_le hfits hk), by rw [hchange, hfee]⟩

theorem Representable.outputs_eq (h : req.Representable k) :
    (req.recordIn Web.arithmetic k).outputs = (req.recordIn Mobile.arithmetic k).outputs := by
  have hdest : req.destOutputs Web.arithmetic.number = req.destOutputs Mobile.arithmetic.number :=
    List.map_congr_left fun r hr => congrArg (TxOutputSpec.mk _) (h.amounts r hr)
  have hnumber : Web.arithmetic.number (req.plan.change k) = Mobile.arithmetic.number (req.plan.change k) := h.change
  rw [recordIn, preparedIn, hdest, SendArgs.record, SendArgs.planFor]
  dsimp only
  rw [hnumber]
  rfl

theorem representable_of_exactIn (hweb : req.ExactIn Web.arithmetic k) (hk : req.plan.Shortest k)
    (hsame : (req.recordIn Web.arithmetic k).outputs = (req.recordIn Mobile.arithmetic k).outputs) :
      req.Representable k := by
  have hchange : Double.roundInt 53 (req.plan.change k) = req.plan.change k := by
    have hvalue : (req.recordIn Web.arithmetic k).valueOut = (req.recordIn Mobile.arithmetic k).valueOut := by
      rw [SentTxRecord.valueOut, hsame, SentTxRecord.valueOut]
    rw [valueOut_recordIn hk, valueOut_recordIn hk, List.map_congr_left hweb.amounts] at hvalue
    exact Int.add_left_cancel hvalue
  have hsum : Double.roundInt 53 (req.plan.change k) + Double.roundInt 53 (req.plan.fee k) =
      req.plan.change k + req.plan.fee k := hweb.sum
  exact ⟨hweb.amounts, hchange, by omega⟩

end SendRequest

theorem sends_conserve_iff (C : Crypto) (sign : Uint256 → List UInt8 → ECSignature) {sha256 : Sha256}
    (req : SendRequest sha256) (hfits : req.plan.Fits) :
    (req.Conserves (Web.confirmSend C sign sha256 req.toSendArgs) ∧
      req.Conserves (Mobile.confirmSend C sign sha256 req.toSendArgs) ∧
      ∀ rawTx record rawTx' record', Web.confirmSend C sign sha256 req.toSendArgs = .ok (rawTx, record) →
        Mobile.confirmSend C sign sha256 req.toSendArgs = .ok (rawTx', record') → record.outputs = record'.outputs) ↔
      ∀ k, req.plan.Shortest k → req.Representable k := by
  have hweb : ∀ rawTx record, Web.confirmSend C sign sha256 req.toSendArgs = .ok (rawTx, record) ↔ _ :=
    SendRequest.web_confirmSend_eq_ok_iff
  have hmobile : ∀ rawTx record, Mobile.confirmSend C sign sha256 req.toSendArgs = .ok (rawTx, record) ↔ _ :=
    SendRequest.mobile_confirmSend_eq_ok_iff hfits
  rw [SendRequest.conserves_iff (fun _ => Double.roundInt_nonneg) hweb,
    SendRequest.conserves_iff (A := Mobile.arithmetic) (fun _ h => h) hmobile]
  constructor
  · rintro ⟨hexact, -, hsame⟩ k hk
    exact SendRequest.representable_of_exactIn (hexact k hk) hk
      (hsame _ _ _ _ ((hweb _ _).2 ⟨k, hk, rfl, rfl⟩) ((hmobile _ _).2 ⟨k, hk, rfl, rfl⟩))
  · intro hrep
    refine ⟨fun k hk => (hrep k hk).exactIn_web hfits hk, fun k hk => SendRequest.exactIn_mobile hfits hk,
      fun rawTx record rawTx' record' h h' => ?_⟩
    obtain ⟨k, hk, -, rfl⟩ := (hweb _ _).1 h
    obtain ⟨k', hk', -, rfl⟩ := (hmobile _ _).1 h'
    cases hk.unique hk'
    exact (hrep k hk).outputs_eq

/-- A send of 1 satoshi from one unspent output, at a rate of 100. -/
def sampleRequest (value : Int) (hvalue : 0 ≤ value ∧ value ≤ maxMoney) : SendRequest zeroDigest where
  network := .mainnet
  recipients := [⟨p2pkhAddress zeroDigest zeroHash .mainnet, 1⟩]
  allUtxos := [{ sampleUtxo with valueSatoshis := value }]
  feeRate := 100
  changeHash := sampleUtxo.pubkeyHash
  addressOf := fun _ => (.p2pkh, zeroHash)
  recipients_ne := by simp
  amounts := by decide
  values := List.forall_mem_singleton.2 hvalue
  rate_nonneg := by decide
  keys := List.forall_mem_singleton.2 (show (Web.inputKeys none none sampleUtxo).isSome by decide)
  web_reads := by simp only [List.forall_mem_singleton]; decide +kernel
  mobile_reads := by simp only [List.forall_mem_singleton]; decide +kernel

theorem sampleRequest_conserves :
    ∃ req : SendRequest zeroDigest, req.plan.Fits ∧ req.plan.Shortest 1 ∧ req.plan.change 1 = 976 ∧
      ∀ C sign, req.Conserves (Web.confirmSend C sign zeroDigest req.toSendArgs) ∧
        req.Conserves (Mobile.confirmSend C sign zeroDigest req.toSendArgs) := by
  have hsane : (sampleRequest 1000 (by decide)).plan.Sane := SendRequest.sane
  have hfits := hsane.fits_of_lt SendArgs.monotone_size (by decide) (by decide) (by decide)
  have hshort : (sampleRequest 1000 (by decide)).plan.Shortest 1 := ⟨by decide, by decide, by decide⟩
  refine ⟨sampleRequest 1000 (by decide), hfits, hshort, by decide, fun C sign => ?_⟩
  have hrep : ∀ k, (sampleRequest 1000 (by decide)).plan.Shortest k →
      (sampleRequest 1000 (by decide)).Representable k := by
    intro k hk
    obtain rfl := hk.unique hshort
    exact ⟨by decide, by decide, by decide⟩
  obtain ⟨hweb, hmobile, -⟩ := (sends_conserve_iff C sign (sampleRequest 1000 (by decide)) hfits).2 hrep
  exact ⟨hweb, hmobile⟩

/-- From 2^53 + 25 satoshis, the change of 2^53 + 1 is not a double. -/
def lossyRequest : SendRequest zeroDigest := sampleRequest (2 ^ 53 + 25) (by decide)

/-- **The web wallet loses a satoshi.** -/
theorem change_loses_satoshi : lossyRequest.plan.total 1 = 1 + 23 + (2 ^ 53 + 1) ∧
    ∀ C sign, ∃ rawTx record, Web.confirmSend C sign zeroDigest lossyRequest.toSendArgs = .ok (rawTx, record) ∧
      record.feeSatoshis = 23 ∧ record.outputs.map (·.valueSatoshis) = [1, 2 ^ 53] := by
  have hshort : lossyRequest.plan.Shortest 1 := ⟨by decide, by decide, by decide⟩
  refine ⟨by decide, fun C sign => ?_⟩
  exact ⟨_, _, (SendRequest.web_confirmSend_eq_ok_iff _ _).2 ⟨1, hshort, rfl, rfl⟩, by decide, by decide⟩

end CodexaCoin.Wallet
