import CodexaCoin.Gateway.Amounts
import CodexaCoin.Wallet.Address
import CodexaCoin.Wallet.Plan
import CodexaCoin.Wallet.Size

/-!
# Sending

The form handlers of `web-wallet/app.js` that send and that propose a multisig spend, `_send` of
`cac_wallet/lib/screens/send_screen.dart` with `sendTransaction` of `wallet_service.dart`, and the fee rate that they get
from `fee_estimate` of `vps-gateway/app.py`.
-/

/-! ## The gateway's rate -/

namespace CodexaCoin.Gateway

open Double

/-- What `getmempoolinfo` returns; the minimal fee is in satoshis for 1000 bytes. -/
structure MempoolInfo where
  mempoolminfee : Nat
  bytes : Nat
  maxmempool : Nat

/-- `min_rate`. -/
def minRate (mempool : MempoolInfo) : Int :=
  max 1 (roundEven (nearest 53 (nearest 53 (inCoins mempool.mempoolminfee * coinSatoshis) / 1000)))

def fullness (mempool : MempoolInfo) : ℚ :=
  if mempool.maxmempool ≠ 0 then min 1 (nearest 53 (mempool.bytes / mempool.maxmempool)) else 0

/-- `fee_estimate` with the answer of the node. -/
def feeEstimate (target : Int) (mempool : MempoolInfo) : Except String Int :=
  if target < 1 then .error "target_blocks must be >= 1"
  else
    let urgency := nearest 53 (1 + nearest 53 (fullness mempool * nearest 53 (10 / nearest 53 target)))
    .ok (min (roundEven (nearest 53 (nearest 53 (minRate mempool) * urgency))) (minRate mempool * 10))

theorem one_le_nearest {q : ℚ} (h : 1 ≤ q) : 1 ≤ nearest 53 q := by
  simpa using two_zpow_le_nearest (p := 53) (k := 0) (by decide) (by simpa using h)

theorem one_le_feeEstimate {target : Int} {mempool : MempoolInfo} {feeRate : Int}
    (h : feeEstimate target mempool = .ok feeRate) : 1 ≤ feeRate := by
  have hrate : 1 ≤ minRate mempool := le_max_left _ _
  have hfull : 0 ≤ fullness mempool := by
    unfold fullness
    split
    · exact le_min zero_le_one (nearest_nonneg (by positivity))
    · exact le_rfl
  unfold feeEstimate at h
  split at h
  · cases h
  next htarget =>
    rw [← Except.ok.inj h]
    have htarget : (0 : ℚ) ≤ nearest 53 target := nearest_nonneg (by exact_mod_cast (show 0 ≤ target by omega))
    have hscale : 0 ≤ nearest 53 (10 / nearest 53 target) := nearest_nonneg (by positivity)
    have hurgency : 1 ≤ nearest 53 (1 + nearest 53 (fullness mempool * nearest 53 (10 / nearest 53 target))) :=
      one_le_nearest (le_add_of_nonneg_right (nearest_nonneg (mul_nonneg hfull hscale)))
    have hmul : 1 ≤ nearest 53 (minRate mempool : ℚ) := one_le_nearest (by exact_mod_cast hrate)
    have hproduct := one_le_nearest (one_le_mul_of_one_le_of_one_le hmul hurgency)
    exact le_min (le_roundEven (by exact_mod_cast hproduct)) (by omega)

end CodexaCoin.Gateway

namespace CodexaCoin.Wallet

open Check

/-! ## The handlers -/

structure SendRecipient where
  address : Text
  amountSatoshis : Int

def scriptPubKeyFor : DecodedAddress → List UInt8
  | (.p2pkh, hash) => [0x76, 0xa9, 0x14] ++ hash ++ [0x88, 0xac]
  | (.p2sh, hash) => [0xa9, 0x14] ++ hash ++ [0x87]
  | (.p2wpkh, hash) => [0x00, 0x14] ++ hash

section Outputs

variable (A : Arithmetic)

/-- The output for a recipient. -/
def destOutput (decode : Text → Except String DecodedAddress) (r : SendRecipient) : Except String TxOutputSpec := do
  let decoded ← decode r.address
  .ok ⟨scriptPubKeyFor decoded, A.number r.amountSatoshis⟩

/-- `amountTotalSatoshis`. -/
def amountTotal (recipients : List SendRecipient) : Int :=
  recipients.foldl (fun sum r => A.norm (sum + r.amountSatoshis)) 0

/-- The outputs for the recipients, and one for a change that is not zero. -/
def withChange (dest : List TxOutputSpec) (script : List UInt8) (change : Int) : List TxOutputSpec :=
  if 0 < change then dest ++ [⟨script, A.number change⟩] else dest

end Outputs

def estimatedVsize (outputCount inputCount : Nat) : Nat := 10 + inputCount * 148 + outputCount * 34

def multisigVsize (redeemScript : List UInt8) (inputCount : Nat) : Nat :=
  10 + inputCount * (redeemScript.length + 150) + 2 * 34

/-- The rate that is used: that of the user if it is above the gateway's. -/
def effectiveRate (minRate : Int) : Option Int → Int
  | some rate => if minRate < rate then rate else minRate
  | none => minRate

def formatCac (satoshis : Int) : String :=
  toString (satoshis.tdiv 100000000) ++ "." ++ (toString (satoshis.tmod 100000000)).leftpad 8 '0'

/-- What a send starts from, with the index of the key of an unspent output. -/
structure SendArgs where
  network : Network
  recipients : List SendRecipient
  allUtxos : List Web.Utxo
  feeRate : Int
  changeHash : Hash20
  derivationIndex : Web.Utxo → Nat := fun _ => 0

/-- What a handler has prepared before it signs. -/
structure SendPlan where
  chosen : List Web.Utxo
  dest : List TxOutputSpec
  change : Int
  feeSatoshis : Int

namespace SendArgs

variable (args : SendArgs)

/-- `estimatedVsize` for the recipients and a change output. -/
def estimate : Nat → Nat := estimatedVsize (args.recipients.length + 1)

def changeScript : List UInt8 := p2pkhScriptPubKey args.changeHash

def dest (A : Arithmetic) (decode : Text → Network → Except String DecodedAddress) : Except String (List TxOutputSpec) :=
  args.recipients.mapM (destOutput A fun address => decode address args.network)

/-- `outputs` of the transaction. -/
def outputs (A : Arithmetic) (plan : SendPlan) : List TxOutputSpec := withChange A plan.dest args.changeScript plan.change

end SendArgs

section Handlers

variable (C : Crypto) (sign : Uint256 → List UInt8 → ECSignature) (sha256 : Sha256) (args : SendArgs)

/-- The handler of `btn-send-confirm` up to the signing. -/
def Web.prepareSend : Except String SendPlan := do
  let dest ← args.dest Web.arithmetic (Web.decodeAddress sha256)
  let amount := amountTotal Web.arithmetic args.recipients
  let plan ← planSend Web.arithmetic (·.valueSatoshis)
    (fun total need => "Insufficient funds: have " ++ formatCac total ++ ", need " ++ formatCac need)
    args.estimate args.feeRate amount args.allUtxos
  let feeSatoshis := feeFor Web.arithmetic args.feeRate (args.estimate plan.1.length)
  .ok ⟨plan.1, dest, changeOf Web.arithmetic plan.2 amount feeSatoshis, feeSatoshis⟩

def Web.signPlan (plan : SendPlan) : Except String (List UInt8) :=
  Web.buildAndSignTransaction C sign (args.outputs Web.arithmetic plan) none none 0 plan.chosen

def Web.send : Except String (List UInt8) := do
  let plan ← Web.prepareSend sha256 args
  Web.signPlan C sign args plan

/-- `_send` and `sendTransaction` of the mobile wallet up to the signing. -/
def Mobile.prepareSend : Except String SendPlan := do
  let insufficient := fun total need : Int => "Insufficient funds: have " ++ toString total ++ ", need " ++ toString need
  let amount := amountTotal Mobile.arithmetic args.recipients
  if args.allUtxos.isEmpty then .error "No spendable funds found"
  else
    let plan ← planSend Mobile.arithmetic (·.valueSatoshis) insufficient args.estimate args.feeRate amount args.allUtxos
    let feeSatoshis := feeFor Mobile.arithmetic args.feeRate (args.estimate plan.1.length)
    if args.recipients.isEmpty then .error "No recipients specified"
    else
      let dest ← args.dest Mobile.arithmetic (Mobile.decodeAddress sha256)
      let totalIn := plan.1.foldl (fun sum u => Mobile.arithmetic.norm (sum + u.valueSatoshis)) 0
      let change := changeOf Mobile.arithmetic totalIn amount feeSatoshis
      if change < 0 then .error (insufficient totalIn (Mobile.arithmetic.norm (amount + feeSatoshis)))
      else .ok ⟨plan.1, dest, change, feeSatoshis⟩

def Mobile.signPlan (plan : SendPlan) : Except String (List UInt8) :=
  Mobile.buildAndSignTransaction C sign (args.outputs Mobile.arithmetic plan) none none 0
    (plan.chosen.map Web.Utxo.toMobile)

def Mobile.send : Except String (List UInt8) := do
  let plan ← Mobile.prepareSend sha256 args
  Mobile.signPlan C sign args plan

end Handlers

structure MultisigUtxo where
  txid : Uint256
  vout : Nat
  value : Int

/-- What the gateway answers to a request for a rate, at a minimal fee of at least `TX_FEE_PER_KB`. -/
structure FeeQuote where
  target : Int
  mempool : Gateway.MempoolInfo
  feeRate : Int
  floor : 100000 ≤ mempool.mempoolminfee
  quoted : Gateway.feeEstimate target mempool = .ok feeRate

/-- What a multisig proposal starts from. -/
structure ProposeForm where
  network : Network
  setup : MultisigSetup
  toAddress : Text
  amountSatoshis : Int
  utxos : List MultisigUtxo
  quote : FeeQuote
  amount_nonneg : 0 ≤ amountSatoshis
  amount_number : Web.arithmetic.number amountSatoshis = amountSatoshis
  values_nonneg : ∀ u ∈ utxos, 0 ≤ u.value

/-- The handler that proposes a multisig spend. -/
def Web.proposeMultisig (hash160 : List UInt8 → Hash20) (sha256 : Sha256) (form : ProposeForm) :
    Except String MultisigProposal := do
  let redeemScript := form.setup.redeemScript
  let dest ← destOutput Web.arithmetic (fun address => Web.decodeAddress sha256 address form.network)
    ⟨form.toAddress, form.amountSatoshis⟩
  let plan ← planSend Web.arithmetic MultisigUtxo.value
    (fun total need => "Insufficient funds at this address: have " ++ formatCac total ++ ", need " ++ formatCac need)
    (multisigVsize redeemScript) form.quote.feeRate form.amountSatoshis form.utxos
  let feeSatoshis := feeFor Web.arithmetic form.quote.feeRate (multisigVsize redeemScript plan.1.length)
  let change := changeOf Web.arithmetic plan.2 form.amountSatoshis feeSatoshis
  let outputs := withChange Web.arithmetic [dest] (p2shScriptPubKey (hash160 redeemScript)) change
  .ok (createMultisigProposal (plan.1.map fun u => ⟨u.txid, u.vout, u.value, redeemScript⟩) outputs 0)

/-! ## What is paid -/

section Paid

variable {A : Arithmetic}

theorem foldl_norm {α : Type} (f : α → Int) (l : List α) (s : Int) :
    l.foldl (fun sum x => A.norm (sum + f x)) (A.norm s) = A.norm (s + (l.map f).sum) := by
  induction l generalizing s with
  | nil => simp
  | cons x l ih => rw [List.foldl_cons, A.norm_norm_add, ih, List.map_cons, List.sum_cons, Int.add_assoc]

theorem amountTotal_eq (recipients : List SendRecipient) :
    amountTotal A recipients = A.norm (recipients.map (·.amountSatoshis)).sum := by
  have h := foldl_norm (A := A) SendRecipient.amountSatoshis recipients 0
  rwa [A.norm_zero, Int.zero_add] at h

theorem sum_withChange (dest : List TxOutputSpec) (script : List UInt8) {change : Int} (h : 0 ≤ change) :
    ((withChange A dest script change).map (·.valueSatoshis)).sum =
      (dest.map (·.valueSatoshis)).sum + A.number change := by
  unfold withChange
  split
  · simp
  · rw [show change = 0 by omega, A.number_zero, Int.add_zero]

theorem withChange_ne_nil {dest : List TxOutputSpec} (h : dest ≠ []) (script : List UInt8) (change : Int) :
    withChange A dest script change ≠ [] := by
  unfold withChange
  split
  · exact List.append_ne_nil_of_left_ne_nil h _
  · exact h

theorem sum_destOutputs {decode : Text → Except String DecodedAddress} {recipients : List SendRecipient}
    {dest : List TxOutputSpec} (h : recipients.mapM (destOutput A decode) = .ok dest)
    (hnumber : ∀ r ∈ recipients, A.number r.amountSatoshis = r.amountSatoshis) :
    dest.map (·.valueSatoshis) = recipients.map (·.amountSatoshis) := by
  rw [mapM_eq_ok_iff] at h
  induction h with
  | nil => rfl
  | cons hout _ ih =>
    obtain ⟨decoded, -, hout⟩ := bind_eq_ok.1 hout
    cases hout
    rw [List.map_cons, List.map_cons, ih fun r hr => hnumber r (List.mem_cons_of_mem _ hr), hnumber _ List.mem_cons_self]

end Paid

/-! ## What the handlers prepare -/

namespace SendArgs

variable (args : SendArgs)

/-- The exact plan of a send: 148 bytes for each input, and 34 for each recipient and for the change. -/
def plan : ExactPlan where
  values := args.allUtxos.map (·.valueSatoshis)
  amount := (args.recipients.map (·.amountSatoshis)).sum
  feeRate := args.feeRate
  size k := 10 + 148 * k + 34 * (args.recipients.length + 1)

/-- The plan with `k` inputs. -/
def planFor (dest : List TxOutputSpec) (k : Nat) : SendPlan where
  chosen := args.allUtxos.take k
  dest := dest
  change := args.plan.change k
  feeSatoshis := args.plan.fee k

/-- The outputs for the recipients, and the shortest list of inputs. -/
def Planned (A : Arithmetic) (decode : Text → Network → Except String DecodedAddress) (prepared : SendPlan) : Prop :=
  ∃ dest k, args.dest A decode = .ok dest ∧ args.plan.Shortest k ∧ prepared = args.planFor dest k

variable {args} {k : Nat}

theorem estimate_eq : args.estimate = args.plan.size := by
  funext k
  show 10 + k * 148 + (args.recipients.length + 1) * 34 = 10 + 148 * k + 34 * (args.recipients.length + 1)
  omega

theorem monotone_size : Monotone args.plan.size := by
  intro j k h
  show 10 + 148 * j + 34 * _ ≤ 10 + 148 * k + 34 * _
  omega

theorem length_take_of_shortest (hk : args.plan.Shortest k) : (args.allUtxos.take k).length = k := by
  have hle : k ≤ (args.allUtxos.map (·.valueSatoshis)).length := hk.le_length
  rw [List.length_map] at hle
  exact List.length_take_of_le hle

theorem planFor_eq {A : Arithmetic} (hcomputes : Computes A args.plan) (dest : List TxOutputSpec)
    (hk : args.plan.Shortest k) :
    (⟨args.allUtxos.take k, dest, changeOf A (args.plan.total k) (A.norm args.plan.amount)
      (feeFor A args.feeRate (args.plan.size (args.allUtxos.take k).length)),
      feeFor A args.feeRate (args.plan.size (args.allUtxos.take k).length)⟩ : SendPlan) = args.planFor dest k := by
  have hfee : feeFor A args.feeRate (args.plan.size k) = args.plan.fee k := hcomputes.fee k hk.le_length hk.least
  rw [length_take_of_shortest hk, hfee, hcomputes.changeOf_eq hk, planFor]

end SendArgs

section Prepared

variable {sha256 : Sha256} {args : SendArgs} {prepared : SendPlan}

/-- **What the web wallet prepares.** -/
theorem Web.prepareSend_eq_ok_iff (hsane : args.plan.Sane) : Web.prepareSend sha256 args = .ok prepared ↔
    args.Planned Web.arithmetic (Web.decodeAddress sha256) prepared := by
  have hcomputes := Web.computes hsane
  rw [Web.prepareSend, bind_eq_ok, SendArgs.Planned, amountTotal_eq, SendArgs.estimate_eq]
  refine exists_congr fun dest => ?_
  constructor
  · rintro ⟨hdest, h⟩
    obtain ⟨chosen, hchosen, h⟩ := bind_eq_ok.1 h
    obtain ⟨k, hk, rfl⟩ := (planSend_eq_ok_iff (p := args.plan) rfl hsane hcomputes).1 hchosen
    exact ⟨k, hdest, hk, (Except.ok.inj h).symm.trans (SendArgs.planFor_eq hcomputes dest hk)⟩
  · rintro ⟨k, hdest, hk, rfl⟩
    refine ⟨hdest, bind_eq_ok.2 ⟨_, (planSend_eq_ok_iff (p := args.plan) rfl hsane hcomputes).2 ⟨k, hk, rfl⟩, ?_⟩⟩
    exact congrArg _ (SendArgs.planFor_eq hcomputes dest hk)

/-- **What the mobile wallet prepares**, as long as nothing reaches 2^63. -/
theorem Mobile.prepareSend_eq_ok_iff (hsane : args.plan.Sane) (hfits : args.plan.Fits) (hne : args.recipients ≠ []) :
    Mobile.prepareSend sha256 args = .ok prepared ↔
      args.Planned Mobile.arithmetic (Mobile.decodeAddress sha256) prepared := by
  have hcomputes := Mobile.computes hsane hfits
  have hfold : ∀ k, args.plan.Shortest k →
      (args.allUtxos.take k).foldl (fun sum u => Mobile.arithmetic.norm (sum + u.valueSatoshis)) 0 =
        args.plan.total k := by
    intro k hk
    have hsum := foldl_norm (A := Mobile.arithmetic) Web.Utxo.valueSatoshis (args.allUtxos.take k) 0
    rw [Mobile.arithmetic.norm_zero, Int.zero_add, List.map_take] at hsum
    exact hsum.trans (hcomputes.total k hk.le_length hk.least)
  have hchange : ∀ dest k, args.plan.Shortest k → (⟨args.allUtxos.take k, dest, changeOf Mobile.arithmetic
      ((args.allUtxos.take k).foldl (fun sum u => Mobile.arithmetic.norm (sum + u.valueSatoshis)) 0)
      (Mobile.arithmetic.norm args.plan.amount)
      (feeFor Mobile.arithmetic args.feeRate (args.plan.size (args.allUtxos.take k).length)),
      feeFor Mobile.arithmetic args.feeRate (args.plan.size (args.allUtxos.take k).length)⟩ : SendPlan) =
        args.planFor dest k := by
    intro dest k hk
    rw [hfold k hk, SendArgs.planFor_eq hcomputes dest hk]
  unfold Mobile.prepareSend
  rw [amountTotal_eq, SendArgs.estimate_eq, List.isEmpty_eq_false_iff.2 hne]
  dsimp only
  constructor
  · intro h
    split at h
    · cases h
    obtain ⟨chosen, hchosen, h⟩ := bind_eq_ok.1 h
    obtain ⟨k, hk, rfl⟩ := (planSend_eq_ok_iff (p := args.plan) rfl hsane hcomputes).1 hchosen
    rw [if_neg Bool.false_ne_true] at h
    obtain ⟨dest, hdest, h⟩ := bind_eq_ok.1 h
    split at h
    · cases h
    exact ⟨dest, k, hdest, hk, (Except.ok.inj h).symm.trans (hchange dest k hk)⟩
  · rintro ⟨dest, k, hdest, hk, rfl⟩
    have hempty : ¬args.allUtxos.isEmpty = true := by
      intro hnil
      have htake := hk.take_ne_nil (show args.allUtxos.map (·.valueSatoshis) = _ from rfl) hsane
      rw [List.isEmpty_iff.1 hnil, List.take_nil] at htake
      exact htake rfl
    rw [if_neg hempty]
    refine bind_eq_ok.2 ⟨_, (planSend_eq_ok_iff (p := args.plan) rfl hsane hcomputes).2 ⟨k, hk, rfl⟩, ?_⟩
    rw [if_neg Bool.false_ne_true]
    refine bind_eq_ok.2 ⟨dest, hdest, ?_⟩
    have hplan := hchange dest k hk
    rw [if_neg]
    · exact congrArg _ hplan
    · have hnonneg : 0 ≤ (args.planFor dest k).change := hk.change_nonneg
      rw [← hplan] at hnonneg
      exact Int.not_lt.2 hnonneg

end Prepared

/-! ## The fee that consensus asks for -/

namespace ExactPlan

variable (A : Arithmetic) (p : ExactPlan) (outputs : List TxOutputSpec) (scriptLength k : Nat)

/-- The rate is high enough for `k` inputs with scripts of the given length: for 1000 bytes of the estimated size, with
what is lost when the change becomes a number, it gives 100 satoshis for each byte of the transaction. -/
def Suffices : Prop :=
  1000 * minFeeFor (txSize (List.replicate k scriptLength) outputs) ≤
    p.feeRate * p.size k + 999 + 1000 * (p.change k - A.number (p.change k))

instance : Decidable (p.Suffices A outputs scriptLength k) := inferInstanceAs (Decidable (_ ≤ _))

variable {A p outputs scriptLength k}

theorem suffices_iff : p.Suffices A outputs scriptLength k ↔
    minFeeFor (txSize (List.replicate k scriptLength) outputs) ≤ p.fee k + (p.change k - A.number (p.change k)) := by
  have hfee : p.fee k = (p.feeRate * p.size k + 999) / 1000 := rfl
  unfold Suffices
  omega

/-- **A rate of 100000 would be enough**, which is the gateway's in satoshis for 1000 bytes: the estimated size is not
too small, for up to 252 inputs and outputs, as long as the change is a double. -/
theorem suffices_of_rate (hrate : 100000 ≤ p.feeRate) (hsize : 10 + 148 * k + 34 * outputs.length ≤ p.size k)
    (hk : k ≤ 252) (hcount : outputs.length ≤ 252) (hscripts : ∀ out ∈ outputs, out.scriptPubKey.length ≤ 25)
    (hchange : A.number (p.change k) = p.change k) : p.Suffices A outputs 107 k := by
  have houts : (outputs.map outputSize).sum ≤ 34 * outputs.length := by
    have hle : ∀ n ∈ outputs.map outputSize, n ≤ 34 := by
      refine List.forall_mem_map.2 fun out hout => ?_
      have hlen := hscripts out hout
      rw [outputSize, length_varInt, if_pos (by omega)]
      omega
    have hsum := List.sum_le_card_nsmul _ _ hle
    rwa [List.length_map, smul_eq_mul, Nat.mul_comm] at hsum
  have hins : ((List.replicate k 107).map inputSize).sum = 148 * k := by
    rw [List.map_replicate, List.sum_replicate, show inputSize 107 = 148 from rfl, smul_eq_mul, Nat.mul_comm]
  have htotal : txSize (List.replicate k 107) outputs ≤ p.size k := by
    rw [txSize, hins, List.length_replicate, length_varInt, length_varInt, if_pos (by omega), if_pos (by omega)]
    omega
  have hfee : 100000 * (p.size k : Int) ≤ p.feeRate * p.size k := Int.mul_le_mul_of_nonneg_right hrate (by omega)
  have hmin : minFeeFor (txSize (List.replicate k 107) outputs) ≤ 100 * txSize (List.replicate k 107) outputs :=
    min_le_left _ _
  rw [Suffices, hchange]
  omega

end ExactPlan

theorem FeeQuote.one_le (quote : FeeQuote) : 1 ≤ quote.feeRate := Gateway.one_le_feeEstimate quote.quoted

theorem le_effectiveRate (minRate : Int) (rate : Option Int) : minRate ≤ effectiveRate minRate rate := by
  unfold effectiveRate
  repeat' split
  all_goals omega

/-- A send at the gateway's rate or at one that the user has chosen, of amounts that a number holds, from unspent
outputs whose keys the wallet has. -/
structure SendForm (A : Arithmetic) extends SendArgs where
  quote : FeeQuote
  feeRateOverride : Option Int
  rate : feeRate = effectiveRate quote.feeRate feeRateOverride
  recipients_ne : recipients ≠ []
  amounts_nonneg : ∀ r ∈ recipients, 0 ≤ r.amountSatoshis
  amounts_number : ∀ r ∈ recipients, A.number r.amountSatoshis = r.amountSatoshis
  values_nonneg : ∀ u ∈ allUtxos, 0 ≤ u.valueSatoshis
  keys : ∀ u ∈ allUtxos, (Web.inputKeys none none u).isSome

namespace SendForm

variable {A : Arithmetic} (form : SendForm A) (decode : Text → Network → Except String DecodedAddress)

/-- The rate suffices for the shortest list of inputs, with signatures of 72 bytes. -/
def RateSuffices : Prop :=
  ∀ dest k, form.dest A decode = .ok dest → form.plan.Shortest k →
    form.plan.Suffices A (form.outputs A (form.planFor dest k)) 107 k

variable {form decode} {prepared : SendPlan}

theorem sane : form.plan.Sane := by
  have hamount : 0 ≤ form.plan.amount := List.sum_nonneg (List.forall_mem_map.2 form.amounts_nonneg)
  have hrate : 1 ≤ form.feeRate := by
    rw [form.rate]
    exact form.quote.one_le.trans (le_effectiveRate _ _)
  refine ⟨List.forall_mem_map.2 form.values_nonneg, hamount, by show 0 ≤ form.feeRate; omega, ?_⟩
  have hmul : 1 * 1 ≤ form.feeRate * form.plan.size 0 :=
    Int.mul_le_mul hrate (by show (1 : Int) ≤ (10 + 148 * 0 + 34 * (form.recipients.length + 1) : Nat); omega) (by decide)
      (by omega)
  show 0 < form.plan.amount + (form.feeRate * form.plan.size 0 + 999) / 1000
  omega

theorem rateSuffices_iff {dest : List TxOutputSpec} {k : Nat} (hdest : form.dest A decode = .ok dest)
    (hk : form.plan.Shortest k) : form.RateSuffices decode ↔
      form.plan.Suffices A (form.outputs A (form.planFor dest k)) 107 k := by
  refine ⟨fun h => h dest k hdest hk, fun h dest' k' hdest' hk' => ?_⟩
  rw [hdest] at hdest'
  cases hdest'
  rwa [hk'.unique hk]

theorem keys_of_planned (h : form.Planned A decode prepared) :
    prepared.chosen ≠ [] ∧ ∀ u ∈ prepared.chosen, (Web.inputKeys none none u).isSome := by
  obtain ⟨dest, k, -, hk, rfl⟩ := h
  exact ⟨hk.take_ne_nil (show form.allUtxos.map (·.valueSatoshis) = _ from rfl) sane,
    fun u hu => form.keys u (List.mem_of_mem_take hu)⟩

/-- **When a send covers the minimal fee.** -/
theorem coversMinFee_iff {C : Crypto} {finish : ECSignature → ECSignature} (h : form.Planned A decode prepared)
    (hfinish : finish longSignature = longSignature) :
    CoversMinFee C finish prepared.chosen (form.outputs A prepared) ↔ form.RateSuffices decode := by
  obtain ⟨hne, hkeys⟩ := keys_of_planned h
  obtain ⟨dest, k, hdest, hk, rfl⟩ := h
  have hout : dest ≠ [] := by
    have hlen := (mapM_eq_ok_iff.1 hdest).length_eq
    refine List.ne_nil_of_length_pos ?_
    rw [← hlen]
    exact List.length_pos_iff.2 form.recipients_ne
  have hsum : (dest.map (·.valueSatoshis)).sum = form.plan.amount :=
    congrArg List.sum (sum_destOutputs hdest form.amounts_number)
  have hin : ((form.planFor dest k).chosen.map (·.valueSatoshis)).sum = form.plan.total k :=
    congrArg List.sum List.map_take
  have hvalue : ((form.outputs A (form.planFor dest k)).map (·.valueSatoshis)).sum =
      form.plan.amount + A.number (form.plan.change k) := by
    rw [← hsum]
    exact sum_withChange _ _ hk.change_nonneg
  have hlength : (form.planFor dest k).chosen.length = k := SendArgs.length_take_of_shortest hk
  have houtputs : form.outputs A (form.planFor dest k) ≠ [] := withChange_ne_nil hout _ _
  rw [rateSuffices_iff hdest hk, ExactPlan.suffices_iff, Wallet.coversMinFee_iff hkeys hne houtputs hfinish, hin, hvalue,
    hlength]
  have hchange : form.plan.change k = form.plan.total k - form.plan.amount - form.plan.fee k := rfl
  exact iff_of_eq (congrArg _ (by omega))

end SendForm

namespace ProposeForm

variable (form : ProposeForm) (hash160 : List UInt8 → Hash20) (sha256 : Sha256)

/-- The exact plan of a proposal: the redeem script and 150 bytes for each input, and two outputs. -/
def plan : ExactPlan where
  values := form.utxos.map MultisigUtxo.value
  amount := form.amountSatoshis
  feeRate := form.quote.feeRate
  size k := 10 + (form.setup.redeemScript.length + 150) * k + 68

def dest : Except String TxOutputSpec :=
  destOutput Web.arithmetic (fun address => Web.decodeAddress sha256 address form.network)
    ⟨form.toAddress, form.amountSatoshis⟩

/-- The outputs with `k` inputs. -/
def outputs (dest : TxOutputSpec) (k : Nat) : List TxOutputSpec :=
  withChange Web.arithmetic [dest] (p2shScriptPubKey (hash160 form.setup.redeemScript)) (form.plan.change k)

/-- The proposal to spend the first `k` unspent outputs. -/
def proposal (dest : TxOutputSpec) (k : Nat) : MultisigProposal :=
  createMultisigProposal
    ((form.utxos.take k).map fun u => ⟨u.txid, u.vout, u.value, form.setup.redeemScript⟩) (form.outputs hash160 dest k) 0

/-- The rate suffices for the shortest list of inputs, with signatures of 72 bytes. -/
def RateSuffices : Prop :=
  ∀ dest k, form.dest sha256 = .ok dest → form.plan.Shortest k →
    form.plan.Suffices Web.arithmetic (form.outputs hash160 dest k) form.setup.scriptLength k

variable {form hash160 sha256} {k : Nat} {proposal : MultisigProposal}

theorem multisigVsize_eq : multisigVsize form.setup.redeemScript = form.plan.size := by
  funext k
  show 10 + k * (form.setup.redeemScript.length + 150) + 2 * 34 = 10 + (form.setup.redeemScript.length + 150) * k + 68
  rw [Nat.mul_comm k]

theorem sane : form.plan.Sane := by
  have hrate := form.quote.one_le
  refine ⟨List.forall_mem_map.2 form.values_nonneg, form.amount_nonneg, by show 0 ≤ form.quote.feeRate; omega, ?_⟩
  have hmul : 1 * 1 ≤ form.quote.feeRate * form.plan.size 0 :=
    Int.mul_le_mul hrate (by show (1 : Int) ≤ (10 + _ * 0 + 68 : Nat); omega) (by decide) (by omega)
  have hamount := form.amount_nonneg
  show 0 < form.amountSatoshis + (form.quote.feeRate * form.plan.size 0 + 999) / 1000
  omega

theorem length_take_of_shortest (hk : form.plan.Shortest k) : (form.utxos.take k).length = k := by
  have hle : k ≤ (form.utxos.map MultisigUtxo.value).length := hk.le_length
  rw [List.length_map] at hle
  exact List.length_take_of_le hle

theorem rateSuffices_iff {dest : TxOutputSpec} (hdest : form.dest sha256 = .ok dest)
    (hk : form.plan.Shortest k) : form.RateSuffices hash160 sha256 ↔
      form.plan.Suffices Web.arithmetic (form.outputs hash160 dest k) form.setup.scriptLength k := by
  refine ⟨fun h => h dest k hdest hk, fun h dest' k' hdest' hk' => ?_⟩
  rw [hdest] at hdest'
  cases hdest'
  rwa [hk'.unique hk]

/-- **What is proposed.** -/
theorem proposeMultisig_eq_ok (h : Web.proposeMultisig hash160 sha256 form = .ok proposal) :
    ∃ dest k, form.dest sha256 = .ok dest ∧ form.plan.Shortest k ∧ proposal = form.proposal hash160 dest k := by
  have hcomputes := Web.computes (p := form.plan) sane
  rw [Web.proposeMultisig, multisigVsize_eq] at h
  obtain ⟨dest, hdest, h⟩ := bind_eq_ok.1 h
  obtain ⟨chosen, hchosen, h⟩ := bind_eq_ok.1 h
  obtain ⟨k, hk, rfl⟩ := (planSend_eq_ok_iff (p := form.plan) rfl sane hcomputes).1 hchosen
  refine ⟨dest, k, hdest, hk, (Except.ok.inj h).symm.trans ?_⟩
  have hfee : feeFor Web.arithmetic form.quote.feeRate (form.plan.size k) = form.plan.fee k :=
    hcomputes.fee k hk.le_length hk.least
  have hchange : changeOf Web.arithmetic (form.plan.total k) form.amountSatoshis (form.plan.fee k) = form.plan.change k :=
    hcomputes.changeOf_eq hk
  dsimp only
  rw [length_take_of_shortest hk, hfee, hchange]
  rfl

/-- **When a multisig spend covers the minimal fee.** -/
theorem coversMinFee_iff (h : Web.proposeMultisig hash160 sha256 form = .ok proposal) :
    proposal.CoversMinFee ↔ form.RateSuffices hash160 sha256 := by
  obtain ⟨dest, k, hdest, hk, rfl⟩ := proposeMultisig_eq_ok h
  have hscript : ∀ inp ∈ (form.proposal hash160 dest k).inputs, inp.redeemScript = form.setup.redeemScript :=
    List.forall_mem_map.2 fun u _ => rfl
  have hne : (form.proposal hash160 dest k).inputs ≠ [] := by
    have htake := hk.take_ne_nil (show form.utxos.map MultisigUtxo.value = _ from rfl) sane
    simpa [proposal, createMultisigProposal] using htake
  have hlen : (form.proposal hash160 dest k).inputs.length = k := by
    rw [proposal, createMultisigProposal, List.length_map, length_take_of_shortest hk]
  have hin : ((form.proposal hash160 dest k).inputs.map (·.valueSatoshis)).sum = form.plan.total k := by
    rw [proposal, createMultisigProposal, List.map_map, ExactPlan.total, plan, ← List.map_take]
    rfl
  have hout : ((form.proposal hash160 dest k).outputs.map (·.valueSatoshis)).sum =
      form.amountSatoshis + Web.arithmetic.number (form.plan.change k) := by
    obtain ⟨decoded, -, hvalue⟩ := bind_eq_ok.1 hdest
    cases hvalue
    refine (sum_withChange _ _ hk.change_nonneg).trans ?_
    rw [List.map_cons, List.map_nil, List.sum_cons, List.sum_nil, form.amount_number, Int.add_zero]
  rw [rateSuffices_iff hdest hk, ExactPlan.suffices_iff,
    MultisigProposal.coversMinFee_iff hscript hne (withChange_ne_nil (List.cons_ne_nil _ _) _ _), hlen, hin, hout]
  have hchange : form.plan.change k = form.plan.total k - form.amountSatoshis - form.plan.fee k := rfl
  have houtputs : (form.proposal hash160 dest k).outputs = form.outputs hash160 dest k := rfl
  rw [houtputs]
  exact iff_of_eq (congrArg _ (by omega))

end ProposeForm

/-! ## All flows -/

/-- A send that the web wallet has prepared. -/
structure WebSend (sha256 : Sha256) where
  form : SendForm Web.arithmetic
  prepared : SendPlan
  prepares : Web.prepareSend sha256 form.toSendArgs = .ok prepared

/-- A send that the mobile wallet has prepared. -/
structure MobileSend (sha256 : Sha256) where
  form : SendForm Mobile.arithmetic
  prepared : SendPlan
  prepares : Mobile.prepareSend sha256 form.toSendArgs = .ok prepared

/-- A multisig spend that the web wallet proposes. -/
structure MultisigPropose (hash160 : List UInt8 → Hash20) (sha256 : Sha256) where
  form : ProposeForm
  proposal : MultisigProposal
  proposes : Web.proposeMultisig hash160 sha256 form = .ok proposal

theorem sends_cover_minFee_iff (C : Crypto) (hash160 : List UInt8 → Hash20) (sha256 : Sha256) :
    (∀ send : WebSend sha256,
      (∀ sign, Web.send C sign sha256 send.form.toSendArgs = .ok ((signedTx C sign send.prepared.chosen
        (send.form.outputs Web.arithmetic send.prepared)).serialize true)) ∧
      (CoversMinFee C id send.prepared.chosen (send.form.outputs Web.arithmetic send.prepared) ↔
        send.form.RateSuffices (Web.decodeAddress sha256))) ∧
    (∀ send : MobileSend sha256, send.form.plan.Fits →
      (∀ sign, Mobile.send C sign sha256 send.form.toSendArgs = .ok ((signedTx C (fun digest key =>
        Mobile.lowS (sign digest key)) send.prepared.chosen
          (send.form.outputs Mobile.arithmetic send.prepared)).serialize true)) ∧
      (CoversMinFee C Mobile.lowS send.prepared.chosen (send.form.outputs Mobile.arithmetic send.prepared) ↔
        send.form.RateSuffices (Mobile.decodeAddress sha256))) ∧
    (∀ send : MultisigPropose hash160 sha256, send.proposal.CoversMinFee ↔ send.form.RateSuffices hash160 sha256) := by
  refine ⟨fun send => ?_, fun send hfits => ?_, fun send => ProposeForm.coversMinFee_iff send.proposes⟩
  · have hplanned := (Web.prepareSend_eq_ok_iff SendForm.sane).1 send.prepares
    obtain ⟨hne, hkeys⟩ := SendForm.keys_of_planned hplanned
    refine ⟨fun sign => ?_, SendForm.coversMinFee_iff hplanned rfl⟩
    rw [Web.send, send.prepares, ok_bind, Web.signPlan, Web.buildAndSignTransaction_eq hne hkeys, Web.serializeTx_eq]
    rfl
  · have hplanned := (Mobile.prepareSend_eq_ok_iff SendForm.sane hfits send.form.recipients_ne).1 send.prepares
    obtain ⟨hne, hkeys⟩ := SendForm.keys_of_planned hplanned
    refine ⟨fun sign => ?_, SendForm.coversMinFee_iff hplanned lowS_longSignature⟩
    rw [Mobile.send, send.prepares, ok_bind, Mobile.signPlan,
      Mobile.buildAndSignTransaction_eq (fun _ _ => rfl) hne hkeys, Web.serializeTx_eq]
    rfl

/-- The gateway's answer when the memory pool is empty and the minimal fee is `TX_FEE_PER_KB`. -/
def lowestQuote : FeeQuote where
  target := 6
  mempool := ⟨100000, 0, 300000000⟩
  feeRate := 100
  floor := by decide
  quoted := by decide +kernel

/-- 900000 satoshis from one unspent output, at the gateway's rate or another. -/
def sampleForm (feeRateOverride : Option Int) : SendForm Web.arithmetic where
  network := .mainnet
  recipients := [⟨p2pkhAddress zeroDigest zeroHash .mainnet, 900000⟩]
  allUtxos := [sampleUtxo]
  feeRate := effectiveRate lowestQuote.feeRate feeRateOverride
  changeHash := sampleUtxo.pubkeyHash
  quote := lowestQuote
  feeRateOverride := feeRateOverride
  rate := rfl
  recipients_ne := by simp
  amounts_nonneg := by simp
  amounts_number := by simp; decide
  values_nonneg := by decide
  keys := sampleUtxo_keys

theorem sampleForm_dest (feeRateOverride : Option Int) :
    (sampleForm feeRateOverride).dest Web.arithmetic (Web.decodeAddress zeroDigest) =
      .ok [⟨p2pkhScriptPubKey zeroHash, 900000⟩] := by
  show [(⟨p2pkhAddress zeroDigest zeroHash .mainnet, 900000⟩ : SendRecipient)].mapM
    (destOutput Web.arithmetic fun address => Web.decodeAddress zeroDigest address .mainnet) = _
  decide +kernel

theorem highRate_covers :
    ∃ send : WebSend zeroDigest, send.form.feeRate = 100000 ∧ send.form.RateSuffices (Web.decodeAddress zeroDigest) ∧
      ∀ C, CoversMinFee C id send.prepared.chosen (send.form.outputs Web.arithmetic send.prepared) := by
  have hdest := sampleForm_dest (some 100000)
  have hshort : (sampleForm (some 100000)).plan.Shortest 1 := ⟨by decide, by decide, by decide⟩
  have hrate : (sampleForm (some 100000)).RateSuffices (Web.decodeAddress zeroDigest) :=
    (SendForm.rateSuffices_iff hdest hshort).2 (ExactPlan.suffices_of_rate (by decide) (by decide) (by decide) (by decide)
      (by decide) (by decide))
  refine ⟨⟨sampleForm (some 100000), _, (Web.prepareSend_eq_ok_iff SendForm.sane).2 ⟨_, 1, hdest, hshort, rfl⟩⟩, ?_,
    hrate, fun C => ?_⟩
  · show effectiveRate 100 (some 100000) = 100000
    decide
  · exact (((sends_cover_minFee_iff C (fun _ => zeroHash) zeroDigest).1 _).2).2 hrate

/-- **The fee is a thousandth of what consensus asks for**: 23 satoshis where it asks for 22600, because a rate for one
byte is divided by 1000 again. -/
theorem send_pays_too_little :
    ∃ prepared, Web.prepareSend zeroDigest (sampleForm none).toSendArgs = .ok prepared ∧ prepared.chosen = [sampleUtxo] ∧
      ∀ C net nTimeTx, sampleUtxo.valueSatoshis - (signedTx C (fun _ _ => longSignature) [sampleUtxo]
        ((sampleForm none).outputs Web.arithmetic prepared)).valueOut = 23 ∧
        getMinFee net (signedTx C (fun _ _ => longSignature) [sampleUtxo]
          ((sampleForm none).outputs Web.arithmetic prepared)) nTimeTx = 22600 := by
  have hshort : (sampleForm none).plan.Shortest 1 := ⟨by decide, by decide, by decide⟩
  refine ⟨_, (Web.prepareSend_eq_ok_iff SendForm.sane).2 ⟨_, 1, sampleForm_dest none, hshort, rfl⟩, rfl,
    fun C net nTimeTx => ?_⟩
  have hkeys : ∀ u ∈ [sampleUtxo], (Web.inputKeys none none u).isSome := by decide
  have houtputs : (sampleForm none).outputs Web.arithmetic
      ((sampleForm none).planFor [⟨p2pkhScriptPubKey zeroHash, 900000⟩] 1) ≠ [] :=
    withChange_ne_nil (List.cons_ne_nil _ _) _ _
  rw [valueOut_signedTx, getMinFee_signedTx hkeys (List.cons_ne_nil _ _) houtputs, scriptLengths_long hkeys]
  decide

end CodexaCoin.Wallet
