import CodexaCoin.Validation.Audited
import CodexaCoin.Validation.Conservation

/-!
# Where amount arithmetic overflows

The largest amount is the largest `int64_t`, so that a sum of two amounts has no headroom. The audited functions of
`Validation/Audited.lean` make no sum outside the range exactly when the amounts that each of them gets to add up to at
most `MAX_MONEY`.
-/

namespace CodexaCoin

open Check Consensus CoinMap IndexChain Audit Audit.Run

/-! ## One transaction -/

def CTransaction.leadingValue (tx : CTransaction) (accepts : CTxOut → Bool) : Int :=
  ((tx.vout.takeWhile accepts).map (·.nValue)).sum

/-- What `CheckTransaction` asks of an output for itself. -/
def admitsOut (tx : CTransaction) (out : CTxOut) : Bool :=
  !(out.isEmpty && !tx.isCoinBase && !tx.isCoinStake) && moneyRange out.nValue

/-- What `CheckTxInputs` asks of an input for itself. -/
def admitsIn (E : Env) (m : CoinMap) (nSpendHeight : Nat) (nTimeTx : Int) (txin : CTxIn) : Bool :=
  match getCoin m txin.prevout with
  | none => false
  | some coin =>
    !((coin.fCoinBase || coin.fCoinStake) && decide ((nSpendHeight : Int) - coin.nHeight < inputMaturity E nTimeTx)) &&
      decide ((coin.nTime : Int) ≤ nTimeTx) && moneyRange coin.out.nValue

def leadingInput (E : Env) (m : CoinMap) (nSpendHeight : Nat) (tx : CTransaction) : Int :=
  ((tx.vin.takeWhile (admitsIn E m nSpendHeight (inputCheckTime E tx))).map (inputValue m)).sum

/-- Every coin of a view has a value in the money range. -/
def CoinMap.InRange (m : CoinMap) : Prop :=
  ∀ o c, m.lookup o = some c → moneyRange c.out.nValue = true

namespace Audited

section Tx

variable {E : Env} {tx : CTransaction} {m : CoinMap} {nSpendHeight : Nat} {nTimeTx : Int} {a : Int} {txin : CTxIn}

theorem moneyRange_of_lt (h0 : 0 ≤ a) (h1 : a < 2 ^ 63) : moneyRange a = true :=
  moneyRange_iff.2 ⟨h0, by have hmax : maxMoney = 2 ^ 63 - 1 := rfl; omega⟩

theorem range_of_moneyRange (h : moneyRange a = true) : 0 ≤ a ∧ a < 2 ^ 63 := by
  have hmax : maxMoney = 2 ^ 63 - 1 := rfl
  have hr := moneyRange_iff.1 h
  omega

theorem accumulates_addValueOut (l : List CTxOut) :
    Accumulates addValueOut (fun out => moneyRange out.nValue) (·.nValue) l where
  nonneg out _ hout := (range_of_moneyRange hout).1
  refused out _ hout s _ _ := by simp [addValueOut, hout]
  fits out _ hout s h0 _ := by
    have hr := range_of_moneyRange hout
    simp only [addValueOut, hout, if_true, fits_bind, fits_arith, fits_lift, result_arith]
    exact ⟨fun h => h.1.2, fun h => ⟨⟨by omega, h⟩, fun _ _ => ⟨trivial, fun _ _ => ⟨by omega, h⟩⟩⟩⟩
  adds out _ hout s h0 hsum := by
    have hr := range_of_moneyRange hout
    simp only [addValueOut, hout, if_true, result_bind, result_arith, result_lift, ok_bind]
    rw [wrap64_eq (by omega) hsum, moneyRange_of_lt (by omega) hsum]
    rfl

theorem fits_getValueOut : (getValueOut tx).Fits ↔ tx.leadingValue (fun out => moneyRange out.nValue) ≤ maxMoney := by
  have h := (accumulates_addValueOut tx.vout).fits_iff (le_refl 0) (by norm_num)
  have hmax : maxMoney = 2 ^ 63 - 1 := rfl
  rw [getValueOut, h, CTransaction.leadingValue]
  omega

theorem admitsOut_iff {out : CTxOut} : admitsOut tx out = true ↔
    (!(out.isEmpty && !tx.isCoinBase && !tx.isCoinStake)) = true ∧ decide (0 ≤ out.nValue) = true ∧
      decide (out.nValue ≤ maxMoney) = true := by
  rw [admitsOut, Bool.and_eq_true, moneyRange_iff, decide_eq_true_iff, decide_eq_true_iff]

theorem accumulates_checkTransactionOut (l : List CTxOut) :
    Accumulates (checkTransactionOut tx) (admitsOut tx) (·.nValue) l where
  nonneg out _ hout := (range_of_moneyRange (Bool.and_eq_true_iff.1 hout).2).1
  refused out _ hout s _ _ := by
    have hno : ¬ admitsOut tx out = true := by simp [hout]
    rw [admitsOut_iff] at hno
    constructor
    · simp only [checkTransactionOut, fits_bind, fits_lift, result_lift, require_eq_ok, true_and]
      exact fun _ h1 _ h2 _ h3 => absurd ⟨h1, h2, h3⟩ hno
    · intro v hv
      simp only [checkTransactionOut, result_bind, result_lift, require_bind_eq_ok] at hv
      exact hno ⟨hv.1, hv.2.1, hv.2.2.1⟩
  fits out _ hout s h0 _ := by
    have hr := range_of_moneyRange (Bool.and_eq_true_iff.1 hout).2
    obtain ⟨h1, h2, h3⟩ := admitsOut_iff.1 hout
    simp only [checkTransactionOut, h1, h2, h3, fits_bind, fits_arith, fits_lift, fits_pure, result_lift, require_true,
      true_and, implies_true, and_true]
    exact ⟨fun h => (h () trivial () trivial () trivial).2, fun h _ _ _ _ _ _ => ⟨by omega, h⟩⟩
  adds out _ hout s h0 hsum := by
    have hr := range_of_moneyRange (Bool.and_eq_true_iff.1 hout).2
    obtain ⟨h1, h2, h3⟩ := admitsOut_iff.1 hout
    simp only [checkTransactionOut, h1, h2, h3, result_bind, result_arith, result_lift, require_true, ok_bind]
    rw [wrap64_eq (by omega) hsum, moneyRange_of_lt (by omega) hsum]
    rfl

theorem fits_checkTransaction : (checkTransaction tx).Fits ↔
    (tx.vin ≠ [] ∧ (tx.serialize false).length * witnessScaleFactor ≤ maxBlockWeight →
      tx.leadingValue (admitsOut tx) ≤ maxMoney) := by
  have hmax : maxMoney = 2 ^ 63 - 1 := rfl
  have hloop : (tx.vout.foldlM (checkTransactionOut tx) 0).Fits ↔ tx.leadingValue (admitsOut tx) ≤ maxMoney := by
    rw [(accumulates_checkTransactionOut tx.vout).fits_iff (le_refl 0) (by norm_num), CTransaction.leadingValue]
    omega
  simp only [checkTransaction, fits_bind, fits_lift, result_lift, require_eq_ok, true_and, hloop, implies_true, and_true]
  constructor
  · rintro hfits ⟨hvin, hsize⟩
    cases hvout : tx.vout with
    | nil => simp [CTransaction.leadingValue, hvout, hmax]
    | cons out vout => exact hfits () (by simpa using hvin) () (by simp [hvout]) () (decide_eq_true hsize)
  · exact fun hsum _ hvin _ _ _ hsize => hsum ⟨by simpa using hvin, of_decide_eq_true hsize⟩

/-! ### Inputs -/

theorem admitsIn_iff (hm : m.InRange) : admitsIn E m nSpendHeight nTimeTx txin = true ↔
    ∃ coin, getCoin m txin.prevout = some coin ∧
      (!((coin.fCoinBase || coin.fCoinStake) &&
        decide ((nSpendHeight : Int) - coin.nHeight < inputMaturity E nTimeTx))) = true ∧
      decide ((coin.nTime : Int) ≤ nTimeTx) = true := by
  unfold admitsIn
  cases hcoin : getCoin m txin.prevout with
  | none => simp
  | some coin => simp [hm _ _ hcoin]

theorem inputValue_range (hm : m.InRange) {coin : Coin} (hcoin : getCoin m txin.prevout = some coin) :
    inputValue m txin = coin.out.nValue ∧ 0 ≤ coin.out.nValue ∧ coin.out.nValue < 2 ^ 63 :=
  ⟨inputValueOr_eq hcoin, range_of_moneyRange (hm _ _ hcoin)⟩

theorem accumulates_checkTxInput (hm : m.InRange) (l : List CTxIn) :
    Accumulates (checkTxInput E m nSpendHeight nTimeTx) (admitsIn E m nSpendHeight nTimeTx) (inputValue m) l where
  nonneg txin _ hin := by
    obtain ⟨coin, hcoin, -⟩ := (admitsIn_iff hm).1 hin
    obtain ⟨hval, hr⟩ := inputValue_range hm hcoin
    rw [hval]
    exact hr.1
  refused txin _ hin s h0 h1 := by
    have hno : ¬ admitsIn E m nSpendHeight nTimeTx txin = true := by simp [hin]
    rw [admitsIn_iff hm] at hno
    unfold checkTxInput
    cases hcoin : getCoin m txin.prevout with
    | none => simp
    | some coin =>
      constructor
      · simp only [fits_bind, fits_lift, result_lift, require_eq_ok, true_and]
        exact fun _ h1 _ h2 => absurd ⟨coin, hcoin, h1, h2⟩ hno
      · intro v hv
        simp only [result_bind, result_lift, require_bind_eq_ok] at hv
        exact hno ⟨coin, hcoin, hv.1, hv.2.1⟩
  fits txin _ hin s h0 _ := by
    obtain ⟨coin, hcoin, h1, h2⟩ := (admitsIn_iff hm).1 hin
    obtain ⟨hval, hr⟩ := inputValue_range hm hcoin
    simp only [checkTxInput, hcoin, h1, h2, fits_bind, fits_arith, fits_lift, fits_pure, result_lift, require_true,
      true_and, implies_true, and_true, hval]
    exact ⟨fun h => (h () trivial () trivial).2, fun h _ _ _ _ => ⟨by omega, h⟩⟩
  adds txin _ hin s h0 hsum := by
    obtain ⟨coin, hcoin, h1, h2⟩ := (admitsIn_iff hm).1 hin
    obtain ⟨hval, hr⟩ := inputValue_range hm hcoin
    rw [hval] at hsum ⊢
    simp only [checkTxInput, hcoin, h1, h2, result_bind, result_arith, result_lift, require_true, ok_bind]
    rw [wrap64_eq (by omega) hsum, moneyRange_of_lt (by omega) hsum, hm _ _ hcoin]
    rfl

theorem range_of_inputLoop {v : Int}
    (h : (tx.vin.foldlM (checkTxInput E m nSpendHeight nTimeTx) 0).result = .ok v) :
    0 ≤ v ∧ v < 2 ^ 63 ∧ tx.vin.all (admitsIn E m nSpendHeight nTimeTx) = true := by
  rw [result_foldlM (result_checkTxInput E m nSpendHeight nTimeTx)] at h
  obtain ⟨-, hrange, hall, -⟩ := checkTxInput_loop h
  have hr := range_of_moneyRange hrange
  refine ⟨hr.1, hr.2, List.all_eq_true.2 fun txin htxin => ?_⟩
  obtain ⟨coin, hcoin, hchecked⟩ := hall txin htxin
  unfold admitsIn getCoin
  rw [hcoin]
  simp only [Bool.and_eq_true, decide_eq_true_iff, hchecked.range, hchecked.time_le, and_true]
  cases hcb : (coin.fCoinBase || coin.fCoinStake) with
  | false => rfl
  | true => simpa using hchecked.mature hcb

/-- **`CheckTxInputs`**: the inputs, and the outputs when all the inputs are admitted. -/
theorem fits_checkTxInputs (hm : m.InRange) : (checkTxInputs E tx m nSpendHeight).Fits ↔
    (haveInputs m tx = true → leadingInput E m nSpendHeight tx ≤ maxMoney ∧
      (tx.isCoinStake = false → tx.vin.all (admitsIn E m nSpendHeight (inputCheckTime E tx)) = true →
        tx.leadingValue (fun out => moneyRange out.nValue) ≤ maxMoney)) := by
  have hacc : Accumulates (checkTxInput E m nSpendHeight (inputCheckTime E tx))
      (admitsIn E m nSpendHeight (inputCheckTime E tx)) (inputValue m) tx.vin := accumulates_checkTxInput hm tx.vin
  have hmax : maxMoney = 2 ^ 63 - 1 := rfl
  have hloop : (tx.vin.foldlM (checkTxInput E m nSpendHeight (inputCheckTime E tx)) 0).Fits ↔
      leadingInput E m nSpendHeight tx ≤ maxMoney := by
    rw [hacc.fits_iff (le_refl 0) (by norm_num), leadingInput]
    omega
  simp only [checkTxInputs, fits_bind, fits_lift, result_lift, require_eq_ok, true_and, hloop]
  constructor
  · intro h hhave
    obtain ⟨hin, hrest⟩ := h () hhave
    refine ⟨hin, fun hcs hall => ?_⟩
    have hv := hacc.result_eq (List.all_eq_true.1 hall) (le_refl 0) ?_
    · have hout := hrest _ hv
      rw [hcs, if_neg (by simp), fits_bind] at hout
      exact fits_getValueOut.1 hout.1
    · rw [leadingInput, List.takeWhile_eq_self_iff.2 (List.all_eq_true.1 hall)] at hin
      omega
  · rintro h ⟨⟩ hhave
    obtain ⟨hin, hout⟩ := h hhave
    refine ⟨hin, fun v hv => ?_⟩
    obtain ⟨hv0, hv1, hall⟩ := range_of_inputLoop hv
    cases hcs : tx.isCoinStake with
    | true => simp
    | false =>
      simp only [Bool.false_eq_true, if_false, fits_bind, fits_lift, fits_arith, fits_pure, result_lift, require_eq_ok,
        true_and, implies_true, and_true]
      refine ⟨fits_getValueOut.2 (hout hcs hall), fun vo hvo _ hle => ?_⟩
      rw [result_getValueOut] at hvo
      have hr := range_of_moneyRange (getValueOut_eq_ok hvo).2.1
      have hle := of_decide_eq_true hle
      omega

end Tx

end Audited

/-! ## One block -/

/-- No sum leaves the range in a round of the loop of `ConnectBlock`; `fees` are those of the transactions before, each
counted once. -/
structure RoundFits (E : Env) (chain : IndexChain) (flags : ScriptFlags) (fees : Int) (s : ConnectState)
    (tx : CTransaction) : Prop where
  inputs : haveInputs s.coins tx = true → leadingInput E s.coins (chain.length - 1) tx ≤ maxMoney
  once : (∃ fee, checkTxInputs E tx s.coins (chain.length - 1) = .ok fee) → 2 * fees + txFee s.coins tx ≤ maxMoney
  /-- The second addition of the fee is reached when the sequence locks and the signature operations pass. -/
  twice : (∃ fee, checkTxInputs E tx s.coins (chain.length - 1) = .ok fee) →
    sequenceLocks E.net tx (deploymentActiveAtCSV E.net (nHeight chain))
      (tx.vin.map fun txin => ((s.coins.lookup txin.prevout).map (·.nHeight)).getD 0) chain = .ok true →
    s.nSigOpsCost + getTransactionSigOpCost tx s.coins flags ≤ maxBlockSigopsCost →
      2 * fees + 2 * txFee s.coins tx ≤ maxMoney

open Audited (range_of_moneyRange inputValue_range)

section Round

variable {E : Env} {chain : IndexChain} {flags : ScriptFlags} {fees : Int} {s s' : ConnectState} {tx : CTransaction}
  {m : CoinMap} {nSpendHeight : Nat} {txs : List CTransaction}

/-- The state of the loop when no sum has left the range: `nFees` is twice the fees. -/
structure Tracks (fees : Int) (s : ConnectState) : Prop where
  nonneg : 0 ≤ fees
  le : 2 * fees ≤ maxMoney
  nFees : s.nFees = 2 * fees
  coins : s.coins.InRange

theorem fits_getValueOut_of_checked (h : CheckedTransaction tx) : (Audited.getValueOut tx).Fits := by
  rw [Audited.fits_getValueOut, CTransaction.leadingValue, List.takeWhile_eq_self_iff.2 h.out_range]
  exact (moneyRange_iff.1 h.total_range).2

theorem fits_getValueIn {fee : Int} (hm : m.InRange)
    (h : CheckedInputs E tx m nSpendHeight fee) : (Audited.getValueIn m tx).Fits := by
  unfold Audited.getValueIn
  cases tx.isCoinBase with
  | true => exact fits_pure 0
  | false =>
    refine (fits_sum fun txin htxin => ?_).2 (range_of_moneyRange h.range).2
    obtain ⟨coin, hcoin, -⟩ := h.inputs txin htxin
    obtain ⟨hval, hr⟩ := inputValue_range hm hcoin
    rw [hval]
    exact hr.1

theorem txFee_of_checked {fee : Int} (hcb : tx.isCoinBase = false)
    (h : CheckedInputs E tx m nSpendHeight fee) : fee = txFee m tx ∧ 0 ≤ txFee m tx ∧ txFee m tx < 2 ^ 63 := by
  unfold txFee
  rw [hcb, Bool.false_or]
  cases hcs : tx.isCoinStake with
  | true => exact ⟨h.coinStake_fee hcs, by simp, by simp⟩
  | false =>
    obtain ⟨hle, hfee, hvo⟩ := h.covered hcs
    have hin := range_of_moneyRange h.range
    have hout := range_of_moneyRange (getValueOut_eq_ok hvo).2.1
    simp only [Bool.false_eq_true, if_false]
    omega

theorem fits_connectValues (hcb : tx.isCoinBase = false) (htx : CheckedTransaction tx) (hm : s.coins.InRange)
    {fee nFees : Int} (hin : checkTxInputs E tx s.coins (chain.length - 1) = .ok fee) (h0 : 0 ≤ nFees) :
    (Audited.connectValues E flags s nFees tx).Fits ↔ (tx.isCoinStake = false → nFees + fee < 2 ^ 63) := by
  have hchecked := checkTxInputs_eq_ok hin
  have hi := range_of_moneyRange hchecked.range
  have ho := range_of_moneyRange htx.total_range
  unfold Audited.connectValues
  simp only [hcb, Bool.false_eq_true, if_false, fits_bind, fits_mapResult, result_mapResult, Audited.result_getValueOut,
    Audited.result_getValueIn, getValueIn_eq hcb hin, fits_getValueOut_of_checked htx, fits_getValueIn hm hchecked,
      true_and]
  cases hcs : tx.isCoinStake with
  | true =>
    simp only [Bool.true_eq_false, if_true, false_implies, iff_true]
    intro vo hvo vi hvi
    cases hvi
    cases (getValueOut_eq_ok (TxCheck.toBlock_eq_ok.1 hvo)).1
    simp only [fits_bind, fits_arith, fits_pure, fits_lift, implies_true, and_true]
    omega
  | false =>
    obtain ⟨hle, rfl, hvo⟩ := hchecked.covered hcs
    have hsub : wrap64 (s.coins.valueIn tx - tx.valueOut) = s.coins.valueIn tx - tx.valueOut :=
      wrap64_eq (by omega) (by omega)
    simp only [TxCheck.toBlock_eq_ok.2 hvo, Except.ok.injEq, forall_eq', Bool.false_eq_true, if_false, fits_bind,
      fits_arith, fits_pure, fits_lift, result_arith, implies_true, and_true, hsub, true_implies]
    omega

theorem fits_connectInputs (hcb : tx.isCoinBase = false) (htx : CheckedTransaction tx) (hs : Tracks fees s) :
    (Audited.connectInputs E chain s tx).Fits ↔
      (haveInputs s.coins tx = true → leadingInput E s.coins (chain.length - 1) tx ≤ maxMoney) ∧
      ((∃ fee, checkTxInputs E tx s.coins (chain.length - 1) = .ok fee) → 2 * fees + txFee s.coins tx ≤ maxMoney) := by
  have hmax : maxMoney = 2 ^ 63 - 1 := rfl
  obtain ⟨h0, hle, hnFees, hcoins⟩ := hs
  have hin : (Audited.checkTxInputs E tx s.coins (chain.length - 1)).Fits ↔
      (haveInputs s.coins tx = true → leadingInput E s.coins (chain.length - 1) tx ≤ maxMoney) := by
    rw [Audited.fits_checkTxInputs hcoins]
    refine forall_congr' fun _ => and_iff_left fun _ _ => ?_
    exact Audited.fits_getValueOut.1 (fits_getValueOut_of_checked htx)
  unfold Audited.connectInputs
  simp only [hcb, Bool.false_eq_true, if_false, fits_bind, fits_mapResult, result_mapResult, fits_arith, fits_lift,
    fits_pure, implies_true, and_true, Audited.result_checkTxInputs, TxCheck.toBlock_eq_ok, hin, hnFees]
  refine and_congr_right fun _ => ⟨?_, ?_⟩
  · rintro hsum ⟨fee, hfee⟩
    have hrange := txFee_of_checked hcb (checkTxInputs_eq_ok hfee)
    have hadd := hsum fee hfee
    omega
  · intro hsum fee hfee
    have hrange := txFee_of_checked hcb (checkTxInputs_eq_ok hfee)
    have hadd := hsum ⟨fee, hfee⟩
    omega

theorem connectInputs_eq_ok_iff (hcb : tx.isCoinBase = false) (hs : Tracks fees s)
    (honce : (∃ fee, checkTxInputs E tx s.coins (chain.length - 1) = .ok fee) →
      2 * fees + txFee s.coins tx ≤ maxMoney) {n : Int} :
    connectInputs E chain s tx = .ok n ↔
      checkTxInputs E tx s.coins (chain.length - 1) = .ok (txFee s.coins tx) ∧ n = 2 * fees + txFee s.coins tx ∧
      sequenceLocks E.net tx (deploymentActiveAtCSV E.net (nHeight chain))
        (tx.vin.map fun txin => ((s.coins.lookup txin.prevout).map (·.nHeight)).getD 0) chain = .ok true := by
  have hmax : maxMoney = 2 ^ 63 - 1 := rfl
  obtain ⟨h0, hle, hnFees, -⟩ := hs
  unfold connectInputs
  rw [hcb, if_neg (by simp)]
  simp only [bind_eq_ok, require_eq_ok, TxCheck.toBlock_eq_ok]
  constructor
  · rintro ⟨fee, hfee, -, -, final, hfinal, -, rfl, h⟩
    obtain ⟨rfl, hfee0, hfee1⟩ := txFee_of_checked hcb (checkTxInputs_eq_ok hfee)
    have hsum := honce ⟨_, hfee⟩
    cases h
    refine ⟨hfee, ?_, hfinal⟩
    rw [hnFees, wrap64_eq (by omega) (by omega)]
  · rintro ⟨hfee, rfl, hfinal⟩
    obtain ⟨-, hfee0, hfee1⟩ := txFee_of_checked hcb (checkTxInputs_eq_ok hfee)
    have hsum := honce ⟨_, hfee⟩
    refine ⟨_, hfee, (), ?_, true, hfinal, (), rfl, ?_⟩
    · rw [hnFees, wrap64_eq (by omega) (by omega)]
      exact moneyRange_iff.2 ⟨by omega, hsum⟩
    · rw [hnFees, wrap64_eq (by omega) (by omega)]

/-- **A round of the loop fits** exactly when its sums do. -/
theorem fits_connectTx (hcb : tx.isCoinBase = false) (htx : CheckedTransaction tx) (hs : Tracks fees s) :
    (Audited.connectTx E chain flags s tx).Fits ↔ RoundFits E chain flags fees s tx := by
  have hmax : maxMoney = 2 ^ 63 - 1 := rfl
  simp only [Audited.connectTx, fits_bind, fits_lift, fits_pure, result_lift, require_eq_ok, implies_true, and_true,
    true_and, Audited.result_connectInputs, fits_connectInputs hcb htx hs]
  constructor
  · rintro ⟨⟨hin, honce⟩, hrest⟩
    refine ⟨hin, honce, fun hchecked hfinal hcost => ?_⟩
    obtain ⟨fee, hfee⟩ := hchecked
    obtain ⟨rfl, hfee0, -⟩ := txFee_of_checked hcb (checkTxInputs_eq_ok hfee)
    have hvalues := hrest _ ((connectInputs_eq_ok_iff hcb hs honce).2 ⟨hfee, rfl, hfinal⟩) () (decide_eq_true hcost)
    have hnonneg := hs.nonneg
    have hle := hs.le
    rw [fits_connectValues hcb htx hs.coins hfee (by omega)] at hvalues
    cases hcs : tx.isCoinStake with
    | false => have := hvalues hcs; omega
    | true => simp only [txFee, hcs, Bool.or_true, if_true]; omega
  · rintro ⟨hin, honce, htwice⟩
    refine ⟨⟨hin, honce⟩, fun n hn _ hcost => ?_⟩
    obtain ⟨hfee, rfl, hfinal⟩ := (connectInputs_eq_ok_iff hcb hs honce).1 hn
    obtain ⟨-, hfee0, -⟩ := txFee_of_checked hcb (checkTxInputs_eq_ok hfee)
    have hnonneg := hs.nonneg
    have hsum := htwice ⟨_, hfee⟩ hfinal (of_decide_eq_true hcost)
    exact (fits_connectValues hcb htx hs.coins hfee (by omega)).2 fun _ => by omega

theorem inRange_apply {C : Crypto} {nHeight : Nat} (htx : CheckedTransaction tx) (hm : m.InRange) :
    CoinMap.InRange ((tx.entry C nHeight).apply m) := by
  refine Ledger.forall_apply (P := fun _ (c : Coin) => moneyRange c.out.nValue = true) hm fun kv hkv => ?_
  obtain ⟨out, hmem, hnew⟩ := newItems_coin hkv
  rw [(newCoin_eq_some hnew).2.1]
  exact htx.out_range out hmem

theorem Tracks.step (hcb : tx.isCoinBase = false) (htx : CheckedTransaction tx) (hs : Tracks fees s)
    (hfits : RoundFits E chain flags fees s tx) (h : connectTx E chain flags s tx = .ok s') :
    s'.coins = (tx.entry E.crypto (chain.length - 1)).apply s.coins ∧ Tracks (fees + txFee s.coins tx) s' := by
  have hmax : maxMoney = 2 ^ 63 - 1 := rfl
  obtain ⟨hcoins, -⟩ := connectTx_ledger hcb h
  refine ⟨hcoins, ?_⟩
  obtain ⟨n, hn, hrest⟩ := bind_eq_ok.1 h
  obtain ⟨hfee, rfl, hfinal⟩ := (connectInputs_eq_ok_iff hcb hs hfits.once).1 hn
  obtain ⟨hcost, hrest⟩ := require_bind_eq_ok.1 hrest
  obtain ⟨-, hfee0, -⟩ := txFee_of_checked hcb (checkTxInputs_eq_ok hfee)
  have hsum := hfits.twice ⟨_, hfee⟩ hfinal (of_decide_eq_true hcost)
  have hnonneg := hs.nonneg
  obtain ⟨-, -, hstep⟩ := connectTx_eq_ok h
  obtain ⟨fee, hfee', hstep⟩ := hstep hcb
  rw [hfee] at hfee'
  cases hfee'
  refine ⟨by omega, by omega, ?_, ?_⟩
  · cases hcs : tx.isCoinStake with
    | true =>
      have hzero : txFee s.coins tx = 0 := by simp [txFee, hcs]
      rw [(hstep.coinStake hcs).1, hs.nFees, wrap64_eq (by omega) (by omega)]
      omega
    | false =>
      rw [(hstep.ordinary hcs).1, hs.nFees, wrap64_eq (x := 2 * fees + txFee s.coins tx) (by omega) (by omega),
        wrap64_eq (by omega) (by omega)]
      omega
  · rw [hcoins]
    exact inRange_apply htx hs.coins

/-- **The loop fits** exactly when every round that it reaches does. -/
theorem fits_connectLoop (hcb : ∀ tx ∈ txs, tx.isCoinBase = false)
    (htxs : ∀ tx ∈ txs, CheckedTransaction tx) (hs : Tracks fees s) :
    (txs.foldlM (Audited.connectTx E chain flags) s).Fits ↔
      ∀ done tx rest, txs = done ++ tx :: rest → ∀ s', done.foldlM (connectTx E chain flags) s = .ok s' →
        RoundFits E chain flags (fees + blockFees E.crypto (chain.length - 1) s.coins done) s' tx := by
  induction txs generalizing s fees with
  | nil => exact ⟨fun _ done tx rest h => absurd h.symm (by simp), fun _ => fits_pure s⟩
  | cons tx txs ih =>
    have htx := htxs tx List.mem_cons_self
    have hcbtx := hcb tx List.mem_cons_self
    have hcb' : ∀ tx' ∈ txs, tx'.isCoinBase = false := fun tx' h => hcb tx' (List.mem_cons_of_mem tx h)
    have htxs' : ∀ tx' ∈ txs, CheckedTransaction tx' := fun tx' h => htxs tx' (List.mem_cons_of_mem tx h)
    rw [List.foldlM_cons, fits_bind, fits_connectTx hcbtx htx hs]
    constructor
    · rintro ⟨hround, hrest⟩ done tx' rest heq s' hs'
      cases done with
      | nil =>
        cases heq
        cases hs'
        simpa [blockFees, Ledger.sumReplay] using hround
      | cons tx'' done =>
        cases heq
        obtain ⟨s1, h1, h2⟩ := foldlM_cons_eq_ok.1 hs'
        obtain ⟨hcoins, hs1⟩ := hs.step hcbtx htx hround h1
        have hfits := (ih hcb' htxs' hs1).1
          (hrest s1 (by rw [Audited.result_connectTx]; exact h1)) done tx' rest rfl s' h2
        rw [hcoins] at hfits
        simpa only [blockFees, Ledger.sumReplay, add_assoc] using hfits
    · intro hall
      have hround : RoundFits E chain flags fees s tx := by
        simpa [blockFees, Ledger.sumReplay] using hall [] tx txs rfl s rfl
      refine ⟨hround, fun s1 h1 => ?_⟩
      rw [Audited.result_connectTx] at h1
      obtain ⟨hcoins, hs1⟩ := hs.step hcbtx htx hround h1
      refine (ih hcb' htxs' hs1).2 fun done tx' rest heq s' hs' => ?_
      have hfits := hall (tx :: done) tx' rest (by rw [heq]; rfl) s' (foldlM_cons_eq_ok.2 ⟨s1, h1, hs'⟩)
      rw [hcoins]
      simpa only [blockFees, Ledger.sumReplay, add_assoc] using hfits

theorem Tracks.loop (hcb : ∀ tx ∈ txs, tx.isCoinBase = false)
    (htxs : ∀ tx ∈ txs, CheckedTransaction tx) (hs : Tracks fees s)
    (hfits : (txs.foldlM (Audited.connectTx E chain flags) s).Fits)
    (h : txs.foldlM (connectTx E chain flags) s = .ok s') :
    Tracks (fees + blockFees E.crypto (chain.length - 1) s.coins txs) s' := by
  induction txs generalizing s fees with
  | nil =>
    cases h
    simpa [blockFees, Ledger.sumReplay] using hs
  | cons tx txs ih =>
    obtain ⟨s1, h1, h2⟩ := foldlM_cons_eq_ok.1 h
    rw [List.foldlM_cons, fits_bind, fits_connectTx (hcb tx List.mem_cons_self) (htxs tx List.mem_cons_self) hs] at hfits
    obtain ⟨hcoins, hs1⟩ := hs.step (hcb tx List.mem_cons_self) (htxs tx List.mem_cons_self) hfits.1 h1
    have hloop := ih (fun tx' h => hcb tx' (List.mem_cons_of_mem tx h))
      (fun tx' h => htxs tx' (List.mem_cons_of_mem tx h))
      hs1 (hfits.2 s1 (by rw [Audited.result_connectTx]; exact h1)) h2
    rw [hcoins] at hloop
    simpa only [blockFees, Ledger.sumReplay, add_assoc] using hloop

end Round

/-- What `ConnectBlock` has passed when it gets to its loop. -/
structure EntersLoop (E : Env) (block : CBlock) (pindex : CBlockIndex) (pprev : IndexChain) (view : CCoinsView)
    (fJustCheck : Bool) : Prop where
  hash : (pindex.hash == block.getHash E.crypto) = true
  hardened : (!E.checkpointsEnabled || E.checkHardened pprev.length (block.getHash E.crypto)) = true
  checked : checkBlock E block (nHeight pprev) (!fJustCheck) (!fJustCheck) true = .ok ()
  best : ((pprev.head?.map (·.hash)).getD 0 == view.hashBlock) = true
  stake : ∃ nMaxStakeReward, connectStake E block pprev view = .ok nMaxStakeReward
  notGenesis : block.getHash E.crypto ≠ E.net.hashGenesisBlock E.crypto
  fresh : noOverwrite E block view = true

/-- No sum of the loop and of the reward leaves the range. -/
structure BlockFits (E : Env) (block : CBlock) (pindex : CBlockIndex) (pprev : IndexChain) (view : CCoinsView) :
    Prop where
  rounds : ∀ done tx rest, block.vtx = done ++ tx :: rest → tx.isCoinBase = false → ∀ s,
    done.foldlM (connectTx E (pindex :: pprev) (getBlockScriptFlags E.net pindex pprev)) { coins := view.coins } = .ok s →
      RoundFits E (pindex :: pprev) (getBlockScriptFlags E.net pindex pprev)
        (blockFees E.crypto pprev.length view.coins done) s tx
  reward : (block.isProofOfStake = true → E.net.params.isProtocolV3 block.nTime = true) → ∀ s,
    block.vtx.foldlM (connectTx E (pindex :: pprev) (getBlockScriptFlags E.net pindex pprev)) { coins := view.coins } =
        .ok s →
      2 * blockFees E.crypto pprev.length view.coins block.vtx + rewardCap E.net pprev view.coins block ≤ maxMoney

section Block

variable {E : Env} {block : CBlock} {pindex : CBlockIndex} {pprev : IndexChain} {view : CCoinsView} {fJustCheck : Bool}
  {tx0 : CTransaction}

theorem sum_inputReward_le_utxoTotal {net : Network} {m : CoinMap} {t : Nat} {vin : List CTxIn} (hm : m.InRange)
    (hnodup : (vin.map (·.prevout)).Nodup) : (vin.map (inputReward net pprev m t)).sum ≤ utxoTotal m := by
  have hle : (vin.map (inputReward net pprev m t)).sum ≤ (vin.map (coinValue m)).sum := by
    refine List.sum_le_sum fun txin _ => ?_
    have hrange : 0 ≤ coinValue m txin ∧ coinValue m txin ≤ maxMoney := by
      cases hc : m.lookup txin.prevout with
      | none =>
        rw [coinValue, inputValueOr, hc]
        decide
      | some c =>
        rw [coinValue, inputValueOr_eq hc]
        exact moneyRange_iff.1 (hm _ c hc)
    exact inputReward_le_coinValue net hrange.1 hrange.2
  refine hle.trans ?_
  have hsum : ((vin.map (·.prevout)).map fun o => ((m.lookup o).map Coin.value).getD 0).sum ≤ utxoTotal m :=
    FinmapSum.sum_lookup_le_wsum hnodup fun o c hc => (range_of_moneyRange (hm o c hc)).1
  rwa [List.map_map] at hsum

theorem fits_connectStake (hm : view.coins.InRange) (htotal : utxoTotal view.coins ≤ maxMoney)
    (hblock : CheckedBlock E block) : (Audited.connectStake E block pprev view).Fits := by
  unfold Audited.connectStake
  split
  · split
    · next tx0 tx1 rest hvtx =>
      simp only [fits_bind, fits_lift, true_and]
      intro _ _
      have htx1 := hblock.txs tx1 (by simp [hvtx])
      refine (fits_sum fun txin _ => inputReward_nonneg E.net pprev view.coins _ txin).2 ?_
      exact lt_of_le_of_lt ((sum_inputReward_le_utxoTotal hm htx1.nodup).trans htotal) (by decide)
    · exact fits_pure 0
  · exact fits_pure 0

theorem rewardCap_nonneg_of_total (hm : view.coins.InRange) (htotal : utxoTotal view.coins ≤ maxMoney)
    (hblock : CheckedBlock E block) : 0 ≤ rewardCap E.net pprev view.coins block := by
  unfold rewardCap
  cases hpos : block.isProofOfStake with
  | false =>
    have hsubsidy := getBlockSubsidy_nonneg E.net pprev.length
    simpa using hsubsidy
  | true =>
    obtain ⟨tx0, tx1, rest, hvtx, -⟩ := hblock.stake hpos
    have htx1 := hblock.txs tx1 (by simp [hvtx])
    have hle : (tx1.vin.map (inputReward E.net pprev view.coins (txTimeIn block tx1))).sum ≤ maxMoney :=
      (sum_inputReward_le_utxoTotal hm htx1.nodup).trans htotal
    simp only [hvtx, if_true, List.getElem?_cons_succ, List.getElem?_cons_zero]
    rw [getCoinstakeMaxReward_eq E.net hle]
    refine List.sum_nonneg fun x hx => ?_
    obtain ⟨txin, -, rfl⟩ := List.mem_map.1 hx
    exact inputReward_nonneg E.net pprev view.coins _ txin

theorem fits_checkRewards {fees nMax cap : Int} {s : ConnectState} (hs : Tracks fees s) (hblock : CheckedBlock E block)
    (hcap : 0 ≤ cap) (hpow : block.isProofOfStake = false → cap = getBlockSubsidy E.net pprev.length)
    (hnMax : block.isProofOfStake = true → E.net.params.isProtocolV3 block.nTime = true → nMax = cap) :
    (Audited.checkRewards E block pprev nMax s).Fits ↔
      ((block.isProofOfStake = true → E.net.params.isProtocolV3 block.nTime = true) → 2 * fees + cap ≤ maxMoney) := by
  have hmax : maxMoney = 2 ^ 63 - 1 := rfl
  have hnonneg := hs.nonneg
  obtain ⟨tx0, rest, hvtx, -, -⟩ := hblock.head
  have hout := fits_getValueOut_of_checked (hblock.txs tx0 (by simp [hvtx]))
  unfold Audited.checkRewards
  cases hpos : block.isProofOfStake with
  | false =>
    have hfits : ((2 * fees + cap : Int) ≤ maxMoney) ↔ -2 ^ 63 ≤ 2 * fees + cap ∧ 2 * fees + cap < 2 ^ 63 := by omega
    rw [hpow hpos] at hfits ⊢
    simp [hvtx, hs.nFees, hout, hfits]
  | true =>
    cases hv3 : E.net.params.isProtocolV3 block.nTime with
    | false => simp
    | true =>
      have hfits : ((2 * fees + cap : Int) ≤ maxMoney) ↔ -2 ^ 63 ≤ 2 * fees + cap ∧ 2 * fees + cap < 2 ^ 63 := by omega
      rw [hnMax hpos hv3]
      simp [hs.nFees, hfits]

theorem connectTx_coinbase {s1 : ConnectState} {flags : ScriptFlags} (hcb : tx0.isCoinBase = true)
    (htx0 : CheckedTransaction tx0) (hm : view.coins.InRange)
    (hnew : ∀ j < tx0.vout.length, (⟨tx0.getHash E.crypto, j⟩ : COutPoint) ∉ view.coins)
    (h : connectTx E (pindex :: pprev) flags { coins := view.coins } tx0 = .ok s1) :
    s1.coins = (tx0.entry E.crypto pprev.length).apply view.coins ∧ Tracks 0 s1 := by
  obtain ⟨undo, hcoins, -⟩ := connectTx_entry (fun _ => hnew) h
  refine ⟨hcoins, le_refl 0, by decide, ((connectTx_eq_ok h).2.1 hcb).1, ?_⟩
  rw [hcoins]
  exact inRange_apply htx0 hm

theorem fits_blockLoop (pindex : CBlockIndex) (pprev : IndexChain) (flags : ScriptFlags)
    {rest : List CTransaction} (hm : view.coins.InRange) (hcb : tx0.isCoinBase = true)
      (hrest : ∀ tx ∈ rest, tx.isCoinBase = false)
    (htxs : ∀ tx ∈ tx0 :: rest, CheckedTransaction tx)
    (hnew : ∀ j < tx0.vout.length, (⟨tx0.getHash E.crypto, j⟩ : COutPoint) ∉ view.coins) :
    ((tx0 :: rest).foldlM (Audited.connectTx E (pindex :: pprev) flags) { coins := view.coins }).Fits ↔
      ∀ done tx post, tx0 :: rest = done ++ tx :: post → tx.isCoinBase = false → ∀ s,
        done.foldlM (connectTx E (pindex :: pprev) flags) { coins := view.coins } = .ok s →
          RoundFits E (pindex :: pprev) flags (blockFees E.crypto pprev.length view.coins done) s tx := by
  have htx0 := htxs tx0 List.mem_cons_self
  have htxs' : ∀ tx ∈ rest, CheckedTransaction tx := fun tx htx => htxs tx (List.mem_cons_of_mem tx0 htx)
  have hfits0 : (Audited.connectTx E (pindex :: pprev) flags { coins := view.coins } tx0).Fits := by
    simp [Audited.connectTx, Audited.connectInputs, Audited.connectValues, hcb]
  have hfees : ∀ done, blockFees E.crypto pprev.length view.coins (tx0 :: done) =
      blockFees E.crypto pprev.length ((tx0.entry E.crypto pprev.length).apply view.coins) done := fun done =>
    (sumReplay_coinbase hcb E.crypto pprev.length view.coins done).1
  rw [List.foldlM_cons, fits_bind, Audited.result_connectTx]
  constructor
  · rintro ⟨-, hloop⟩ done tx post heq htx s hs
    cases done with
    | nil =>
      cases heq
      exact absurd (hcb.symm.trans htx) (by simp)
    | cons tx' done =>
      cases heq
      obtain ⟨s1, h1, h2⟩ := foldlM_cons_eq_ok.1 hs
      obtain ⟨hcoins, hs1⟩ := connectTx_coinbase hcb htx0 hm hnew h1
      have hround := (fits_connectLoop hrest htxs' hs1).1 (hloop s1 h1) done tx post rfl s h2
      rw [hcoins, zero_add] at hround
      rw [hfees]
      exact hround
  · refine fun hall => ⟨hfits0, fun s1 h1 => ?_⟩
    obtain ⟨hcoins, hs1⟩ := connectTx_coinbase hcb htx0 hm hnew h1
    refine (fits_connectLoop hrest htxs' hs1).2 fun done tx post heq s hs => ?_
    have hround := hall (tx0 :: done) tx post (by rw [heq]; rfl) (hrest tx (by simp [heq])) s
      (foldlM_cons_eq_ok.2 ⟨s1, h1, hs⟩)
    rw [hfees] at hround
    rw [hcoins, zero_add]
    exact hround

theorem fits_connectBody {nMax : Int} (hm : view.coins.InRange) (htotal : utxoTotal view.coins ≤ maxMoney)
    (hblock : CheckedBlock E block) (hstake : connectStake E block pprev view = .ok nMax) :
    (Audited.connectBody E block pindex pprev view nMax fJustCheck).Fits ↔
      (noOverwrite E block view = true → BlockFits E block pindex pprev view) := by
  obtain ⟨tx0, rest, hvtx, hcb, hrest⟩ := hblock.head
  have htxs : ∀ tx ∈ tx0 :: rest, CheckedTransaction tx := fun tx htx => hblock.txs tx (hvtx ▸ htx)
  have hloop : (block.vtx.foldlM (Audited.connectTx E (pindex :: pprev) (getBlockScriptFlags E.net pindex pprev))
      { coins := view.coins }).result =
      block.vtx.foldlM (connectTx E (pindex :: pprev) (getBlockScriptFlags E.net pindex pprev)) { coins := view.coins } :=
    result_foldlM (fun s tx => Audited.result_connectTx E tx _ _ s) block.vtx _
  unfold Audited.connectBody
  simp only [fits_bind, fits_lift, fits_pure, result_lift, require_eq_ok, true_and, implies_true, and_true, hloop,
    forall_const]
  refine forall_congr' fun hfresh => ?_
  have hnew := noOverwrite_iff.1 hfresh tx0 (by simp [hvtx])
  have hrounds := fits_blockLoop pindex pprev (getBlockScriptFlags E.net pindex pprev) hm hcb hrest htxs hnew
  rw [← hvtx] at hrounds
  -- the fees after a loop that fits
  have htracks : (block.vtx.foldlM (Audited.connectTx E (pindex :: pprev) (getBlockScriptFlags E.net pindex pprev))
      { coins := view.coins }).Fits → ∀ s, block.vtx.foldlM (connectTx E (pindex :: pprev)
        (getBlockScriptFlags E.net pindex pprev)) { coins := view.coins } = .ok s →
      Tracks (blockFees E.crypto pprev.length view.coins block.vtx) s := by
    intro hfits s hs
    rw [hvtx] at hfits hs ⊢
    obtain ⟨s1, h1, h2⟩ := foldlM_cons_eq_ok.1 hs
    obtain ⟨hcoins, hs1⟩ := connectTx_coinbase hcb (htxs tx0 List.mem_cons_self) hm hnew h1
    rw [List.foldlM_cons, fits_bind, Audited.result_connectTx] at hfits
    have htrack := hs1.loop hrest (fun tx htx => htxs tx (List.mem_cons_of_mem tx0 htx)) (hfits.2 s1 h1) h2
    rw [hcoins, zero_add] at htrack
    rw [(sumReplay_coinbase hcb E.crypto pprev.length view.coins rest).1]
    exact htrack
  have hrewards : ∀ fees s, Tracks fees s → ((Audited.checkRewards E block pprev nMax s).Fits ↔
      ((block.isProofOfStake = true → E.net.params.isProtocolV3 block.nTime = true) →
        2 * fees + rewardCap E.net pprev view.coins block ≤ maxMoney)) := fun fees s hs =>
    fits_checkRewards hs hblock (rewardCap_nonneg_of_total hm htotal hblock) (fun hpow => by simp [rewardCap, hpow])
      fun hpos hv3 => connectStake_eq_rewardCap hblock hpos hv3 hstake
  constructor
  · rintro ⟨hfits, hreward⟩
    exact ⟨hrounds.1 hfits, fun hv3 s hs => (hrewards _ s (htracks hfits s hs)).1 (hreward s hs) hv3⟩
  · rintro ⟨hround, hreward⟩
    have hfits := hrounds.2 hround
    exact ⟨hfits, fun s hs => (hrewards _ s (htracks hfits s hs)).2 fun hv3 => hreward hv3 s hs⟩

/-- **`ConnectBlock`**: the sums of its loop and of its reward check. -/
theorem Audited.fits_connectBlock (hm : view.coins.InRange) (htotal : utxoTotal view.coins ≤ maxMoney) :
    (Audited.connectBlock E block pindex pprev view fJustCheck).Fits ↔
      (EntersLoop E block pindex pprev view fJustCheck → BlockFits E block pindex pprev view) := by
  unfold Audited.connectBlock
  simp only [fits_bind, fits_lift, result_lift, require_eq_ok, true_and, Audited.result_connectStake]
  constructor
  · rintro hfits ⟨hhash, hhard, hcheck, hbest, ⟨nMax, hstake⟩, hgenesis, hfresh⟩
    have hbody := (hfits () hhash () hhard () (by rw [hcheck]; rfl) () hbest).2 nMax hstake
    rw [if_neg hgenesis, fits_connectBody hm htotal (checkBlock_eq_ok E hcheck) hstake] at hbody
    exact hbody hfresh
  · intro hfits _ hhash _ hhard _ hcheck _ hbest
    have hcheck := corruptIsFatal_eq_ok hcheck
    have hblock := checkBlock_eq_ok E hcheck
    refine ⟨fits_connectStake hm htotal hblock, fun nMax hstake => ?_⟩
    by_cases hgenesis : block.getHash E.crypto = E.net.hashGenesisBlock E.crypto
    · rw [if_pos hgenesis]
      exact fits_pure _
    · rw [if_neg hgenesis, fits_connectBody hm htotal hblock hstake]
      exact fun hfresh => hfits ⟨hhash, hhard, hcheck, hbest, ⟨nMax, hstake⟩, hgenesis, hfresh⟩

theorem no_overflow_iff (E : Env) (tx : CTransaction) (nSpendHeight : Nat) (block : CBlock) (pindex : CBlockIndex)
    (pprev : IndexChain) (view : CCoinsView) (fJustCheck : Bool) (hm : view.coins.InRange)
    (htotal : utxoTotal view.coins ≤ maxMoney) :
    ((Audited.checkTransaction tx).Fits ↔
      (tx.vin ≠ [] ∧ (tx.serialize false).length * witnessScaleFactor ≤ maxBlockWeight →
        tx.leadingValue (admitsOut tx) ≤ maxMoney)) ∧
    ((Audited.getValueOut tx).Fits ↔ tx.leadingValue (fun out => moneyRange out.nValue) ≤ maxMoney) ∧
    ((Audited.checkTxInputs E tx view.coins nSpendHeight).Fits ↔
      (haveInputs view.coins tx = true → leadingInput E view.coins nSpendHeight tx ≤ maxMoney ∧
        (tx.isCoinStake = false → tx.vin.all (admitsIn E view.coins nSpendHeight (inputCheckTime E tx)) = true →
          tx.leadingValue (fun out => moneyRange out.nValue) ≤ maxMoney))) ∧
    ((Audited.connectBlock E block pindex pprev view fJustCheck).Fits ↔
      (EntersLoop E block pindex pprev view fJustCheck → BlockFits E block pindex pprev view)) :=
  ⟨Audited.fits_checkTransaction, Audited.fits_getValueOut, Audited.fits_checkTxInputs hm,
    Audited.fits_connectBlock hm htotal⟩

end Block

/-! ## Two concrete transactions -/

theorem paymentView_inRange : (paymentView [0x51] 0).coins.InRange := by
  intro o c hc
  by_cases ho : o = ⟨1, 0⟩
  · subst ho
    cases hc
    decide
  · have hnone : (paymentView [0x51] 0).coins.lookup o = none :=
      Finmap.lookup_eq_none.2 fun hmem => ho ((Finmap.mem_singleton _ _ _).1 hmem)
    rw [hnone] at hc
    cases hc

theorem paymentTx_fits : (paymentView [0x51] 0).coins.InRange ∧ utxoTotal (paymentView [0x51] 0).coins ≤ maxMoney ∧
    (Audited.checkTransaction paymentTx).Fits ∧ (Audited.getValueOut paymentTx).Fits ∧
    (Audited.checkTxInputs (.sample .main 1785326464) paymentTx (paymentView [0x51] 0).coins 1).Fits := by
  have htotal : utxoTotal (paymentView [0x51] 0).coins ≤ maxMoney := by decide +kernel
  obtain ⟨hcheck, hvalue, hinputs, -⟩ := no_overflow_iff (.sample .main 1785326464) paymentTx 1 (paymentBlock 0 paymentTx)
    (paymentIndex 0 paymentTx) paymentChain (paymentView [0x51] 0) false paymentView_inRange htotal
  exact ⟨paymentView_inRange, htotal, hcheck.2 fun _ => by decide, hvalue.2 (by decide),
    hinputs.2 fun _ => ⟨by decide +kernel, fun _ _ => by decide⟩⟩

/-- A transaction with an output of `MAX_MONEY` and one of a single satoshi. -/
def overflowTx : CTransaction where
  vin := [{ prevout := ⟨1, 0⟩ }]
  vout := [⟨maxMoney, [0x51]⟩, ⟨1, [0x51]⟩]

/-- **Two valid amounts overflow** in `CheckTransaction` and in `GetValueOut`. -/
theorem overflowTx_not_fits :
    (∀ out ∈ overflowTx.vout, moneyRange out.nValue = true) ∧ ¬ (Audited.checkTransaction overflowTx).Fits ∧
      ¬ (Audited.getValueOut overflowTx).Fits := by
  refine ⟨by decide, by decide +kernel, by decide⟩

end CodexaCoin
