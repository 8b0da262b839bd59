import CodexaCoin.Consensus.TxVerify

/-!
# Proof of stake

`pos.cpp` and the subsidy functions of `validation.cpp`: the stake modifier, the kernel check and the coin-age reward.
-/

namespace CodexaCoin

open Check Consensus CoinMap IndexChain

def secondsPerYear : Int := 31556952

/-- The conversion of an `int64_t` to `arith_uint256` through `uint64_t`. -/
def arithOfInt64 (x : Int) : ArithUint256 :=
  BitVec.ofNat 256 (x % 2 ^ 64).toNat

/-- The `uint256` hash that an index's modifier and a kernel give the next block. -/
def computeStakeModifier (C : Crypto) (pindexPrev : IndexChain) (kernel : Uint256) : Uint256 :=
  match pindexPrev with
  | [] => 0
  | pindex :: _ => C.hash256 (serUint256 kernel ++ serUint256 pindex.nStakeModifier)

def checkCoinStakeTimestamp (net : Network) (nTimeBlock nTimeTx : Nat) : Bool :=
  if net.params.isProtocolV2 nTimeBlock then
    decide (nTimeBlock = nTimeTx ∧ nTimeTx &&& net.params.nStakeTimestampMask = 0)
  else decide (nTimeBlock = nTimeTx)

def checkStakeBlockTimestamp (net : Network) (nTimeBlock : Nat) : Bool :=
  checkCoinStakeTimestamp net nTimeBlock nTimeBlock

/-! ## The kernel -/

def kernelHash (C : Crypto) (nStakeModifier : Uint256) (blockFromTime : Nat) (prevout : COutPoint) (nTimeTx : Nat) :
    Uint256 :=
  C.hash256 (serUint256 nStakeModifier ++ serLE 4 blockFromTime ++ serUint256 prevout.hash ++ serLE 4 prevout.n
    ++ serLE 4 nTimeTx)

/-- The weighted target of `CheckStakeKernelHash`. -/
def weightedTarget (nBits : Nat) (nValueIn : Int) : ArithUint256 :=
  (setCompact nBits).target.mulAssign (arithOfInt64 nValueIn)

def checkStakeKernelHash (C : Crypto) (nStakeModifier : Uint256) (nBits blockFromTime : Nat) (prevoutValue : Int)
    (prevout : COutPoint) (nTimeTx : Nat) : Bool :=
  if nTimeTx < blockFromTime then false
  else if prevoutValue = 0 then false
  else decide ((kernelHash C nStakeModifier blockFromTime prevout nTimeTx).toNat ≤
    (weightedTarget nBits prevoutValue).toNat)

def coinKernelTime (coin : Coin) (blockFrom : CBlockIndex) : Nat :=
  if coin.nTime ≠ 0 then coin.nTime else blockFrom.nTime

def checkProofOfStake (E : Env) (pindexPrev : IndexChain) (tx : CTransaction) (nBits : Nat) (view : CoinMap)
    (nTimeTx : Nat) : BlockCheck Unit := do
  require tx.isCoinStake (.error "CheckProofOfStake() : called on non-coinstake")
  match tx.vin, pindexPrev with
  | txin :: _, pindex :: _ =>
    match getCoin view txin.prevout with
    | none => .error (.invalid .blockInvalidHeader "stake-prevout-not-exist")
    | some coinPrev => do
      require (decide (nHeight pindexPrev + 1 - coinPrev.nHeight ≥ E.net.params.nCoinbaseMaturity))
        (.invalid .blockInvalidHeader "stake-prevout-not-mature")
      match getAncestor pindexPrev coinPrev.nHeight with
      | [] => .error (.invalid .blockInvalidHeader "stake-prevout-not-loaded")
      | blockFrom :: _ => do
        require (E.verifyScript txin.scriptSig coinPrev.out.scriptPubKey [] .none tx.reread 0 0)
          (.invalid .blockInvalidHeader "stake-verify-signature-failed")
        require (checkStakeKernelHash E.crypto pindex.nStakeModifier nBits (coinKernelTime coinPrev blockFrom)
            coinPrev.out.nValue txin.prevout nTimeTx)
          (.invalid .blockHeaderSync "stake-check-kernel-failed")
  | _, _ => .error (.abort "pindexPrev")

def checkKernel (net : Network) (C : Crypto) (pindexPrev : IndexChain) (nBits nTime : Nat) (prevout : COutPoint)
    (view : CoinMap) : Bool :=
  match getCoin view prevout, pindexPrev with
  | some coinPrev, pindex :: _ =>
    if nHeight pindexPrev + 1 - coinPrev.nHeight < net.params.nCoinbaseMaturity then false
    else match getAncestor pindexPrev coinPrev.nHeight with
      | [] => false
      | blockFrom :: _ =>
        checkStakeKernelHash C pindex.nStakeModifier nBits (coinKernelTime coinPrev blockFrom) coinPrev.out.nValue
          prevout nTime
  | _, _ => false

/-! ## Rewards -/

/-- `ComputeCoinAgeReward` under any reward parameters. -/
def computeCoinAgeRewardOf (params : Params) (valueSat ageSeconds : Int) : Int :=
  if valueSat ≤ 0 ∨ ageSeconds ≤ 0 then 0
  else
    let cappedAge := min ageSeconds params.nStakeRewardAgeCapSeconds
    let coinSeconds := (arithOfInt64 valueSat).mulAssign (arithOfInt64 cappedAge)
    let numerator := coinSeconds.mulAssign (arithOfInt64 params.nStakeRewardAnnualBP)
    let denominator := (arithOfInt64 10000).mulAssign (arithOfInt64 secondsPerYear)
    let reward256 := numerator.div denominator
    if reward256.toNat > 2 ^ 63 - 1 then 2 ^ 63 - 1 else reward256.toNat

def computeCoinAgeReward (net : Network) : (valueSat ageSeconds : Int) → Int :=
  computeCoinAgeRewardOf net.params

/-- The origin time of a coin in the reward: that of its block, or `0` when there is none. -/
def originTime (pindexPrev : IndexChain) (coin : Coin) : Int :=
  match getAncestor pindexPrev coin.nHeight with
  | [] => 0
  | blockFrom :: _ => blockFrom.nTime

/-- The reward of one input in `GetCoinstakeMaxReward`; nothing for a missing coin. -/
def inputReward (net : Network) (pindexPrev : IndexChain) (view : CoinMap) (nTimeTx : Nat) (txin : CTxIn) : Int :=
  match getCoin view txin.prevout with
  | none => 0
  | some coinPrev => computeCoinAgeReward net coinPrev.out.nValue (nTimeTx - originTime pindexPrev coinPrev)

/-- The value of the coin that an input earns a reward for; nothing for a missing coin. -/
def coinValue : CoinMap → CTxIn → Int := inputValueOr 0

def getCoinstakeMaxReward (net : Network) (pindexPrev : IndexChain) (tx : CTransaction) (view : CoinMap)
    (nTimeTx : Nat) : Int :=
  tx.vin.foldl (fun nTotal txin => wrap64 (nTotal + inputReward net pindexPrev view nTimeTx txin)) 0

def getProofOfWorkSubsidy (net : Network) : Int :=
  if net.params.nLastPOWBlock ≤ 0 ∨ net.params.nPremineTotal ≤ 0 then 0
  else net.params.nPremineTotal / net.params.nLastPOWBlock

def getBlockSubsidy (net : Network) (_nHeight : Nat) : Int :=
  getProofOfWorkSubsidy net

/-! ## The reward is the exact quotient -/

theorem arithOfInt64_toNat {x : Int} (h0 : 0 ≤ x) (h1 : x < 2 ^ 64) : ((arithOfInt64 x).toNat : Int) = x := by
  have hx : (x % 2 ^ 64).toNat < 2 ^ 256 := by
    have : (2 : Nat) ^ 64 < 2 ^ 256 := by decide
    omega
  rw [arithOfInt64, BitVec.toNat_ofNat, Nat.mod_eq_of_lt hx, Int.emod_eq_of_lt h0 h1]
  omega

/-- The reward parameters of a network are non-negative `int64_t`s. -/
structure RewardParams (params : Params) : Prop where
  annualBP_nonneg : 0 ≤ params.nStakeRewardAnnualBP
  annualBP_lt : params.nStakeRewardAnnualBP < 2 ^ 63
  ageCap_nonneg : 0 ≤ params.nStakeRewardAgeCapSeconds
  ageCap_lt : params.nStakeRewardAgeCapSeconds < 2 ^ 63

theorem rewardDenominator_toNat :
    ((arithOfInt64 10000).mulAssign (arithOfInt64 secondsPerYear)).toNat = 315569520000 := by
  rw [ArithUint256.mulAssign_toNat_of_lt (by decide)]; decide

theorem mulAssign_mulAssign_toNat {x y z : Int} (hx : 0 ≤ x ∧ x < 2 ^ 63) (hy : 0 ≤ y ∧ y < 2 ^ 63)
    (hz : 0 ≤ z ∧ z < 2 ^ 63) :
    ((((arithOfInt64 x).mulAssign (arithOfInt64 y)).mulAssign (arithOfInt64 z)).toNat : Int) = x * y * z := by
  have hX := arithOfInt64_toNat hx.1 (by omega)
  have hY := arithOfInt64_toNat hy.1 (by omega)
  have hZ := arithOfInt64_toNat hz.1 (by omega)
  have hXY : (arithOfInt64 x).toNat * (arithOfInt64 y).toNat ≤ 2 ^ 63 * 2 ^ 63 :=
    Nat.mul_le_mul (by omega) (by omega)
  have hXYZ : (arithOfInt64 x).toNat * (arithOfInt64 y).toNat * (arithOfInt64 z).toNat ≤ 2 ^ 63 * 2 ^ 63 * 2 ^ 63 :=
    Nat.mul_le_mul hXY (by omega)
  have hxy := ArithUint256.mulAssign_toNat_of_lt (Nat.lt_of_le_of_lt hXY (by decide))
  rw [ArithUint256.mulAssign_toNat_of_lt (by rw [hxy]; exact Nat.lt_of_le_of_lt hXYZ (by decide)), hxy]
  push_cast
  rw [hX, hY, hZ]

/-- **The coin-age reward is the exact quotient**, clamped to the largest `int64_t`. -/
theorem computeCoinAgeRewardOf_eq {params : Params} (hparams : RewardParams params) {v age : Int} (hv : 0 < v)
    (hv' : v < 2 ^ 63) (hage : 0 < age) :
    computeCoinAgeRewardOf params v age = min (2 ^ 63 - 1)
      (v * min age params.nStakeRewardAgeCapSeconds * params.nStakeRewardAnnualBP / (10000 * secondsPerYear)) := by
  obtain ⟨hbp0, hbp1, hcap0, hcap1⟩ := hparams
  have hnum := mulAssign_mulAssign_toNat (x := v) (y := min age params.nStakeRewardAgeCapSeconds)
    (z := params.nStakeRewardAnnualBP) ⟨hv.le, hv'⟩ (by omega) ⟨hbp0, hbp1⟩
  have hden := rewardDenominator_toNat
  have hq := fun numerator => ArithUint256.div_eq numerator
    (b := (arithOfInt64 10000).mulAssign (arithOfInt64 secondsPerYear)) (by intro h0; rw [h0] at hden; simp at hden)
  have hD : (10000 * secondsPerYear : Int) = (315569520000 : Nat) := rfl
  unfold computeCoinAgeRewardOf
  simp only
  rw [if_neg (by omega), hq, BitVec.toNat_udiv, hden, ← hnum, hD, ← Int.natCast_ediv]
  split <;> omega

section Reward

variable (net : Network)

theorem params_stakeReward :
    net.params.nStakeRewardAnnualBP = 1368 ∧ net.params.nStakeRewardAgeCapSeconds = 5184000 := by
  cases net <;> exact ⟨rfl, rfl⟩

theorem rewardParams : RewardParams net.params := by
  obtain ⟨hbp, hcap⟩ := params_stakeReward net
  exact ⟨by omega, by omega, by omega, by omega⟩

theorem computeCoinAgeReward_eq {v age : Int} (hv : 0 < v) (hv' : v ≤ maxMoney) (hage : 0 < age) :
    computeCoinAgeReward net v age = v * min age 5184000 * 1368 / (10000 * secondsPerYear) := by
  obtain ⟨hbp, hcap⟩ := params_stakeReward net
  have hmax : maxMoney = 2 ^ 63 - 1 := rfl
  have hspy : secondsPerYear = 31556952 := rfl
  have h : computeCoinAgeReward net v age = _ := computeCoinAgeRewardOf_eq (rewardParams net) hv (by omega) hage
  rw [hbp, hcap] at h
  rw [h, min_eq_right]
  refine (Int.ediv_le_of_le_mul (by decide) ?_).trans (by omega : v ≤ 2 ^ 63 - 1)
  rw [mul_assoc]
  exact mul_le_mul_of_nonneg_left (by omega) hv.le

theorem computeCoinAgeReward_nonneg (v age : Int) : 0 ≤ computeCoinAgeReward net v age := by
  unfold computeCoinAgeReward computeCoinAgeRewardOf
  split
  · exact le_refl _
  · simp only
    split <;> omega

theorem computeCoinAgeReward_mul_le {v age : Int} (hv : 0 ≤ v) (hv' : v ≤ maxMoney) :
    computeCoinAgeReward net v age * (10000 * secondsPerYear) ≤ v * max age 0 * 1368 := by
  by_cases hpos : 0 < v ∧ 0 < age
  · rw [computeCoinAgeReward_eq net hpos.1 hv' hpos.2]
    calc v * min age 5184000 * 1368 / (10000 * secondsPerYear) * (10000 * secondsPerYear)
        ≤ v * min age 5184000 * 1368 := Int.ediv_mul_le _ (by decide)
      _ ≤ v * max age 0 * 1368 := by
        refine mul_le_mul_of_nonneg_right (mul_le_mul_of_nonneg_left ?_ hv) (by norm_num)
        omega
  · have h0 : computeCoinAgeReward net v age = 0 := by
      unfold computeCoinAgeReward computeCoinAgeRewardOf
      rw [if_pos (by omega)]
    rw [h0, zero_mul]
    exact mul_nonneg (mul_nonneg hv (le_max_right _ _)) (by norm_num)

theorem computeCoinAgeReward_le {v age : Int} (hv : 0 ≤ v) (hv' : v ≤ maxMoney) : computeCoinAgeReward net v age ≤ v := by
  by_cases hpos : 0 < v ∧ 0 < age
  · rw [computeCoinAgeReward_eq net hpos.1 hv' hpos.2]
    refine Int.ediv_le_of_le_mul (by decide) ?_
    rw [mul_assoc]
    refine mul_le_mul_of_nonneg_left ?_ hv
    have hspy : secondsPerYear = 31556952 := rfl
    omega
  · unfold computeCoinAgeReward computeCoinAgeRewardOf
    rw [if_pos (by omega)]
    exact hv

theorem inputReward_nonneg (pindexPrev : IndexChain) (view : CoinMap) (nTimeTx : Nat) (txin : CTxIn) :
    0 ≤ inputReward net pindexPrev view nTimeTx txin := by
  unfold inputReward
  split
  · exact le_refl _
  · exact computeCoinAgeReward_nonneg net _ _

theorem inputReward_le_coinValue {pindexPrev : IndexChain} {view : CoinMap} {nTimeTx : Nat} {txin : CTxIn}
    (h0 : 0 ≤ coinValue view txin) (h1 : coinValue view txin ≤ maxMoney) :
    inputReward net pindexPrev view nTimeTx txin ≤ coinValue view txin := by
  unfold inputReward getCoin
  cases hcoin : view.lookup txin.prevout with
  | none => exact h0
  | some coin =>
    rw [coinValue, inputValueOr_eq hcoin] at h0 h1 ⊢
    exact computeCoinAgeReward_le net h0 h1

theorem getCoinstakeMaxReward_le (pindexPrev : IndexChain) (tx : CTransaction) (view : CoinMap) (nTimeTx : Nat) :
    getCoinstakeMaxReward net pindexPrev tx view nTimeTx ≤
      (tx.vin.map (inputReward net pindexPrev view nTimeTx)).sum := by
  -- generalise over the running total, which is an `int64_t`
  suffices h : ∀ (l : List CTxIn) (n : Int), -2 ^ 63 ≤ n →
      l.foldl (fun nTotal txin => wrap64 (nTotal + inputReward net pindexPrev view nTimeTx txin)) n ≤
        n + (l.map (inputReward net pindexPrev view nTimeTx)).sum by
    simpa [getCoinstakeMaxReward] using h tx.vin 0 (by norm_num)
  intro l
  induction l with
  | nil => intro n _; simp
  | cons txin l ih =>
    intro n hn
    have hr := inputReward_nonneg net pindexPrev view nTimeTx txin
    have hle : wrap64 (n + inputReward net pindexPrev view nTimeTx txin) ≤
        n + inputReward net pindexPrev view nTimeTx txin := wrap64_le (by omega)
    have hrec := ih _ (wrap64_range (n + inputReward net pindexPrev view nTimeTx txin)).1
    rw [List.foldl_cons, List.map_cons, List.sum_cons]
    omega

theorem neg_two_pow_le_getCoinstakeMaxReward (pindexPrev : IndexChain) (tx : CTransaction) (view : CoinMap)
    (nTimeTx : Nat) :
    -2 ^ 63 ≤ getCoinstakeMaxReward net pindexPrev tx view nTimeTx := by
  unfold getCoinstakeMaxReward
  exact List.foldlRecOn tx.vin _ (by norm_num) fun _ _ _ _ => (wrap64_range _).1

theorem getCoinstakeMaxReward_eq {pindexPrev : IndexChain} {tx : CTransaction} {view : CoinMap} {nTimeTx : Nat}
    (hsum : (tx.vin.map (inputReward net pindexPrev view nTimeTx)).sum ≤ maxMoney) :
    getCoinstakeMaxReward net pindexPrev tx view nTimeTx =
      (tx.vin.map (inputReward net pindexPrev view nTimeTx)).sum := by
  suffices h : ∀ (l : List CTxIn) (n : Int), 0 ≤ n →
    n + (l.map (inputReward net pindexPrev view nTimeTx)).sum ≤ maxMoney →
      l.foldl (fun nTotal txin => wrap64 (nTotal + inputReward net pindexPrev view nTimeTx txin)) n =
        n + (l.map (inputReward net pindexPrev view nTimeTx)).sum by
    simpa [getCoinstakeMaxReward] using h tx.vin 0 (le_refl _) (by simpa using hsum)
  have hmax : maxMoney = 2 ^ 63 - 1 := rfl
  intro l
  induction l with
  | nil => intro n _ _; simp
  | cons txin l ih =>
    intro n hn hle
    have hr := inputReward_nonneg net pindexPrev view nTimeTx txin
    have hrest : 0 ≤ (l.map (inputReward net pindexPrev view nTimeTx)).sum := by
      refine List.sum_nonneg fun x hx => ?_
      obtain ⟨txin', -, rfl⟩ := List.mem_map.1 hx
      exact inputReward_nonneg net pindexPrev view nTimeTx txin'
    rw [List.map_cons, List.sum_cons] at hle ⊢
    rw [List.foldl_cons, wrap64_eq (by omega) (by omega), ih _ (by omega) (by omega)]
    omega

end Reward

end CodexaCoin
