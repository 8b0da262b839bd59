import CodexaCoin.Pos

/-!
# Laws of the coin-age reward

`ComputeCoinAgeReward` of `pos.cpp` for every `int64_t` value and age and every choice of the two reward parameters,
and the sum that `GetCoinstakeMaxReward` forms over the inputs of a coinstake.

Splitting gains nothing as long as the reward of the whole is not clamped. A clamped whole pays no more than a clamped
part, and a coin of negative value (there is none in a valid chain) would lower the whole below a part.
-/

namespace CodexaCoin

open Check Consensus CoinMap IndexChain

/-- The values of an `int64_t`. -/
def IsInt64 (x : Int) : Prop := -2 ^ 63 ≤ x ∧ x < 2 ^ 63

/-! ## The quotient before the clamp -/

section Quotient

variable {params : Params}

/-- The reward before it is clamped: the quotient for a positive value and age, else nothing. -/
def rewardQuotient (params : Params) (v age : Int) : Int :=
  if 0 < v ∧ 0 < age then
    v * min age params.nStakeRewardAgeCapSeconds * params.nStakeRewardAnnualBP / (10000 * secondsPerYear)
  else 0

theorem computeCoinAgeRewardOf_eq_min (hparams : RewardParams params) {v : Int} (hv : IsInt64 v) (age : Int) :
    computeCoinAgeRewardOf params v age = min (2 ^ 63 - 1) (rewardQuotient params v age) := by
  unfold rewardQuotient
  by_cases hpos : 0 < v ∧ 0 < age
  · rw [if_pos hpos, computeCoinAgeRewardOf_eq hparams hpos.1 hv.2 hpos.2]
  · rw [if_neg hpos, computeCoinAgeRewardOf, if_pos (by omega)]
    rfl

theorem computeCoinAgeReward_eq_rewardQuotient (net : Network) {v : Int} (hv : IsInt64 v) (age : Int) :
    computeCoinAgeReward net v age = rewardQuotient net.params v age := by
  have hmax : maxMoney = 2 ^ 63 - 1 := rfl
  obtain ⟨hbp, hcap⟩ := params_stakeReward net
  have hlt := hv.2
  by_cases hpos : 0 < v ∧ 0 < age
  · rw [rewardQuotient, if_pos hpos, computeCoinAgeReward_eq net hpos.1 (by omega) hpos.2, hbp, hcap]
  · rw [rewardQuotient, if_neg hpos, computeCoinAgeReward, computeCoinAgeRewardOf, if_pos (by omega)]

theorem rewardQuotient_of_nonneg {v age : Int} (hv : 0 ≤ v) (hage : 0 ≤ age) (hparams : RewardParams params) :
    rewardQuotient params v age =
      v * min age params.nStakeRewardAgeCapSeconds * params.nStakeRewardAnnualBP / (10000 * secondsPerYear) := by
  unfold rewardQuotient
  split
  · rfl
  · next hpos =>
    rcases (by omega : v = 0 ∨ age = 0) with rfl | rfl
    · simp
    · rw [min_eq_left hparams.ageCap_nonneg]
      simp

theorem rewardQuotient_nonneg (hparams : RewardParams params) (v age : Int) : 0 ≤ rewardQuotient params v age := by
  unfold rewardQuotient
  split
  · next hpos =>
    have hcap := hparams.ageCap_nonneg
    exact Int.ediv_nonneg (mul_nonneg (mul_nonneg hpos.1.le (by omega)) hparams.annualBP_nonneg) (by decide)
  · exact le_refl _

theorem rewardQuotient_mono (hparams : RewardParams params) {v v' age age' : Int} (hv : v ≤ v') (hage : age ≤ age') :
    rewardQuotient params v age ≤ rewardQuotient params v' age' := by
  by_cases hpos : 0 < v ∧ 0 < age
  · have hcap := hparams.ageCap_nonneg
    rw [rewardQuotient_of_nonneg hpos.1.le hpos.2.le hparams,
      rewardQuotient_of_nonneg (by omega) (by omega) hparams]
    refine Int.ediv_le_ediv (by decide) (mul_le_mul_of_nonneg_right ?_ hparams.annualBP_nonneg)
    exact mul_le_mul hv (by omega) (by omega) (by omega)
  · rw [rewardQuotient, if_neg hpos]
    exact rewardQuotient_nonneg hparams v' age'

theorem rewardQuotient_of_cap_le {v age : Int} (hparams : RewardParams params)
    (hage : params.nStakeRewardAgeCapSeconds ≤ age) :
    rewardQuotient params v age = rewardQuotient params v params.nStakeRewardAgeCapSeconds := by
  have hcap := hparams.ageCap_nonneg
  by_cases hv : 0 ≤ v
  · rw [rewardQuotient_of_nonneg hv (by omega) hparams, rewardQuotient_of_nonneg hv hcap hparams,
      min_eq_right hage, min_self]
  · rw [rewardQuotient, if_neg (by omega), rewardQuotient, if_neg (by omega)]

theorem ediv_add_ediv_le (x y : Int) {d : Int} (hd : 0 < d) : x / d + y / d ≤ (x + y) / d := by
  rw [Int.le_ediv_iff_mul_le hd, add_mul]
  exact add_le_add (Int.ediv_mul_le x hd.ne') (Int.ediv_mul_le y hd.ne')

theorem rewardQuotient_add_value (hparams : RewardParams params) {v1 v2 : Int} (h1 : 0 ≤ v1) (h2 : 0 ≤ v2)
    (age : Int) :
    rewardQuotient params v1 age + rewardQuotient params v2 age ≤ rewardQuotient params (v1 + v2) age := by
  by_cases hage : 0 ≤ age
  · rw [rewardQuotient_of_nonneg h1 hage hparams, rewardQuotient_of_nonneg h2 hage hparams,
      rewardQuotient_of_nonneg (by omega) hage hparams, add_mul, add_mul]
    exact ediv_add_ediv_le _ _ (by decide)
  · simp only [rewardQuotient]
    rw [if_neg (by omega), if_neg (by omega), if_neg (by omega)]
    exact le_refl _

theorem rewardQuotient_add_age (hparams : RewardParams params) {a1 a2 : Int} (h1 : 0 ≤ a1) (h2 : 0 ≤ a2)
    (hcap : a1 + a2 ≤ params.nStakeRewardAgeCapSeconds) (v : Int) :
    rewardQuotient params v a1 + rewardQuotient params v a2 ≤ rewardQuotient params v (a1 + a2) := by
  by_cases hv : 0 ≤ v
  · rw [rewardQuotient_of_nonneg hv h1 hparams, rewardQuotient_of_nonneg hv h2 hparams,
      rewardQuotient_of_nonneg hv (by omega) hparams, min_eq_left (by omega), min_eq_left (by omega),
      min_eq_left hcap, mul_add, add_mul]
    exact ediv_add_ediv_le _ _ (by decide)
  · simp only [rewardQuotient]
    rw [if_neg (by omega), if_neg (by omega), if_neg (by omega)]
    exact le_refl _

end Quotient

/-! ## The laws -/

/-- The laws of `ComputeCoinAgeReward` under fixed parameters, for all `int64_t` values and ages. -/
structure RewardLaws (params : Params) : Prop where
  exact_pos : ∀ {v age : Int}, IsInt64 v → IsInt64 age → 0 < v → 0 < age →
    computeCoinAgeRewardOf params v age = min (2 ^ 63 - 1)
      (v * min age params.nStakeRewardAgeCapSeconds * params.nStakeRewardAnnualBP / (10000 * secondsPerYear))
  exact_nonpos : ∀ {v age : Int}, IsInt64 v → IsInt64 age → ¬(0 < v ∧ 0 < age) → computeCoinAgeRewardOf params v age = 0
  mono_value : ∀ {v v' age : Int}, IsInt64 v → IsInt64 v' → IsInt64 age → v ≤ v' →
    computeCoinAgeRewardOf params v age ≤ computeCoinAgeRewardOf params v' age
  mono_age : ∀ {v age age' : Int}, IsInt64 v → IsInt64 age → IsInt64 age' → age ≤ age' →
    computeCoinAgeRewardOf params v age ≤ computeCoinAgeRewardOf params v age'
  plateau : ∀ {v age : Int}, IsInt64 v → IsInt64 age → params.nStakeRewardAgeCapSeconds ≤ age →
    computeCoinAgeRewardOf params v age = computeCoinAgeRewardOf params v params.nStakeRewardAgeCapSeconds
  /-- Splitting the value gains at most what the clamp takes from the whole. -/
  split_value : ∀ {v1 v2 age : Int}, IsInt64 age → 0 ≤ v1 → 0 ≤ v2 → moneyRange (v1 + v2) = true →
    min (2 ^ 63 - 1) (computeCoinAgeRewardOf params v1 age + computeCoinAgeRewardOf params v2 age) ≤
      computeCoinAgeRewardOf params (v1 + v2) age
  /-- Splitting the age gains at most what the clamp takes from the whole. -/
  split_age : ∀ {v a1 a2 : Int}, IsInt64 v → 0 ≤ a1 → 0 ≤ a2 → a1 + a2 ≤ params.nStakeRewardAgeCapSeconds →
    min (2 ^ 63 - 1) (computeCoinAgeRewardOf params v a1 + computeCoinAgeRewardOf params v a2) ≤
      computeCoinAgeRewardOf params v (a1 + a2)

theorem RewardParams.laws {params : Params} (hparams : RewardParams params) : RewardLaws params where
  exact_pos hv _ hpos hage := computeCoinAgeRewardOf_eq hparams hpos hv.2 hage
  exact_nonpos {v age} _ _ hpos := by rw [computeCoinAgeRewardOf, if_pos (by omega)]
  mono_value {v v' age} hv hv' _ hle := by
    rw [computeCoinAgeRewardOf_eq_min hparams hv, computeCoinAgeRewardOf_eq_min hparams hv']
    have := rewardQuotient_mono hparams hle (le_refl age)
    omega
  mono_age {v age age'} hv _ _ hle := by
    rw [computeCoinAgeRewardOf_eq_min hparams hv, computeCoinAgeRewardOf_eq_min hparams hv]
    have := rewardQuotient_mono hparams (le_refl v) hle
    omega
  plateau {v age} hv _ hage := by
    rw [computeCoinAgeRewardOf_eq_min hparams hv, computeCoinAgeRewardOf_eq_min hparams hv,
      rewardQuotient_of_cap_le hparams hage]
  split_value {v1 v2 age} _ h1 h2 hsum := by
    have hmax : v1 + v2 ≤ 2 ^ 63 - 1 := (moneyRange_iff.1 hsum).2
    rw [computeCoinAgeRewardOf_eq_min hparams ⟨by omega, by omega⟩,
      computeCoinAgeRewardOf_eq_min hparams ⟨by omega, by omega⟩,
      computeCoinAgeRewardOf_eq_min hparams ⟨by omega, by omega⟩]
    have := rewardQuotient_add_value hparams h1 h2 age
    have := rewardQuotient_nonneg hparams v1 age
    have := rewardQuotient_nonneg hparams v2 age
    omega
  split_age {v a1 a2} hv h1 h2 hcap := by
    rw [computeCoinAgeRewardOf_eq_min hparams hv, computeCoinAgeRewardOf_eq_min hparams hv,
      computeCoinAgeRewardOf_eq_min hparams hv]
    have := rewardQuotient_add_age hparams h1 h2 hcap v
    have := rewardQuotient_nonneg hparams v a1
    have := rewardQuotient_nonneg hparams v a2
    omega

/-! ## The sum over the inputs of a coinstake -/

section Inputs

variable {net : Network} {pindexPrev : IndexChain} {view : CoinMap} {nTimeTx : Nat}

theorem sum_inputReward_le (vin : List CTxIn) (hpos : ∀ txin ∈ vin, 0 ≤ coinValue view txin)
    (hsum : (vin.map (coinValue view)).sum ≤ maxMoney) :
    (vin.map (inputReward net pindexPrev view nTimeTx)).sum ≤ (vin.map (coinValue view)).sum := by
  refine List.sum_le_sum fun txin hmem => inputReward_le_coinValue net (hpos txin hmem) (le_trans ?_ hsum)
  refine List.single_le_sum (fun x hx => ?_) _ (List.mem_map_of_mem hmem)
  obtain ⟨txin', hmem', rfl⟩ := List.mem_map.1 hx
  exact hpos txin' hmem'

theorem sum_inputReward_nonneg (vin : List CTxIn) : 0 ≤ (vin.map (inputReward net pindexPrev view nTimeTx)).sum := by
  refine List.sum_nonneg fun x hx => ?_
  obtain ⟨txin, -, rfl⟩ := List.mem_map.1 hx
  exact inputReward_nonneg net pindexPrev view nTimeTx txin

theorem sum_take_inputReward_le (vin : List CTxIn) (k : Nat) :
    ((vin.take k).map (inputReward net pindexPrev view nTimeTx)).sum ≤
      (vin.map (inputReward net pindexPrev view nTimeTx)).sum := by
  conv_rhs => rw [← List.take_append_drop k vin, List.map_append, List.sum_append]
  exact le_add_of_nonneg_right (sum_inputReward_nonneg _)

end Inputs

/-- **The coin-age reward is exact, monotone and not worth splitting for**, and under the parameters of the networks
nothing is clamped and no running total of `GetCoinstakeMaxReward` leaves `int64_t`. -/
theorem coinAgeReward_laws (params : Params) (hparams : RewardParams params) :
    RewardLaws params ∧
    (∀ (net : Network) {v1 v2 age : Int}, 0 ≤ v1 → 0 ≤ v2 → moneyRange (v1 + v2) = true → IsInt64 age →
      computeCoinAgeReward net v1 age + computeCoinAgeReward net v2 age ≤ computeCoinAgeReward net (v1 + v2) age) ∧
    (∀ (net : Network) {v a1 a2 : Int}, IsInt64 v → 0 ≤ a1 → 0 ≤ a2 → a1 + a2 ≤ net.params.nStakeRewardAgeCapSeconds →
      computeCoinAgeReward net v a1 + computeCoinAgeReward net v a2 ≤ computeCoinAgeReward net v (a1 + a2)) ∧
    ∀ (net : Network) (pindexPrev : IndexChain) (tx : CTransaction) (view : CoinMap) (nTimeTx : Nat),
      (∀ txin ∈ tx.vin, 0 ≤ coinValue view txin) → moneyRange ((tx.vin.map (coinValue view)).sum) = true →
      (∀ k, 0 ≤ ((tx.vin.take k).map (inputReward net pindexPrev view nTimeTx)).sum ∧
        ((tx.vin.take k).map (inputReward net pindexPrev view nTimeTx)).sum < 2 ^ 63) ∧
      getCoinstakeMaxReward net pindexPrev tx view nTimeTx =
        (tx.vin.map (inputReward net pindexPrev view nTimeTx)).sum := by
  have hmax : maxMoney = 2 ^ 63 - 1 := rfl
  refine ⟨hparams.laws, ?_, ?_, ?_⟩
  · intro net v1 v2 age h1 h2 hsum _
    have hrange := moneyRange_iff.1 hsum
    rw [computeCoinAgeReward_eq_rewardQuotient net ⟨by omega, by omega⟩,
      computeCoinAgeReward_eq_rewardQuotient net ⟨by omega, by omega⟩,
      computeCoinAgeReward_eq_rewardQuotient net ⟨by omega, by omega⟩]
    exact rewardQuotient_add_value (rewardParams net) h1 h2 age
  · intro net v a1 a2 hv h1 h2 hcap
    simp only [computeCoinAgeReward_eq_rewardQuotient net hv]
    exact rewardQuotient_add_age (rewardParams net) h1 h2 hcap v
  · intro net pindexPrev tx view nTimeTx hpos hsum
    have hbound : (tx.vin.map (inputReward net pindexPrev view nTimeTx)).sum ≤ maxMoney :=
      (sum_inputReward_le tx.vin hpos (moneyRange_iff.1 hsum).2).trans (moneyRange_iff.1 hsum).2
    refine ⟨fun k => ⟨sum_inputReward_nonneg _, ?_⟩, getCoinstakeMaxReward_eq net hbound⟩
    exact (sum_take_inputReward_le tx.vin k).trans_lt (by omega)

def agedCoinView : CoinMap :=
  Finmap.singleton ⟨0, 0⟩ ⟨⟨28000000 * coin, []⟩, false, false, 0, 0, by decide⟩

theorem agedCoin_reward :
    RewardParams Network.mainParams ∧ RewardLaws Network.mainParams ∧
      computeCoinAgeReward .main (14000000 * coin) 500 + computeCoinAgeReward .main (14000000 * coin) 500 ≤
        computeCoinAgeReward .main (28000000 * coin) 500 ∧
      computeCoinAgeReward .main (28000000 * coin) 200 + computeCoinAgeReward .main (28000000 * coin) 300 ≤
        computeCoinAgeReward .main (28000000 * coin) 500 ∧
      getCoinstakeMaxReward .main [⟨0, 7, 1000, 0, false, 0⟩] ⟨[⟨⟨0, 0⟩, [], 0, []⟩], [], 2, 0, 0⟩ agedCoinView 1500 =
        6069027198 := by
  have hparams : RewardParams Network.mainParams := rewardParams .main
  obtain ⟨hlaws, hvalue, hage, hsum⟩ := coinAgeReward_laws Network.mainParams hparams
  refine ⟨hparams, hlaws, hvalue .main (by decide) (by decide) (by decide) ⟨by decide, by decide⟩,
    hage .main ⟨by decide, by decide⟩ (by decide) (by decide) (by decide), ?_⟩
  refine (hsum .main _ _ agedCoinView _ (by decide +kernel) (by decide +kernel)).2.trans ?_
  decide +kernel

def unboundedRewardParams : Params :=
  { Network.mainParams with nStakeRewardAnnualBP := 2 ^ 63 - 1, nStakeRewardAgeCapSeconds := 2 ^ 63 - 1 }

theorem clamped_parts_earn_more :
    (RewardParams unboundedRewardParams ∧ moneyRange (2 ^ 61 + 2 ^ 61) = true ∧
      computeCoinAgeRewardOf unboundedRewardParams (2 ^ 61 + 2 ^ 61) (2 ^ 61) <
        computeCoinAgeRewardOf unboundedRewardParams (2 ^ 61) (2 ^ 61) +
          computeCoinAgeRewardOf unboundedRewardParams (2 ^ 61) (2 ^ 61)) ∧
    (2 ^ 61 + 2 ^ 61 ≤ unboundedRewardParams.nStakeRewardAgeCapSeconds ∧
      computeCoinAgeRewardOf unboundedRewardParams (2 ^ 61) (2 ^ 61 + 2 ^ 61) <
        computeCoinAgeRewardOf unboundedRewardParams (2 ^ 61) (2 ^ 61) +
          computeCoinAgeRewardOf unboundedRewardParams (2 ^ 61) (2 ^ 61)) ∧
    (moneyRange (-coin + coin) = true ∧
      computeCoinAgeReward .main (-coin + coin) 5184000 <
        computeCoinAgeReward .main (-coin) 5184000 + computeCoinAgeReward .main coin 5184000) := by
  refine ⟨⟨⟨?_, ?_, ?_, ?_⟩, ?_, ?_⟩, ⟨?_, ?_⟩, ?_, ?_⟩ <;> decide +kernel

end CodexaCoin
