import CodexaCoin.Pos

/-!
# The weighted stake target

`CheckStakeKernelHash` multiplies the target that `nBits` decodes to by the value of the staked coin, in 256 bits. The
hash is left open (every `Crypto`), so that every kernel hash occurs.
-/

namespace CodexaCoin

open Consensus IndexChain

/-! ## Wrapping products -/

theorem weightedTarget_toNat {nBits : Nat} {v : Int} (h0 : 0 ≤ v) (h1 : v ≤ maxMoney) :
    (weightedTarget nBits v).toNat = (setCompact nBits).target.toNat * v.toNat % 2 ^ 256 := by
  have hmax : maxMoney = 2 ^ 63 - 1 := rfl
  have hv := arithOfInt64_toNat h0 (by omega)
  rw [weightedTarget, ArithUint256.mulAssign_eq, BitVec.toNat_mul]
  congr 2
  omega

theorem exists_first_wrap {t v m : Nat} (ht : t < m) (h : m ≤ t * v) :
    ∃ u, 0 < u ∧ u + 1 ≤ v ∧ t * u < m ∧ m ≤ t * (u + 1) := by
  have hpos : 0 < t := Nat.pos_of_ne_zero fun h0 => by simp [h0] at h; omega
  have hlo : t * ((m - 1) / t) ≤ m - 1 := Nat.mul_div_le _ _
  have hhi : m - 1 < t * ((m - 1) / t + 1) := Nat.lt_mul_div_succ _ hpos
  refine ⟨(m - 1) / t, Nat.div_pos (by omega) hpos, ?_, by omega, by omega⟩
  exact Nat.lt_of_mul_lt_mul_left (a := t) (by omega)

theorem mul_succ_mod_lt {t u m : Nat} (ht : t < m) (hlo : t * u < m) (hhi : m ≤ t * (u + 1)) :
    t * (u + 1) % m < t * u := by
  rw [Nat.mul_succ] at hhi ⊢
  rw [Nat.mod_eq_sub_mod hhi, Nat.mod_eq_of_lt (by omega)]
  omega

/-! ## The kernel check in the value -/

/-- Whatever the kernel, a coin of no more than `supply` that passes the check passes it with a larger value too. -/
def StakeMonotone (nBits : Nat) (supply : Int) : Prop :=
  ∀ (C : Crypto) (nStakeModifier : Uint256) (blockFromTime : Nat) (prevout : COutPoint) (nTimeTx : Nat) (v1 v2 : Int),
    0 < v1 → v1 ≤ v2 → v2 ≤ supply →
    checkStakeKernelHash C nStakeModifier nBits blockFromTime v1 prevout nTimeTx = true →
    checkStakeKernelHash C nStakeModifier nBits blockFromTime v2 prevout nTimeTx = true

/-- The weighted target of every coin of no more than `supply` is the exact product. -/
def WeightExact (nBits : Nat) (supply : Int) : Prop :=
  ∀ v, 0 < v → v ≤ supply → ((weightedTarget nBits v).toNat : Int) = (setCompact nBits).target.toNat * v

theorem checkStakeKernelHash_iff {C : Crypto} {nStakeModifier : Uint256} {nBits blockFromTime nTimeTx : Nat} {v : Int}
    {prevout : COutPoint} (hv : 0 < v) :
    checkStakeKernelHash C nStakeModifier nBits blockFromTime v prevout nTimeTx = true ↔
      blockFromTime ≤ nTimeTx ∧ (kernelHash C nStakeModifier blockFromTime prevout nTimeTx).toNat ≤
        (weightedTarget nBits v).toNat := by
  unfold checkStakeKernelHash
  by_cases htime : nTimeTx < blockFromTime
  · rw [if_pos htime]
    simp only [Bool.false_eq_true, false_iff, not_and]
    intro h
    omega
  · rw [if_neg htime, if_neg (by omega), decide_eq_true_eq]
    exact ⟨fun h => ⟨by omega, h⟩, fun h => h.2⟩

section Monotone

variable {nBits : Nat} {supply : Int}

theorem weightExact_of_lt (hmax : supply ≤ maxMoney)
    (h : ((setCompact nBits).target.toNat : Int) * supply < 2 ^ 256) : WeightExact nBits supply := by
  intro v hv hle
  have hprod : ((setCompact nBits).target.toNat : Int) * v < 2 ^ 256 :=
    lt_of_le_of_lt (mul_le_mul_of_nonneg_left hle (by omega)) h
  have hnat : (setCompact nBits).target.toNat * v.toNat < 2 ^ 256 := by
    zify
    rwa [Int.toNat_of_nonneg hv.le]
  rw [weightedTarget_toNat hv.le (hle.trans hmax), Nat.mod_eq_of_lt hnat]
  rw [Nat.cast_mul, Int.toNat_of_nonneg hv.le]

theorem stakeMonotone_of_exact (h : WeightExact nBits supply) : StakeMonotone nBits supply := by
  intro C nStakeModifier blockFromTime prevout nTimeTx v1 v2 hpos hle hsup h1
  rw [checkStakeKernelHash_iff hpos] at h1
  rw [checkStakeKernelHash_iff (by omega)]
  refine ⟨h1.1, h1.2.trans ?_⟩
  have hmul : ((setCompact nBits).target.toNat : Int) * v1 ≤ (setCompact nBits).target.toNat * v2 :=
    mul_le_mul_of_nonneg_left hle (by omega)
  have hw1 := h v1 hpos (by omega)
  have hw2 := h v2 (by omega) hsup
  omega

theorem lt_of_stakeMonotone (hmax : supply ≤ maxMoney) (h : StakeMonotone nBits supply) :
    ((setCompact nBits).target.toNat : Int) * supply < 2 ^ 256 := by
  by_contra hge
  have hsup : 0 ≤ supply := by
    by_contra hneg
    have : ((setCompact nBits).target.toNat : Int) * supply ≤ 0 :=
      mul_nonpos_of_nonneg_of_nonpos (by omega) (by omega)
    omega
  have hwrap : 2 ^ 256 ≤ (setCompact nBits).target.toNat * supply.toNat := by
    zify
    rw [Int.toNat_of_nonneg hsup]
    omega
  obtain ⟨u, hu, hle, hlo, hhi⟩ := exists_first_wrap (setCompact nBits).target.isLt hwrap
  -- a hash function with that one value
  let C : Crypto := { Crypto.sample with hash256 := fun _ => weightedTarget nBits u }
  have hacc : checkStakeKernelHash C 0 nBits 0 u ⟨0, 0⟩ 0 = true :=
    (checkStakeKernelHash_iff (by omega)).2 ⟨le_refl _, le_refl _⟩
  have hacc' := h C 0 0 ⟨0, 0⟩ 0 u (u + 1) (by omega) (by omega) (by omega) hacc
  have hkernel : (weightedTarget nBits u).toNat ≤ (weightedTarget nBits (u + 1)).toNat :=
    ((checkStakeKernelHash_iff (by omega)).1 hacc').2
  rw [weightedTarget_toNat (by omega) (by omega), weightedTarget_toNat (by omega) (by omega)] at hkernel
  have hlt := mul_succ_mod_lt (setCompact nBits).target.isLt hlo hhi
  rw [show ((u : Int) + 1).toNat = u + 1 by omega, Int.toNat_natCast, Nat.mod_eq_of_lt hlo] at hkernel
  omega

/-- **The staking chance grows with the amount exactly when target times supply is below `2 ^ 256`**, and then, and only
then, is every weighted target the exact product. -/
theorem stakeMonotone_iff (hmax : supply ≤ maxMoney) :
    (StakeMonotone nBits supply ↔ ((setCompact nBits).target.toNat : Int) * supply < 2 ^ 256) ∧
      (StakeMonotone nBits supply ↔ WeightExact nBits supply) := by
  have hexact : StakeMonotone nBits supply → WeightExact nBits supply := fun h =>
    weightExact_of_lt hmax (lt_of_stakeMonotone hmax h)
  constructor
  · exact ⟨lt_of_stakeMonotone hmax, fun h => stakeMonotone_of_exact (weightExact_of_lt hmax h)⟩
  · exact ⟨hexact, stakeMonotone_of_exact⟩

end Monotone

def stakeGenesis : CBlockIndex :=
  { hash := 0, nTime := Network.main.params.genesisTime, nBits := Network.main.params.genesisBits }

theorem stakeMonotone_first_target :
    StakeMonotone (getNextTargetRequired .main [stakeGenesis] true) 281479271743489 :=
  (stakeMonotone_iff (by decide)).1.2 (by decide)

theorem one_more_satoshi_loses :
    getNextTargetRequired .main [stakeGenesis] true = 0x1b00ffff ∧
      (281479271743490 : Int) ≤ getBlockSubsidy .main 1 ∧
      ∃ C : Crypto,
        checkStakeKernelHash C 0 0x1b00ffff 0 281479271743489 ⟨0, 0⟩ 0 = true ∧
        checkStakeKernelHash C 0 0x1b00ffff 0 281479271743490 ⟨0, 0⟩ 0 = false := by
  refine ⟨by decide, by decide, { Crypto.sample with hash256 := fun _ => BitVec.ofNat 256 (2 ^ 256 - 2 ^ 192) }, ?_, ?_⟩
  · decide +kernel
  · decide +kernel

/-! ## The targets of the chain -/

theorem setCompact_target_cases (nBits : Nat) :
    2 ^ 192 ∣ (setCompact nBits).target.toNat ∨ (setCompact nBits).target.toNat < 2 ^ 207 := by
  have hword : nBits &&& 0x007fffff < 2 ^ 23 := Nat.and_lt_two_pow _ (by decide)
  simp only [setCompact]
  split
  · next hs =>
    right
    rw [BitVec.toNat_ofNat, Nat.shiftRight_eq_div_pow]
    exact Nat.lt_of_le_of_lt ((Nat.mod_le _ _).trans (Nat.div_le_self _ _)) (Nat.lt_trans hword (by decide))
  · next hs =>
    rw [BitVec.toNat_shiftLeft, BitVec.toNat_ofNat, Nat.shiftLeft_eq]
    by_cases hbig : 27 ≤ nBits >>> 24
    · left
      have hpow : 2 ^ (8 * (nBits >>> 24 - 3)) = 2 ^ 192 * 2 ^ (8 * (nBits >>> 24 - 27)) := by
        rw [← Nat.pow_add]; congr 1; omega
      refine (Nat.dvd_mod_iff (by decide : 2 ^ 192 ∣ 2 ^ 256)).2 ?_
      exact Dvd.dvd.mul_left (hpow ▸ Nat.dvd_mul_right _ _) _
    · right
      have hpow : 2 ^ (8 * (nBits >>> 24 - 3)) ≤ 2 ^ 184 := Nat.pow_le_pow_right (by decide) (by omega)
      calc _ ≤ (nBits &&& 0x007fffff) % 2 ^ 256 * 2 ^ (8 * (nBits >>> 24 - 3)) := Nat.mod_le _ _
        _ ≤ (nBits &&& 0x007fffff) * 2 ^ 184 := Nat.mul_le_mul (Nat.mod_le _ _) hpow
        _ < 2 ^ 23 * 2 ^ 184 := Nat.mul_lt_mul_of_pos_right hword (by decide)

theorem setCompact_target_le {nBits : Nat} (h : (setCompact nBits).target.toNat ≤ 2 ^ 208 - 1) :
    (setCompact nBits).target.toNat ≤ 0xffff * 2 ^ 192 := by
  rcases setCompact_target_cases nBits with ⟨k, hk⟩ | hlt
  · have : k ≤ 0xffff := by omega
    omega
  · omega

theorem stakeMonotone_posLimitV2_iff (net : Network) {supply : Int} (hmax : supply ≤ maxMoney) :
    (∀ nBits, 0 < (setCompact nBits).target.toNat → (setCompact nBits).target.toNat ≤ net.params.posLimitV2 →
      StakeMonotone nBits supply) ↔ supply ≤ 281479271743489 := by
  have hlimit : net.params.posLimitV2 = 2 ^ 208 - 1 := by cases net <;> rfl
  constructor
  · intro h
    have htop : (setCompact 0x1b00ffff).target.toNat = 0xffff * 2 ^ 192 := by decide
    have hlt := lt_of_stakeMonotone hmax (h 0x1b00ffff (by rw [htop]; decide) (by rw [htop, hlimit]; decide))
    rw [htop] at hlt
    omega
  · intro hle nBits _ htarget
    have htop := setCompact_target_le (hlimit ▸ htarget)
    refine stakeMonotone_of_exact (weightExact_of_lt hmax ?_)
    by_cases hneg : supply < 0
    · exact lt_of_le_of_lt (mul_nonpos_of_nonneg_of_nonpos (by omega) hneg.le) (by decide)
    · calc ((setCompact nBits).target.toNat : Int) * supply
          ≤ (0xffff * 2 ^ 192) * 281479271743489 := mul_le_mul (by omega) hle (by omega) (by decide)
        _ < 2 ^ 256 := by decide

theorem stakeMonotone_posLimitV2_maxMoney : ¬ ∀ nBits, 0 < (setCompact nBits).target.toNat →
    (setCompact nBits).target.toNat ≤ Network.main.params.posLimitV2 → StakeMonotone nBits maxMoney := by
  rw [stakeMonotone_posLimitV2_iff .main (le_refl maxMoney)]
  decide

end CodexaCoin
