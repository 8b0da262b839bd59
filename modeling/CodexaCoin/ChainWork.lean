import CodexaCoin.Retarget

/-!
# Chain work

`GetBlockProof` divides the complement of the target by the target plus one, since `2 ^ 256` itself does not fit into
256 bits, and adds one. The target comes from the compact form of `nBits`, so it never has all bits set and the division
never meets a zero.
-/

namespace CodexaCoin

/-! ## What a compact value stands for -/

section Fields

/-- `arith_uint256::GetCompact` with its sign argument. -/
def getCompactSigned (a : ArithUint256) (fNegative : Bool) : Nat :=
  let nCompact := getCompact a
  nCompact ||| (if fNegative ∧ nCompact &&& 0x007fffff ≠ 0 then 0x00800000 else 0)

/-- A compact value that is not negative and does not overflow. -/
def Proper (nCompact : Nat) : Prop :=
  (setCompact nCompact).fNegative = false ∧ (setCompact nCompact).fOverflow = false

/-- The compact-representable numbers. -/
def Representable (y : Nat) : Prop :=
  ∃ nCompact < 2 ^ 32, Proper nCompact ∧ (setCompact nCompact).target.toNat = y

/-- Canonical compact values: zero, or a mantissa with no leading zero byte beyond the one that keeps the sign bit free,
no digits below the point and no overflow. -/
def Canonical (nCompact : Nat) : Prop :=
  nCompact = 0 ∨ nCompact < 2 ^ 32 ∧ 0x8000 ≤ nCompact &&& 0x007fffff ∧
    2 ^ (8 * (3 - nCompact >>> 24)) ∣ nCompact &&& 0x007fffff ∧ (setCompact nCompact).fOverflow = false

instance (nCompact : Nat) : Decidable (Proper nCompact) :=
  inferInstanceAs (Decidable (_ ∧ _))

instance (nCompact : Nat) : Decidable (Canonical nCompact) :=
  inferInstanceAs (Decidable (_ ∨ _))

/-- The number that a mantissa `m` with size `s` stands for. -/
def compactValue (m s : Nat) : Nat :=
  if s ≤ 3 then m / 2 ^ (8 * (3 - s)) else m * 2 ^ (8 * (s - 3))

def FitsSize (m s : Nat) : Prop :=
  m = 0 ∨ s ≤ 32 ∨ s = 33 ∧ m ≤ 0xffff ∨ s = 34 ∧ m ≤ 0xff

variable {c m s : Nat}

theorem word_lt (c : Nat) : c &&& 0x007fffff < 2 ^ 23 := by
  rw [show (0x007fffff : Nat) = 2 ^ 23 - 1 from rfl, Nat.and_two_pow_sub_one_eq_mod]
  exact Nat.mod_lt _ (by decide)

theorem compactValue_lt (hm : m < 2 ^ 23) (hfits : FitsSize m s) : compactValue m s + 1 < 2 ^ 256 := by
  unfold compactValue
  split
  · have := Nat.div_le_self m (2 ^ (8 * (3 - s)))
    omega
  · next hs =>
    have hbound : m * 2 ^ (8 * (s - 3)) < 2 ^ 256 := by
      have key : ∀ {a k : Nat}, m < 2 ^ a → s ≤ k → a + 8 * (k - 3) ≤ 256 → m * 2 ^ (8 * (s - 3)) < 2 ^ 256 := by
        intro a k ha hk hsum
        calc m * 2 ^ (8 * (s - 3)) < 2 ^ a * 2 ^ (8 * (s - 3)) := Nat.mul_lt_mul_of_pos_right ha (by positivity)
          _ = 2 ^ (a + 8 * (s - 3)) := (Nat.pow_add _ _ _).symm
          _ ≤ 2 ^ 256 := Nat.pow_le_pow_right (by decide) (by omega)
      rcases hfits with rfl | h | ⟨h, hm'⟩ | ⟨h, hm'⟩
      · rw [Nat.zero_mul]; positivity
      · exact key hm h (by decide)
      · exact @key 16 33 (by omega) h.le (by decide)
      · exact @key 8 34 (by omega) h.le (by decide)
    -- an even number is not `2 ^ 256 - 1`
    obtain ⟨k, hk⟩ : 2 ∣ m * 2 ^ (8 * (s - 3)) := Dvd.dvd.mul_left (dvd_pow_self 2 (by omega)) m
    omega

theorem fOverflow_eq_false_iff : (setCompact c).fOverflow = false ↔ FitsSize (c &&& 0x007fffff) (c >>> 24) := by
  simp only [setCompact, FitsSize, decide_eq_false_iff_not]
  split
  · omega
  · omega

theorem setCompact_toNat (h : (setCompact c).fOverflow = false) :
    (setCompact c).target.toNat = compactValue (c &&& 0x007fffff) (c >>> 24) := by
  have hm := word_lt c
  have hlt := compactValue_lt hm (fOverflow_eq_false_iff.1 h)
  simp only [setCompact, compactValue] at hlt ⊢
  split at hlt <;> rename_i hs
  · rw [if_pos hs, if_pos hs, if_pos hs, BitVec.toNat_ofNat, Nat.shiftRight_eq_div_pow, Nat.mod_eq_of_lt (by omega)]
  · rw [if_neg hs, if_neg hs, if_neg hs, BitVec.toNat_shiftLeft, BitVec.toNat_ofNat, Nat.shiftLeft_eq,
      Nat.mod_eq_of_lt (show c &&& 0x007fffff < 2 ^ 256 by omega), Nat.mod_eq_of_lt (by omega)]

end Fields

/-! ## The work of a block -/

section Proof

variable {nBits nBits' : Nat}

/-- **The work of a block.** -/
theorem getBlockProof_toNat (nBits : Nat) :
    (getBlockProof nBits).toNat =
      if (setCompact nBits).fNegative ∨ (setCompact nBits).fOverflow ∨ (setCompact nBits).target = 0 then 0
      else 2 ^ 256 / ((setCompact nBits).target.toNat + 1) := by
  simp only [getBlockProof]
  split
  · rfl
  · next h =>
    rw [not_or, not_or, Bool.not_eq_true, Bool.not_eq_true] at h
    obtain ⟨-, hover, hzero⟩ := h
    have hlt := compactValue_lt (word_lt nBits) (fOverflow_eq_false_iff.1 hover)
    rw [← setCompact_toNat hover] at hlt
    generalize (setCompact nBits).target = t at hzero hlt ⊢
    have hpos : 0 < t.toNat := Nat.pos_of_ne_zero fun h0 => hzero (BitVec.eq_of_toNat_eq h0)
    have hsucc : (t + 1).toNat = t.toNat + 1 := by
      rw [BitVec.toNat_add]
      exact Nat.mod_eq_of_lt hlt
    have hne : t + 1 ≠ 0 := fun h0 => by
      rw [h0] at hsucc
      exact absurd hsucc (Nat.succ_ne_zero _).symm
    -- `2 ^ 256` is the complement of the target plus one more divisor
    have hsplit : 2 ^ 256 = (2 ^ 256 - 1 - t.toNat) + (t.toNat + 1) := by omega
    have hdiv : 2 ^ 256 / (t.toNat + 1) = (2 ^ 256 - 1 - t.toNat) / (t.toNat + 1) + 1 := by
      conv_lhs => rw [hsplit]
      exact Nat.add_div_right _ (Nat.succ_pos _)
    have hfit : 2 ^ 256 / (t.toNat + 1) < 2 ^ 256 := Nat.div_lt_self (by positivity) (by omega)
    rw [ArithUint256.div_eq _ hne, BitVec.toNat_add, BitVec.toNat_udiv, BitVec.toNat_not, hsucc, hdiv]
    rw [hdiv] at hfit
    exact Nat.mod_eq_of_lt hfit

/-- **More work for a smaller target.** -/
theorem getBlockProof_anti (h : Proper nBits) (hpos : (setCompact nBits).target ≠ 0)
    (hle : (setCompact nBits).target.toNat ≤ (setCompact nBits').target.toNat) :
    (getBlockProof nBits').toNat ≤ (getBlockProof nBits).toNat := by
  have hwork : (getBlockProof nBits).toNat = 2 ^ 256 / ((setCompact nBits).target.toNat + 1) := by
    rw [getBlockProof_toNat, h.1, h.2, if_neg (by simpa using hpos)]
  rw [hwork, getBlockProof_toNat]
  split
  · exact Nat.zero_le _
  · exact Nat.div_le_div_left (by omega) (Nat.succ_pos _)

end Proof

/-! ## Compact numbers -/

section Compact

variable {a : ArithUint256} {c m s k : Nat}

theorem bits_le_of_lt (h : a.toNat < 2 ^ k) : a.bits ≤ k := by
  by_cases ha : a.toNat = 0
  · rw [ArithUint256.bits, if_pos ha]
    exact Nat.zero_le _
  · have := (Nat.pow_lt_pow_iff_right (by decide)).1 (Nat.lt_of_le_of_lt (two_pow_pred_bits_le ha) h)
    omega

theorem lt_bits_of_le (h : 2 ^ k ≤ a.toNat) : k < a.bits :=
  (Nat.pow_lt_pow_iff_right (by decide)).1 (Nat.lt_of_le_of_lt h a.toNat_lt_two_pow_bits)

theorem compactValue_mul (m s : Nat) :
    compactValue m s * 2 ^ 24 = m / 2 ^ (8 * (3 - s)) * 2 ^ (8 * (3 - s)) * 2 ^ (8 * s) := by
  unfold compactValue
  split
  · next hs =>
    rw [Nat.mul_assoc, ← Nat.pow_add]
    congr 2
    omega
  · next hs =>
    rw [show 8 * (3 - s) = 0 by omega, Nat.pow_zero, Nat.div_one, Nat.mul_one, Nat.mul_assoc, ← Nat.pow_add]
    congr 2
    omega

theorem compactValue_lt_two_pow (hm : m < 2 ^ 23) (hs : s ≠ 0) : compactValue m s < 2 ^ (8 * s - 1) := by
  refine Nat.lt_of_mul_lt_mul_right (a := 2 ^ 24) ?_
  calc compactValue m s * 2 ^ 24 = m / 2 ^ (8 * (3 - s)) * 2 ^ (8 * (3 - s)) * 2 ^ (8 * s) := compactValue_mul m s
    _ ≤ m * 2 ^ (8 * s) := Nat.mul_le_mul_right _ (Nat.div_mul_le_self _ _)
    _ < 2 ^ 23 * 2 ^ (8 * s) := Nat.mul_lt_mul_of_pos_right hm (by positivity)
    _ = 2 ^ (8 * s - 1) * 2 ^ 24 := by rw [← Nat.pow_add, ← Nat.pow_add]; congr 1; omega

theorem two_pow_le_compactValue (hlow : 2 ^ 15 ≤ m) (hdvd : 2 ^ (8 * (3 - s)) ∣ m) (hs : s ≠ 0) :
    2 ^ (8 * s - 9) ≤ compactValue m s := by
  refine Nat.le_of_mul_le_mul_right ?_ (show 0 < 2 ^ 24 by decide)
  rw [compactValue_mul, Nat.div_mul_cancel hdvd]
  by_cases h1 : s = 1
  · -- one byte: the two bytes below the point are zero
    subst h1
    have := Nat.le_of_dvd (by omega) hdvd
    omega
  calc 2 ^ (8 * s - 9) * 2 ^ 24 = 2 ^ 15 * 2 ^ (8 * s) := by rw [← Nat.pow_add, ← Nat.pow_add]; congr 1; omega
    _ ≤ m * 2 ^ (8 * s) := Nat.mul_le_mul_right _ hlow

/-- **A compact number is not rounded**: its low bytes are zero as far as the size says. -/
theorem compactRound_eq_self (hm : m < 2 ^ 23) (ha : a.toNat = compactValue m s) : compactRound a = a.toNat := by
  suffices hdvd : 2 ^ compactShift a ∣ a.toNat from Nat.div_mul_cancel hdvd
  by_cases hs : s ≤ 3
  · have hlt : a.toNat < 2 ^ 23 := by
      rw [ha, compactValue, if_pos hs]
      exact Nat.lt_of_le_of_lt (Nat.div_le_self _ _) hm
    have hshift : compactShift a = 0 := by
      have := bits_le_of_lt hlt
      unfold compactShift
      omega
    rw [hshift, Nat.pow_zero]
    exact Nat.one_dvd _
  · have hbits := bits_le_of_lt (ha ▸ compactValue_lt_two_pow hm (by omega : s ≠ 0))
    rw [ha, compactValue, if_neg hs]
    exact Dvd.dvd.mul_left (pow_dvd_pow 2 (by unfold compactShift; omega)) m

theorem getCompact_of_compactValue (hlow : 0x8000 ≤ m) (hm : m < 2 ^ 23) (hdvd : 2 ^ (8 * (3 - s)) ∣ m)
    (ha : a.toNat = compactValue m s) : getCompact a = m ||| s <<< 24 := by
  have hspos : s ≠ 0 := by
    rintro rfl
    have := Nat.le_of_dvd (by omega) hdvd
    omega
  have hlower : 2 ^ (8 * s - 9) ≤ a.toNat := ha ▸ two_pow_le_compactValue hlow hdvd hspos
  have hupper : a.toNat < 2 ^ (8 * s - 1) := ha ▸ compactValue_lt_two_pow hm (by omega)
  have hsize : s = a.bits / 8 + 1 := by
    have := bits_le_of_lt hupper
    have := lt_bits_of_le hlower
    omega
  rw [getCompact_eq (by have := Nat.two_pow_pos (8 * s - 9); omega) hsize]
  congr 1
  rw [ha, compactValue]
  split
  · next hs =>
    rw [Nat.shiftLeft_eq, Nat.div_mul_cancel hdvd]
  · next hs =>
    rw [Nat.shiftRight_eq_div_pow, Nat.mul_div_cancel _ (by positivity)]

theorem or_fields (c : Nat) : (c &&& 0x007fffff ||| (c >>> 24) <<< 24) ||| c &&& 0x00800000 = c := by
  apply Nat.eq_of_testBit_eq
  intro i
  rw [show (0x007fffff : Nat) = 2 ^ 23 - 1 from rfl, show (0x00800000 : Nat) = 2 ^ 23 from rfl]
  simp only [Nat.testBit_or, Nat.testBit_and, Nat.testBit_shiftLeft, Nat.testBit_shiftRight,
    Nat.testBit_two_pow_sub_one, Nat.testBit_two_pow]
  rcases Nat.lt_trichotomy i 23 with hlt | rfl | hgt
  · simp [hlt, show ¬ 24 ≤ i by omega, show ¬ 23 = i by omega]
  · simp
  · simp [show ¬ i < 23 by omega, show 24 ≤ i by omega, show ¬ 23 = i by omega, show 24 + (i - 24) = i by omega]

theorem and_signBit (c : Nat) : c &&& 0x00800000 = 0 ∨ c &&& 0x00800000 = 0x00800000 := by
  rw [show (0x00800000 : Nat) = 2 ^ 23 from rfl, Nat.and_two_pow]
  cases c.testBit 23
  · exact .inl rfl
  · exact .inr rfl

theorem getCompact_zero (ha : a.toNat = 0) : getCompact a = 0 := by
  rw [BitVec.eq_of_toNat_eq (x := a) (y := 0#256) ha]
  rfl

theorem getCompact_setCompact (hc : Canonical c) :
    getCompact (setCompact c).target = c &&& 0x007fffff ||| (c >>> 24) <<< 24 := by
  rcases hc with rfl | ⟨hc, hlow, hdvd, hover⟩
  · rfl
  · exact getCompact_of_compactValue hlow (word_lt c) hdvd (setCompact_toNat hover)

theorem fields_or {b : Nat} (hm : m < 2 ^ 23) (hb : b = 0 ∨ b = 0x00800000) :
    ((m ||| s <<< 24) ||| b) &&& 0x007fffff = m ∧ ((m ||| s <<< 24) ||| b) >>> 24 = s ∧
      ((m ||| s <<< 24) ||| b) &&& 0x00800000 = b := by
  refine ⟨?_, ?_, ?_⟩
  · have hshift : s <<< 24 % 2 ^ 23 = 0 := by rw [Nat.shiftLeft_eq]; omega
    have hsign : b % 2 ^ 23 = 0 := by rcases hb with rfl | rfl <;> rfl
    rw [show (0x007fffff : Nat) = 2 ^ 23 - 1 from rfl, Nat.and_or_distrib_right, Nat.and_or_distrib_right]
    simp only [Nat.and_two_pow_sub_one_eq_mod, hshift, hsign, Nat.or_zero, Nat.mod_eq_of_lt hm]
  · have hword : m >>> 24 = 0 := by rw [Nat.shiftRight_eq_div_pow]; omega
    have hsign : b >>> 24 = 0 := by rcases hb with rfl | rfl <;> rfl
    rw [Nat.shiftRight_or_distrib, Nat.shiftRight_or_distrib, hword, hsign, Nat.shiftLeft_shiftRight, Nat.zero_or,
      Nat.or_zero]
  · have hshift : s <<< 24 &&& 0x00800000 = 0 := by
      rw [show (0x00800000 : Nat) = 2 ^ 23 from rfl, Nat.and_two_pow, Nat.testBit_shiftLeft]
      simp
    have hsign : b &&& 0x00800000 = b := by rcases hb with rfl | rfl <;> rfl
    rw [Nat.and_or_distrib_right, Nat.and_or_distrib_right, (and_signBit_eq_zero_iff (by omega)).2 hm, hshift, hsign]
    simp

theorem fNegative_of_canonical (hlow : 0x8000 ≤ c &&& 0x007fffff)
    (hdvd : 2 ^ (8 * (3 - c >>> 24)) ∣ c &&& 0x007fffff) :
    (setCompact c).fNegative = decide (c &&& 0x00800000 ≠ 0) := by
  have hpos := Nat.div_pos (Nat.le_of_dvd (by omega) hdvd) (by positivity)
  simp only [setCompact]
  split
  · rw [Nat.shiftRight_eq_div_pow]
    simp only [ne_eq, hpos.ne', not_false_eq_true, true_and]
  · simp only [ne_eq, show ¬ c &&& 0x007fffff = 0 by omega, not_false_eq_true, true_and]

/-- **A canonical compact value survives decoding and encoding.** -/
theorem getCompactSigned_setCompact (hc : Canonical c) :
    getCompactSigned (setCompact c).target (setCompact c).fNegative = c := by
  rw [getCompactSigned, getCompact_setCompact hc]
  rcases hc with rfl | ⟨-, hlow, hdvd, -⟩
  · rfl
  have hword := (@fields_or _ (c >>> 24) 0 (word_lt c) (.inl rfl)).1
  rw [Nat.or_zero] at hword
  rw [hword, fNegative_of_canonical hlow hdvd]
  conv_rhs => rw [← or_fields c]
  congr 1
  rcases and_signBit c with h | h
  · simp [h]
  · simp [h, show ¬ c &&& 0x007fffff = 0 by omega]

theorem getCompact_fields (ha : a.toNat ≠ 0) :
    ∃ m s, getCompact a = m ||| s <<< 24 ∧ 0x8000 ≤ m ∧ m < 2 ^ 23 ∧ 2 ^ (8 * (3 - s)) ∣ m ∧ s ≤ 33 ∧ FitsSize m s := by
  have hbits : a.bits ≤ 256 := bits_le_of_lt a.isLt
  have hlow := two_pow_pred_bits_le ha
  have hpos := bits_pos ha
  refine ⟨_, _, getCompact_eq ha rfl, ?_, mantissa_bounds rfl, ?_, by omega, ?_⟩
  · split
    · rw [Nat.shiftLeft_eq]
      calc 0x8000 = 2 ^ 15 := rfl
        _ ≤ 2 ^ (a.bits - 1 + 8 * (3 - (a.bits / 8 + 1))) := Nat.pow_le_pow_right (by decide) (by omega)
        _ = 2 ^ (a.bits - 1) * 2 ^ (8 * (3 - (a.bits / 8 + 1))) := Nat.pow_add _ _ _
        _ ≤ _ := Nat.mul_le_mul_right _ hlow
    · rw [Nat.shiftRight_eq_div_pow, Nat.le_div_iff_mul_le (by positivity), show (0x8000 : Nat) = 2 ^ 15 from rfl,
        ← Nat.pow_add]
      exact (Nat.pow_le_pow_right (by decide) (by omega)).trans hlow
  · split
    · rw [Nat.shiftLeft_eq]
      exact Nat.dvd_mul_left _ _
    · rw [show 8 * (3 - (a.bits / 8 + 1)) = 0 by omega]
      exact Nat.one_dvd _
  · by_cases h : a.bits / 8 + 1 ≤ 32
    · exact .inr (.inl h)
    · have h33 : a.bits / 8 + 1 = 33 := by omega
      have htop : a.toNat / 2 ^ 240 < 2 ^ 16 := Nat.div_lt_of_lt_mul (by rw [← Nat.pow_add]; exact a.isLt)
      refine .inr (.inr (.inl ⟨h33, ?_⟩))
      rw [h33, if_neg (by decide), Nat.shiftRight_eq_div_pow]
      exact Nat.le_of_lt_succ htop

/-- **The canonical values are what `GetCompact` returns.** -/
theorem canonical_iff : Canonical c ↔ ∃ a fNegative, getCompactSigned a fNegative = c := by
  constructor
  · intro hc
    exact ⟨_, _, getCompactSigned_setCompact hc⟩
  · rintro ⟨a, fNegative, rfl⟩
    by_cases ha : a.toNat = 0
    · refine .inl ?_
      rw [getCompactSigned, getCompact_zero ha]
      simp
    · obtain ⟨m, s, hcompact, hlow, hm, hdvd, hs, hfits⟩ := getCompact_fields ha
      rw [getCompactSigned, hcompact]
      generalize hb : (if fNegative = true ∧ (m ||| s <<< 24) &&& 0x007fffff ≠ 0 then 0x00800000 else 0) = b
      have hb' : b = 0 ∨ b = 0x00800000 := by
        rw [← hb]
        split
        · exact .inr rfl
        · exact .inl rfl
      obtain ⟨hword, hsize, -⟩ := @fields_or m s b hm hb'
      refine .inr ⟨?_, by rwa [hword], by rwa [hword, hsize], fOverflow_eq_false_iff.2 (by rwa [hword, hsize])⟩
      rw [Nat.shiftRight_eq_div_pow] at hsize
      omega

theorem getCompact_canonical (a : ArithUint256) : Canonical (getCompact a) :=
  canonical_iff.2 ⟨a, false, by simp [getCompactSigned]⟩

theorem getCompact_proper (a : ArithUint256) : Proper (getCompact a) := by
  by_cases ha : a.toNat = 0
  · rw [getCompact_zero ha]
    decide
  · obtain ⟨m, s, hcompact, hlow, hm, hdvd, -, hfits⟩ := getCompact_fields ha
    obtain ⟨hword, hsize, hsign⟩ := @fields_or m s 0 hm (.inl rfl)
    rw [Nat.or_zero, ← hcompact] at hword hsize hsign
    constructor
    · rw [fNegative_of_canonical (by rwa [hword]) (by rwa [hword, hsize]), hsign]
      rfl
    · rw [fOverflow_eq_false_iff, hword, hsize]
      exact hfits

theorem getCompact_lt (a : ArithUint256) : getCompact a < 2 ^ 32 := by
  rcases getCompact_canonical a with h | h
  · rw [h]
    decide
  · exact h.1

/-- **Encoding rounds down to the next compact number.** -/
theorem isGreatest_setCompact_getCompact (a : ArithUint256) :
    IsGreatest {y | Representable y ∧ y ≤ a.toNat} (setCompact (getCompact a)).target.toNat := by
  refine ⟨⟨⟨_, getCompact_lt a, getCompact_proper a, rfl⟩, setCompact_getCompact_le a⟩, ?_⟩
  rintro y ⟨⟨c, -, ⟨-, hover⟩, rfl⟩, hle⟩
  by_cases ha : a.toNat = 0
  · omega
  · -- rounding keeps the order and does not move a compact number
    rw [setCompact_getCompact_toNat ha, ← compactRound_eq_self (word_lt c) (setCompact_toNat hover)]
    exact compactRound_mono hle

theorem chainWork_exact :
    (∀ nBits, (getBlockProof nBits).toNat =
      if (setCompact nBits).fNegative ∨ (setCompact nBits).fOverflow ∨ (setCompact nBits).target = 0 then 0
      else 2 ^ 256 / ((setCompact nBits).target.toNat + 1)) ∧
    (∀ nBits nBits', Proper nBits → (setCompact nBits).target ≠ 0 →
      (setCompact nBits).target.toNat ≤ (setCompact nBits').target.toNat →
      (getBlockProof nBits').toNat ≤ (getBlockProof nBits).toNat) ∧
    (∀ c, Canonical c → getCompactSigned (setCompact c).target (setCompact c).fNegative = c ∧
      ((setCompact c).fNegative = false → getCompact (setCompact c).target = c)) ∧
    (∀ c, Canonical c ↔ ∃ a fNegative, getCompactSigned a fNegative = c) ∧
    ∀ a, IsGreatest {y | Representable y ∧ y ≤ a.toNat} (setCompact (getCompact a)).target.toNat := by
  refine ⟨getBlockProof_toNat, fun nBits nBits' => getBlockProof_anti, ?_, fun c => canonical_iff,
    isGreatest_setCompact_getCompact⟩
  intro c hc
  have hround := getCompactSigned_setCompact hc
  refine ⟨hround, fun hneg => ?_⟩
  rw [hneg] at hround
  simpa [getCompactSigned] using hround

theorem chainWork_exact_limit :
    (getBlockProof 0x1e0fffff).toNat ≤ (getBlockProof 0x1d00ffff).toNat ∧
      getCompact (setCompact 0x02008000).target = 0x02008000 ∧
      getCompactSigned (setCompact 0x04923456).target (setCompact 0x04923456).fNegative = 0x04923456 :=
  ⟨chainWork_exact.2.1 0x1d00ffff 0x1e0fffff (by decide) (by decide) (by decide),
    (chainWork_exact.2.2.1 0x02008000 (by decide)).2 (by decide), (chainWork_exact.2.2.1 0x04923456 (by decide)).1⟩

end Compact

end CodexaCoin
