import CodexaCoin.Lib.Limbs

/-!
# 256-bit integers

`arith_uint256.cpp`: eight 32-bit limbs, multiplication that wraps modulo `2 ^ 256`, shift-and-subtract division and
the compact encoding of targets.
-/

namespace CodexaCoin

abbrev ArithUint256 := BitVec 256

namespace ArithUint256

/-- The limbs `pn[0]` … `pn[7]`. -/
def pn (a : ArithUint256) : List Nat :=
  Limbs.limbs (2 ^ 32) 8 a.toNat

def ofPn (l : List Nat) : ArithUint256 :=
  BitVec.ofNat 256 (Nat.ofDigits (2 ^ 32) l)

theorem ofDigits_pn (a : ArithUint256) : Nat.ofDigits (2 ^ 32) a.pn = a.toNat := by
  rw [pn, Limbs.ofDigits_limbs, ← Nat.pow_mul]
  exact Nat.mod_eq_of_lt a.isLt

@[simp] theorem length_pn (a : ArithUint256) : a.pn.length = 8 :=
  Limbs.length_limbs 8 _

theorem pn_lt (a : ArithUint256) : ∀ x ∈ a.pn, x < 2 ^ 32 :=
  Limbs.limbs_lt (by decide)

/-- `operator*=(const base_uint& b)`. -/
def mulAssign (a b : ArithUint256) : ArithUint256 :=
  ofPn (Limbs.mulAssign (2 ^ 32) a.pn b.pn)

/-- `operator*=(uint32_t b32)`, the overload that an `int64_t` factor selects: the factor is cut to 32 bits. -/
def mulAssign32 (a : ArithUint256) (b : Int) : ArithUint256 :=
  ofPn (Limbs.mulSmall (2 ^ 32) (b % 2 ^ 32).toNat 0 a.pn)

/-- **`operator*=` multiplies modulo `2 ^ 256`.** -/
theorem mulAssign_eq (a b : ArithUint256) : a.mulAssign b = a * b := by
  have h := Limbs.ofDigits_mulAssign (by decide) a.pn_lt b.pn_lt (by simp)
  rw [ofDigits_pn, ofDigits_pn, length_pn, ← Nat.pow_mul] at h
  apply BitVec.eq_of_toNat_eq
  rw [mulAssign, ofPn, h, BitVec.toNat_ofNat, BitVec.toNat_mul, Nat.mod_mod]

theorem mulAssign_toNat_of_lt {a b : ArithUint256} (h : a.toNat * b.toNat < 2 ^ 256) :
    (a.mulAssign b).toNat = a.toNat * b.toNat := by
  rw [mulAssign_eq, BitVec.toNat_mul, Nat.mod_eq_of_lt h]

theorem mulAssign32_toNat (a : ArithUint256) (b : Int) :
    (a.mulAssign32 b).toNat = a.toNat * (b % 2 ^ 32).toNat % 2 ^ 256 := by
  have hb : (b % 2 ^ 32).toNat < 2 ^ 32 := by omega
  have h := Limbs.ofDigits_mulSmall (by decide) hb a.pn_lt
  rw [ofDigits_pn, length_pn, ← Nat.pow_mul] at h
  rw [mulAssign32, ofPn, h, BitVec.toNat_ofNat, Nat.mod_mod]

def bits (a : ArithUint256) : Nat :=
  if a.toNat = 0 then 0 else Nat.log2 a.toNat + 1

/-- `operator/=`; the caller makes sure that the divisor is not zero, where the source throws. -/
def div (a b : ArithUint256) : ArithUint256 :=
  if b.bits > a.bits then 0
  else
    let shift := a.bits - b.bits
    BitVec.ofNat 256 (Limbs.divLoop shift a.toNat (b.toNat * 2 ^ shift) 0)

theorem toNat_lt_two_pow_bits (a : ArithUint256) : a.toNat < 2 ^ a.bits := by
  unfold bits
  split
  · next h => simp [h]
  · exact Nat.lt_log2_self

theorem two_pow_bits_le {a : ArithUint256} (h : a.toNat ≠ 0) : 2 ^ a.bits ≤ a.toNat * 2 := by
  rw [bits, if_neg h, Nat.pow_succ]
  exact Nat.mul_le_mul_right 2 (Nat.log2_self_le h)

/-- **`operator/` is the quotient.** -/
theorem div_eq (a : ArithUint256) {b : ArithUint256} (hb : b ≠ 0) : a.div b = a / b := by
  have hb0 : b.toNat ≠ 0 := fun h => hb (BitVec.eq_of_toNat_eq h)
  apply BitVec.eq_of_toNat_eq
  rw [BitVec.toNat_udiv, div]
  have hblow := two_pow_bits_le hb0
  split
  · next h =>
    have hpow : 2 ^ a.bits * 2 ≤ 2 ^ b.bits := by
      rw [← Nat.pow_succ]; exact Nat.pow_le_pow_right (by omega) h
    have hlt : a.toNat < b.toNat := by
      have := a.toNat_lt_two_pow_bits
      omega
    rw [Nat.div_eq_of_lt hlt]; rfl
  · next h =>
    -- the aligned divisor has as many bits as the dividend
    have hnum : a.toNat < b.toNat * 2 ^ (a.bits - b.bits + 1) := by
      calc a.toNat < 2 ^ a.bits := a.toNat_lt_two_pow_bits
        _ = 2 ^ b.bits * 2 ^ (a.bits - b.bits) := by rw [← Nat.pow_add]; congr 1; omega
        _ ≤ b.toNat * 2 * 2 ^ (a.bits - b.bits) := Nat.mul_le_mul_right _ hblow
        _ = b.toNat * 2 ^ (a.bits - b.bits + 1) := by rw [Nat.pow_succ]; ring
    have hdiv := Limbs.divLoop_eq (Nat.pos_of_ne_zero hb0) hnum (Nat.dvd_zero _)
    simp only [hdiv, Nat.zero_add, BitVec.toNat_ofNat]
    exact Nat.mod_eq_of_lt (Nat.lt_of_le_of_lt (Nat.div_le_self _ _) a.isLt)

end ArithUint256

/-! ## Compact targets -/

/-- The result of `SetCompact`. -/
structure CompactTarget where
  target : ArithUint256
  fNegative : Bool
  fOverflow : Bool

def setCompact (nCompact : Nat) : CompactTarget :=
  let nSize := nCompact >>> 24
  let nWord := nCompact &&& 0x007fffff
  let w := if nSize ≤ 3 then nWord >>> (8 * (3 - nSize)) else nWord
  { target := if nSize ≤ 3 then BitVec.ofNat 256 w else BitVec.ofNat 256 w <<< (8 * (nSize - 3))
    fNegative := decide (w ≠ 0 ∧ nCompact &&& 0x00800000 ≠ 0)
    fOverflow := decide (w ≠ 0 ∧ (nSize > 34 ∨ (w > 0xff ∧ nSize > 33) ∨ (w > 0xffff ∧ nSize > 32))) }

def getCompact (a : ArithUint256) : Nat :=
  let nSize := (a.bits + 7) / 8
  let nCompact := if nSize ≤ 3 then a.toNat <<< (8 * (3 - nSize)) else a.toNat >>> (8 * (nSize - 3))
  if nCompact &&& 0x00800000 ≠ 0 then (nCompact >>> 8) ||| (nSize + 1) <<< 24
  else nCompact ||| nSize <<< 24

theorem setCompact_or {m s : Nat} (hm : m < 2 ^ 23) :
    (setCompact (m ||| s <<< 24)).target =
      if s ≤ 3 then BitVec.ofNat 256 (m >>> (8 * (3 - s))) else BitVec.ofNat 256 m <<< (8 * (s - 3)) := by
  have hor : m ||| s <<< 24 = 2 ^ 24 * s + m := by
    rw [Nat.or_comm, Nat.shiftLeft_eq, Nat.mul_comm, Nat.two_pow_add_eq_or_of_lt (by omega)]
  have hsize : (2 ^ 24 * s + m) >>> 24 = s := by rw [Nat.shiftRight_eq_div_pow]; omega
  have hword : (2 ^ 24 * s + m) &&& 0x007fffff = m := by
    have h := Nat.and_two_pow_sub_one_eq_mod (2 ^ 24 * s + m) 23
    rw [show (0x007fffff : Nat) = 2 ^ 23 - 1 from rfl, h]; omega
  rw [hor, setCompact, hsize, hword]
  split <;> rfl

theorem setCompact_or_le {m s a : Nat} (hm : m < 2 ^ 23) (h : m * 2 ^ (8 * s) ≤ a * 2 ^ 24) :
    (setCompact (m ||| s <<< 24)).target.toNat ≤ a := by
  rw [setCompact_or hm]
  split
  · next hs =>
    have hpow : 2 ^ 24 = 2 ^ (8 * (3 - s)) * 2 ^ (8 * s) := by rw [← Nat.pow_add]; congr 1; omega
    have hma : m ≤ a * 2 ^ (8 * (3 - s)) := by
      rw [hpow, ← Nat.mul_assoc] at h
      exact Nat.le_of_mul_le_mul_right h (by positivity)
    rw [BitVec.toNat_ofNat, Nat.shiftRight_eq_div_pow]
    exact (Nat.mod_le _ _).trans (Nat.div_le_of_le_mul (by rwa [Nat.mul_comm]))
  · next hs =>
    have hpow : 2 ^ (8 * s) = 2 ^ (8 * (s - 3)) * 2 ^ 24 := by rw [← Nat.pow_add]; congr 1; omega
    have hma : m * 2 ^ (8 * (s - 3)) ≤ a := by
      rw [hpow, ← Nat.mul_assoc] at h
      exact Nat.le_of_mul_le_mul_right h (by decide)
    rw [BitVec.toNat_shiftLeft, BitVec.toNat_ofNat, Nat.shiftLeft_eq]
    exact (Nat.mod_le _ _).trans ((Nat.mul_le_mul_right _ (Nat.mod_le _ _)).trans hma)

theorem getCompact_mantissa (a : ArithUint256) {n m : Nat} (hn : n = (a.bits + 7) / 8)
    (hm : m = if n ≤ 3 then a.toNat <<< (8 * (3 - n)) else a.toNat >>> (8 * (n - 3))) :
    m < 2 ^ 24 ∧ m * 2 ^ (8 * n) ≤ a.toNat * 2 ^ 24 := by
  have hlt : a.toNat < 2 ^ (8 * n) :=
    Nat.lt_of_lt_of_le a.toNat_lt_two_pow_bits (Nat.pow_le_pow_right (by omega) (by omega))
  split at hm
  · next hs =>
    have hpow : 2 ^ 24 = 2 ^ (8 * (3 - n)) * 2 ^ (8 * n) := by rw [← Nat.pow_add]; congr 1; omega
    rw [hm, Nat.shiftLeft_eq, hpow]
    constructor
    · rw [Nat.mul_comm]
      exact Nat.mul_lt_mul_of_pos_left hlt (by positivity)
    · rw [Nat.mul_assoc]
  · next hs =>
    have hpow : 2 ^ (8 * n) = 2 ^ (8 * (n - 3)) * 2 ^ 24 := by rw [← Nat.pow_add]; congr 1; omega
    rw [hm, Nat.shiftRight_eq_div_pow]
    constructor
    · rw [hpow] at hlt
      exact Nat.div_lt_of_lt_mul hlt
    · rw [hpow, ← Nat.mul_assoc]
      exact Nat.mul_le_mul_right _ (Nat.div_mul_le_self _ _)

theorem setCompact_getCompact_le (a : ArithUint256) : (setCompact (getCompact a)).target.toNat ≤ a.toNat := by
  obtain ⟨hlt, hle⟩ := getCompact_mantissa a rfl rfl
  simp only [getCompact]
  generalize hn : (a.bits + 7) / 8 = n at hlt hle ⊢
  generalize (if n ≤ 3 then a.toNat <<< (8 * (3 - n)) else a.toNat >>> (8 * (n - 3))) = m at hlt hle ⊢
  split
  · -- the top bit would read as a sign, so one more byte is dropped
    have hm : m >>> 8 = m / 2 ^ 8 := Nat.shiftRight_eq_div_pow m 8
    refine setCompact_or_le (by omega) ?_
    calc m >>> 8 * 2 ^ (8 * (n + 1)) = m / 2 ^ 8 * 2 ^ 8 * 2 ^ (8 * n) := by
          rw [hm, Nat.mul_succ, Nat.pow_add]; ring
      _ ≤ m * 2 ^ (8 * n) := Nat.mul_le_mul_right _ (Nat.div_mul_le_self _ _)
      _ ≤ _ := hle
  · next hbit =>
    refine setCompact_or_le ?_ hle
    by_contra hge
    have htest : m.testBit 23 = true := Nat.testBit_of_two_pow_le_and_two_pow_add_one_gt (by omega) (by omega)
    rw [not_not] at hbit
    have h23 := congrArg (fun x => Nat.testBit x 23) hbit
    simp [htest] at h23
    revert h23
    decide

end CodexaCoin
