import Mathlib

/-!
# Rounding to a fixed number of binary digits

Floating-point numbers of precision `p`, with exponents that are not bounded: rounding goes to the nearest number with
at most `p` significant binary digits, and to the one with the even last digit if two are equally near. The doubles are
those of precision 53. For integers there is a form that computes with natural numbers only.
-/

namespace Double

variable {p m n : Nat}

/-! ## Natural numbers -/

variable (p) in
/-- The distance of the numbers of precision `p` in the binade of `n`. -/
def ulp (n : Nat) : Nat := 2 ^ (n.log2 + 1 - p)

variable (p) in
/-- The nearest number of precision `p`. -/
def round (n : Nat) : Nat :=
  let u := ulp p n
  let q := n / u
  if 2 * (n % u) < u ∨ (2 * (n % u) = u ∧ q % 2 = 0) then q * u else (q + 1) * u

theorem ulp_pos (n : Nat) : 0 < ulp p n := Nat.two_pow_pos _

theorem log2_le_log2 (h : m ≤ n) : m.log2 ≤ n.log2 := by
  rcases Nat.eq_zero_or_pos m with rfl | hm
  · simp
  · rw [Nat.le_log2 (by omega)]
    exact (Nat.log2_self_le (by omega)).trans h

theorem ulp_dvd_ulp (h : m ≤ n) : ulp p m ∣ ulp p n := by
  have := log2_le_log2 h
  exact Nat.pow_dvd_pow 2 (by omega)

theorem ulp_dvd_round (n : Nat) : ulp p n ∣ round p n := by
  unfold round
  dsimp only
  split
  · exact Nat.dvd_mul_left _ _
  · exact Nat.dvd_mul_left _ _

theorem round_eq_self_iff : round p n = n ↔ ulp p n ∣ n := by
  constructor
  · intro h
    have := ulp_dvd_round (p := p) n
    rwa [h] at this
  · intro h
    unfold round
    dsimp only
    rw [Nat.mod_eq_zero_of_dvd h, if_pos (.inl (by simpa using ulp_pos n)), Nat.div_mul_cancel h]

theorem ulp_eq_one (hp : 0 < p) (h : n < 2 ^ p) : ulp p n = 1 := by
  rcases Nat.eq_zero_or_pos n with rfl | hn
  · rw [ulp, Nat.log2_zero, Nat.sub_eq_zero_of_le (by omega), Nat.pow_zero]
  · have := (Nat.log2_lt (by omega)).2 h
    rw [ulp, Nat.sub_eq_zero_of_le (by omega), Nat.pow_zero]

theorem two_pow_le_round (hp : 0 < p) {k : Nat} (h : 2 ^ k ≤ n) : 2 ^ k ≤ round p n := by
  have hn : n ≠ 0 := by
    have := Nat.two_pow_pos k
    omega
  have hk : k ≤ n.log2 := (Nat.le_log2 hn).2 h
  have hfloor : 2 ^ n.log2 ≤ n / ulp p n * ulp p n := by
    obtain ⟨c, hc⟩ : ulp p n ∣ 2 ^ n.log2 := Nat.pow_dvd_pow 2 (by omega)
    rw [hc, Nat.mul_comm]
    refine Nat.mul_le_mul_right _ ((Nat.le_div_iff_mul_le (ulp_pos n)).2 ?_)
    rw [Nat.mul_comm, ← hc]
    exact Nat.log2_self_le hn
  have hround : n / ulp p n * ulp p n ≤ round p n := by
    unfold round
    dsimp only
    split
    · exact Nat.le_refl _
    · exact Nat.mul_le_mul_right _ (Nat.le_succ _)
  exact (Nat.pow_le_pow_right (by decide) hk).trans (hfloor.trans hround)

/-- **What was rounded is not rounded again.** -/
theorem round_round (hp : 0 < p) (n : Nat) : round p (round p n) = round p n := by
  rw [round_eq_self_iff]
  by_cases hsmall : n < 2 ^ p
  · have : round p n = n := round_eq_self_iff.2 (by rw [ulp_eq_one hp hsmall]; exact Nat.one_dvd _)
    rw [this, ulp_eq_one hp hsmall]
    exact Nat.one_dvd _
  · have hn : n ≠ 0 := by
      have := Nat.two_pow_pos p
      omega
    have hlog : p ≤ n.log2 := (Nat.le_log2 hn).2 (by omega)
    have hu : ulp p n * 2 ^ p = 2 ^ (n.log2 + 1) := by
      rw [ulp, ← Nat.pow_add]
      congr 1
      omega
    have hq : n / ulp p n < 2 ^ p := by
      rw [Nat.div_lt_iff_lt_mul (ulp_pos n), Nat.mul_comm, hu]
      exact Nat.lt_log2_self
    have hle : round p n ≤ 2 ^ (n.log2 + 1) := by
      rw [← hu, Nat.mul_comm]
      unfold round
      dsimp only
      split
      · exact Nat.mul_le_mul_right _ hq.le
      · exact Nat.mul_le_mul_right _ hq
    rcases Nat.lt_or_eq_of_le hle with hlt | heq
    · -- the same binade
      have hne : round p n ≠ 0 := by
        have := (Nat.two_pow_pos n.log2).trans_le (two_pow_le_round hp (Nat.log2_self_le hn))
        omega
      have hsame : (round p n).log2 ≤ n.log2 := by
        have := (Nat.log2_lt hne).2 hlt
        omega
      exact (Nat.pow_dvd_pow 2 (by omega)).trans (ulp_dvd_round n)
    · rw [heq, ulp, Nat.log2_two_pow]
      exact Nat.pow_dvd_pow 2 (by omega)

/-! ## Integers -/

variable (p) in
/-- The nearest integer of precision `p`. -/
def roundInt (x : Int) : Int := x.sign * round p x.natAbs

theorem roundInt_natCast (n : Nat) : roundInt p n = round p n := by
  rcases Nat.eq_zero_or_pos n with rfl | hn
  · rw [roundInt, Int.natAbs_natCast, round_eq_self_iff.2 (Nat.dvd_zero _)]
    simp
  · rw [roundInt, Int.sign_natCast_of_ne_zero (by omega), Int.natAbs_natCast, Int.one_mul]

theorem roundInt_nonneg {x : Int} (h : 0 ≤ x) : 0 ≤ roundInt p x := by
  obtain ⟨n, rfl⟩ := Int.eq_ofNat_of_zero_le h
  rw [roundInt_natCast]
  exact Int.natCast_nonneg _

theorem roundInt_nonpos {x : Int} (h : x ≤ 0) : roundInt p x ≤ 0 := by
  rw [roundInt]
  rcases Int.lt_or_eq_of_le h with hx | rfl
  · rw [Int.sign_eq_neg_one_of_neg hx]
    omega
  · simp

/-- **Errors do not cancel.** A difference of numbers of precision `p`, from which another rounded difference was taken,
is exact only if both are. -/
theorem roundInt_sub_roundInt_iff (hp : 0 < p) {c d : Int} (hc : roundInt p c = c) (hd : 0 ≤ d) (hdc : d < c) :
    roundInt p (c - roundInt p d) = c - d ↔ roundInt p d = d ∧ roundInt p (c - d) = c - d := by
  refine ⟨fun h => ?_, fun ⟨h1, h2⟩ => by rw [h1, h2]⟩
  obtain ⟨c, rfl⟩ := Int.eq_ofNat_of_zero_le (show 0 ≤ c by omega)
  obtain ⟨d, rfl⟩ := Int.eq_ofNat_of_zero_le hd
  obtain ⟨t, ht⟩ := Int.eq_ofNat_of_zero_le (show (0 : Int) ≤ c - d by omega)
  have hpos : 0 < t := by omega
  rw [ht] at h ⊢
  rw [roundInt_natCast] at h hc
  -- the first difference is not negative, or its rounding would not be positive
  have hy : 0 ≤ (c : Int) - round p d := by
    by_contra hneg
    have := roundInt_nonpos (p := p) (x := c - round p d) (by omega)
    omega
  obtain ⟨y, hy'⟩ := Int.eq_ofNat_of_zero_le hy
  rw [hy', roundInt_natCast] at h
  have hround : round p y = t := by exact_mod_cast h
  have htt : round p t = t := by rw [← hround, round_round hp]
  refine ⟨?_, by rw [roundInt_natCast, htt]⟩
  rw [roundInt_natCast]
  by_contra hne
  have hnd : ¬ulp p d ∣ d := fun hdvd => hne (by rw [round_eq_self_iff.2 hdvd])
  have hcd : c = d + t := by omega
  have hut : ulp p t ∣ t := round_eq_self_iff.1 htt
  have huc : ulp p t ∣ c := (ulp_dvd_ulp (by omega)).trans (round_eq_self_iff.1 (by exact_mod_cast hc))
  have hud : ulp p t ∣ d := by
    rw [hcd] at huc
    exact (Nat.dvd_add_left hut).1 huc
  -- so the binade of `t` is finer than that of `d`, and everything here is on its grid
  have hfine : ulp p t ∣ ulp p d := by
    rcases Nat.le_total t d with hle | hle
    · exact ulp_dvd_ulp hle
    · exact absurd ((ulp_dvd_ulp hle).trans hud) hnd
  have huy : ulp p t ∣ y := by
    have hsum : c = round p d + y := by omega
    rw [hsum] at huc
    exact (Nat.dvd_add_right (hfine.trans (ulp_dvd_round d))).1 huc
  rcases Nat.lt_or_ge y (2 ^ (t.log2 + 1)) with hlt | hge
  · have hyy : round p y = y := by
      refine round_eq_self_iff.2 (Nat.dvd_trans ?_ huy)
      rcases Nat.eq_zero_or_pos y with rfl | hypos
      · exact ulp_dvd_ulp (Nat.zero_le _)
      · have := (Nat.log2_lt (by omega)).2 hlt
        exact Nat.pow_dvd_pow 2 (by omega)
    omega
  · have := two_pow_le_round hp hge
    have := Nat.lt_log2_self (n := t)
    omega

/-! ## Rational numbers -/

/-- The nearest integer, and the even one of two that are equally near. -/
def roundEven (q : ℚ) : Int :=
  let n := q.floor
  if q - n < 1 / 2 ∨ (q - n = 1 / 2 ∧ n % 2 = 0) then n else n + 1

theorem abs_roundEven_sub_le (q : ℚ) : |(roundEven q : ℚ) - q| ≤ 1 / 2 := by
  have hle : (q.floor : ℚ) ≤ q := Rat.floor_le q
  have hlt : q < q.floor + 1 := by exact_mod_cast Rat.lt_floor_add_one q
  unfold roundEven
  dsimp only
  split
  next h =>
    rw [abs_le]
    rcases h with h | ⟨h, -⟩ <;> constructor <;> linarith
  next h =>
    rw [not_or, not_lt] at h
    rw [abs_le]
    push_cast
    constructor <;> linarith [h.1]

theorem roundEven_eq {q : ℚ} {n : Int} (h : |q - n| < 1 / 2) : roundEven q = n := by
  have hround := abs_le.1 (abs_roundEven_sub_le q)
  rw [abs_lt] at h
  have hupper : ((roundEven q : Int) : ℚ) < (n + 1 : Int) := by
    push_cast
    linarith
  have hlower : ((n - 1 : Int) : ℚ) < (roundEven q : Int) := by
    push_cast
    linarith
  have := Int.cast_lt.1 hupper
  have := Int.cast_lt.1 hlower
  omega

theorem roundEven_intCast (n : Int) : roundEven n = n := roundEven_eq (by norm_num)

theorem le_roundEven {q : ℚ} {n : Int} (h : (n : ℚ) ≤ q) : n ≤ roundEven q := by
  have hround := (abs_le.1 (abs_roundEven_sub_le q)).1
  have hlt : ((n - 1 : Int) : ℚ) < roundEven q := by
    push_cast
    linarith
  have := Int.cast_lt.1 hlt
  omega

theorem roundEven_le {q : ℚ} {n : Int} (h : q ≤ n) : roundEven q ≤ n := by
  have hround := (abs_le.1 (abs_roundEven_sub_le q)).2
  have hlt : (roundEven q : ℚ) < (n + 1 : Int) := by
    push_cast
    linarith
  have := Int.cast_lt.1 hlt
  omega

variable (p) in
/-- The distance of the numbers of precision `p` in the binade of `q`. -/
def unit (q : ℚ) : ℚ := 2 ^ (Int.log 2 |q| + 1 - p)

variable (p) in
/-- The nearest number of precision `p`. Exponents are not bounded. -/
def nearest (q : ℚ) : ℚ := roundEven (q / unit p q) * unit p q

theorem unit_pos (q : ℚ) : 0 < unit p q := zpow_pos two_pos _

theorem abs_nearest_sub_le_unit (q : ℚ) : |nearest p q - q| ≤ unit p q / 2 := by
  have hunit := unit_pos (p := p) q
  have herror := mul_le_mul_of_nonneg_right (abs_roundEven_sub_le (q / unit p q)) hunit.le
  have hscale : nearest p q - q = (roundEven (q / unit p q) - q / unit p q) * unit p q := by
    rw [sub_mul, div_mul_cancel₀ q hunit.ne']
    rfl
  rw [hscale, abs_mul, abs_of_pos hunit]
  linarith

theorem nearest_zero : nearest p 0 = 0 := by
  rw [nearest, zero_div, show roundEven 0 = 0 from roundEven_intCast 0, Int.cast_zero, zero_mul]

theorem abs_nearest_sub_le {q : ℚ} {k : Int} (h : |q| < 2 ^ k) : |nearest p q - q| ≤ 2 ^ (k - p) / 2 := by
  rcases eq_or_ne q 0 with rfl | hq
  · rw [nearest_zero, sub_zero, abs_zero]
    positivity
  · have hlog : Int.log 2 |q| < k := (Int.lt_zpow_iff_log_lt (by norm_num) (abs_pos.2 hq)).1 h
    have hunit : unit p q ≤ 2 ^ (k - p) := zpow_le_zpow_right₀ (by norm_num) (by omega)
    linarith [abs_nearest_sub_le_unit (p := p) q]

theorem nearest_nonneg {q : ℚ} (h : 0 ≤ q) : 0 ≤ nearest p q := by
  have hround : (0 : Int) ≤ roundEven (q / unit p q) := le_roundEven (by
    rw [Int.cast_zero]
    exact div_nonneg h (unit_pos q).le)
  exact mul_nonneg (Int.cast_nonneg hround) (unit_pos q).le

theorem nearest_nonpos {q : ℚ} (h : q ≤ 0) : nearest p q ≤ 0 := by
  have hround : roundEven (q / unit p q) ≤ (0 : Int) := roundEven_le (by
    rw [Int.cast_zero]
    exact div_nonpos_of_nonpos_of_nonneg h (unit_pos q).le)
  exact mul_nonpos_of_nonpos_of_nonneg (Int.cast_nonpos.2 hround) (unit_pos q).le

/-- **Rounding does not cross a power of two.** -/
theorem two_zpow_le_nearest (hp : 0 < p) {q : ℚ} {k : Int} (h : 2 ^ k ≤ q) : 2 ^ k ≤ nearest p q := by
  have hq : 0 < q := (zpow_pos two_pos k).trans_le h
  have hlog : k ≤ Int.log 2 |q| := by
    rw [abs_of_pos hq]
    exact (Int.zpow_le_iff_le_log (by norm_num) hq).1 h
  -- in units of the binade of `q`, its least number is the integer `2 ^ (p - 1)`
  have hfirst : (((2 : Int) ^ (p - 1) : Int) : ℚ) * unit p q = 2 ^ Int.log 2 |q| := by
    rw [unit, Int.cast_pow, Int.cast_ofNat, ← zpow_natCast, ← zpow_add₀ two_ne_zero]
    congr 1
    omega
  have hround : (2 : Int) ^ (p - 1) ≤ roundEven (q / unit p q) := by
    refine le_roundEven ((le_div_iff₀ (unit_pos q)).2 ?_)
    rw [hfirst, abs_of_pos hq]
    exact Int.zpow_log_le_self (by norm_num) hq
  calc (2 : ℚ) ^ k ≤ 2 ^ Int.log 2 |q| := zpow_le_zpow_right₀ (by norm_num) hlog
    _ = (((2 : Int) ^ (p - 1) : Int) : ℚ) * unit p q := hfirst.symm
    _ ≤ nearest p q := mul_le_mul_of_nonneg_right (Int.cast_le.2 hround) (unit_pos q).le

theorem nearest_pos (hp : 0 < p) {q : ℚ} (h : 0 < q) : 0 < nearest p q :=
  (zpow_pos two_pos _).trans_le (two_zpow_le_nearest hp (Int.zpow_log_le_self (by norm_num) h))

theorem roundEven_div {u : Nat} (hu : 0 < u) (n : Nat) :
    roundEven (n / u) = if 2 * (n % u) < u ∨ (2 * (n % u) = u ∧ n / u % 2 = 0) then n / u else n / u + 1 := by
  have hu' : (0 : ℚ) < u := Nat.cast_pos.2 hu
  have hfloor : ((n : ℚ) / u).floor = (n / u : Nat) := Rat.floor_natCast_div_natCast n u
  have hrest : (n : ℚ) / u - ((n / u : Nat) : Int) = (n % u : Nat) / u := by
    rw [Int.cast_natCast, eq_div_iff hu'.ne', sub_mul, div_mul_cancel₀ _ hu'.ne', sub_eq_iff_eq_add]
    exact_mod_cast (Nat.mod_add_div' n u).symm
  have hlt : ((n % u : Nat) : ℚ) / u < 1 / 2 ↔ 2 * (n % u) < u := by
    rw [div_lt_div_iff₀ hu' two_pos]
    constructor
    · intro h
      have : n % u * 2 < 1 * u := by exact_mod_cast h
      omega
    · intro h
      have : n % u * 2 < 1 * u := by omega
      exact_mod_cast this
  have heq : ((n % u : Nat) : ℚ) / u = 1 / 2 ↔ 2 * (n % u) = u := by
    rw [div_eq_div_iff hu'.ne' two_ne_zero]
    constructor
    · intro h
      have : n % u * 2 = 1 * u := by exact_mod_cast h
      omega
    · intro h
      have : n % u * 2 = 1 * u := by omega
      exact_mod_cast this
  unfold roundEven
  dsimp only
  rw [hfloor, hrest]
  simp only [hlt, heq]
  norm_cast

/-- **On integers, the nearest number is the one that `round` finds.** -/
theorem nearest_natCast (n : Nat) : nearest p n = round p n := by
  have hlog : Int.log 2 |(n : ℚ)| = n.log2 := by
    rw [Nat.abs_cast, Nat.log2_eq_log_two]
    exact Int.log_natCast 2 n
  by_cases hsmall : n.log2 + 1 ≤ p
  · -- in units below one, the number is an integer
    have hunit : (n : ℚ) / unit p n = ((n * 2 ^ (p - (n.log2 + 1)) : Nat) : Int) := by
      rw [unit, hlog, div_eq_mul_inv, ← zpow_neg, Int.cast_natCast, Nat.cast_mul, Nat.cast_pow, Nat.cast_ofNat,
        ← zpow_natCast]
      congr 2
      omega
    have hround : round p n = n := round_eq_self_iff.2 (by
      rw [ulp, Nat.sub_eq_zero_of_le hsmall, Nat.pow_zero]
      exact Nat.one_dvd n)
    rw [nearest, hunit, roundEven_intCast, ← hunit, div_mul_cancel₀ _ (unit_pos _).ne', hround]
  · have hunit : unit p n = ulp p n := by
      rw [unit, hlog, ulp, Nat.cast_pow, Nat.cast_ofNat, ← zpow_natCast]
      congr 1
      omega
    rw [nearest, hunit, roundEven_div (ulp_pos n)]
    unfold round
    dsimp only
    split <;> push_cast <;> rfl

/-! ## Decimals -/

/-- A number rounded to `k` decimal places. -/
def decimal (k : Nat) (q : ℚ) : ℚ := roundEven (q * 10 ^ k) / 10 ^ k

variable (p) in
/-- The shortest decimal, with at most `n` places, that is read back as the number itself. -/
def shortest (n : Nat) (q : ℚ) : Option ℚ :=
  ((List.range (n + 1)).map fun k => decimal k q).find? fun x => decide (nearest p x = q)

theorem decimal_eq_div {k n : Nat} (h : k ≤ n) (q : ℚ) : ∃ c : Int, decimal k q = c / 10 ^ n := by
  refine ⟨roundEven (q * 10 ^ k) * 10 ^ (n - k), ?_⟩
  have hpow : (10 : ℚ) ^ n = 10 ^ k * 10 ^ (n - k) := by rw [← pow_add, Nat.add_sub_cancel' h]
  rw [decimal, hpow, Int.cast_mul, Int.cast_pow, Int.cast_ofNat, mul_div_mul_right _ _ (by positivity)]

theorem decimal_nonneg (k : Nat) {q : ℚ} (h : 0 ≤ q) : 0 ≤ decimal k q := by
  have hround : (0 : Int) ≤ roundEven (q * 10 ^ k) := le_roundEven (by
    rw [Int.cast_zero]
    positivity)
  exact div_nonneg (Int.cast_nonneg hround) (by positivity)

section Decimals

variable {n e : Nat} {a : Int}

theorem eq_of_nearest_eq (hp : 0 < p) (hdense : (2 : ℚ) ^ ((e : Int) - p) * 10 ^ n < 1) (ha : 0 ≤ a)
    (hlt : a < 2 ^ e * 10 ^ n)
    {c : Int} (hc : 0 ≤ c) (h : nearest p (c / 10 ^ n) = nearest p (a / 10 ^ n)) : c = a := by
  have hten : (0 : ℚ) < 10 ^ n := by positivity
  have hdense : (2 : ℚ) ^ ((e : Int) - p) < 1 / 10 ^ n := (lt_div_iff₀ hten).2 hdense
  have hbelow : ∀ b : Int, 0 ≤ b → (b : ℚ) / 10 ^ n < 2 ^ e →
      |nearest p (b / 10 ^ n) - b / 10 ^ n| ≤ 2 ^ ((e : Int) - p) / 2 := by
    intro b hb hlt
    refine abs_nearest_sub_le ?_
    rw [abs_of_nonneg (div_nonneg (Int.cast_nonneg hb) hten.le), zpow_natCast]
    exact hlt
  -- the decimal below the power of two is a whole unit of its last place below it, so its nearest number is below it as
  -- well
  have hlast : (a : ℚ) / 10 ^ n ≤ 2 ^ e - 1 / 10 ^ n := by
    rw [le_sub_iff_add_le, ← add_div, div_le_iff₀ hten]
    exact_mod_cast Int.add_one_le_of_lt hlt
  have hnear : |nearest p (a / 10 ^ n) - a / 10 ^ n| ≤ 2 ^ ((e : Int) - p) / 2 :=
    hbelow a ha (by linarith [one_div_pos.2 hten])
  have hc' : (c : ℚ) / 10 ^ n < 2 ^ e := by
    by_contra hge
    have hcross := two_zpow_le_nearest (k := (e : Int)) (q := c / 10 ^ n) hp (by
      rw [zpow_natCast]
      exact not_lt.1 hge)
    rw [h, zpow_natCast] at hcross
    have hpos : (0 : ℚ) < 2 ^ ((e : Int) - p) := zpow_pos two_pos _
    linarith [(abs_le.1 hnear).2]
  have hnear' := hbelow c hc hc'
  rw [h] at hnear'
  have hdiff : |(c : ℚ) - a| < 1 := by
    have hdist : |(c : ℚ) / 10 ^ n - a / 10 ^ n| < 1 / 10 ^ n := by
      rw [abs_lt]
      constructor <;> linarith [(abs_le.1 hnear).1, (abs_le.1 hnear).2, (abs_le.1 hnear').1, (abs_le.1 hnear').2]
    rwa [← sub_div, abs_div, abs_of_pos hten, div_lt_div_iff_of_pos_right hten] at hdist
  have hone : |c - a| < 1 := by exact_mod_cast hdiff
  have := Int.abs_lt_one_iff.1 hone
  omega

/-- **Decimals survive.** The shortest decimal of the nearest number of a decimal with `n` places is that decimal, where
the numbers are denser than the decimals. -/
theorem shortest_nearest (hp : 0 < p) (hdense : (2 : ℚ) ^ ((e : Int) - p) * 10 ^ n < 1) (ha : 0 ≤ a)
    (hlt : a < 2 ^ e * 10 ^ n) : shortest p n (nearest p (a / 10 ^ n)) = some ((a : ℚ) / 10 ^ n) := by
  have hten : (0 : ℚ) < 10 ^ n := by positivity
  have hx : (0 : ℚ) ≤ a / 10 ^ n := div_nonneg (Int.cast_nonneg ha) hten.le
  have hself : decimal n (nearest p (a / 10 ^ n)) = a / 10 ^ n := by
    have herror : |nearest p (a / 10 ^ n) - a / 10 ^ n| ≤ 2 ^ ((e : Int) - p) / 2 := by
      refine abs_nearest_sub_le ?_
      rw [abs_of_nonneg hx, div_lt_iff₀ hten, zpow_natCast]
      exact_mod_cast hlt
    rw [decimal, roundEven_eq]
    have hscale : nearest p (a / 10 ^ n) * 10 ^ n - a = (nearest p (a / 10 ^ n) - a / 10 ^ n) * 10 ^ n := by
      rw [sub_mul, div_mul_cancel₀ _ hten.ne']
    rw [hscale, abs_mul, abs_of_pos hten]
    linarith [mul_le_mul_of_nonneg_right herror hten.le]
  rw [shortest]
  cases hfind : ((List.range (n + 1)).map fun k => decimal k (nearest p (a / 10 ^ n))).find? fun x =>
      decide (nearest p x = nearest p (a / 10 ^ n)) with
  | none =>
    have hmem : decimal n (nearest p (a / 10 ^ n)) ∈ (List.range (n + 1)).map fun k =>
        decimal k (nearest p (a / 10 ^ n)) :=
      List.mem_map_of_mem (List.mem_range.2 (Nat.lt_succ_self n))
    have := List.find?_eq_none.1 hfind _ hmem
    rw [hself] at this
    simp at this
  | some y =>
    have hread : nearest p y = nearest p (a / 10 ^ n) := by simpa using List.find?_some hfind
    obtain ⟨k, hk, rfl⟩ := List.mem_map.1 (List.mem_of_find?_eq_some hfind)
    obtain ⟨c, hc⟩ := decimal_eq_div (Nat.lt_succ_iff.1 (List.mem_range.1 hk)) (nearest p (a / 10 ^ n))
    have hc0 : 0 ≤ c := by
      have hnonneg := decimal_nonneg k (nearest_nonneg (p := p) hx)
      rw [hc, le_div_iff₀ hten, zero_mul] at hnonneg
      exact_mod_cast hnonneg
    rw [hc] at hread ⊢
    rw [eq_of_nearest_eq hp hdense ha hlt hc0 hread]

end Decimals

end Double
