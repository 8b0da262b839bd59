import Mathlib

/-!
# Fixed-width arithmetic on limbs

A number is a list of limbs below a base `B`, the least significant first; its value is `Nat.ofDigits B`.
-/

namespace Limbs

variable (B : Nat)

/-- The lowest `w` limbs of `n`. -/
def limbs : (w : Nat) → (n : Nat) → List Nat
  | 0, _ => []
  | w + 1, n => n % B :: limbs w (n / B)

/-- One row of the multiplication: `acc += x * bs` with the incoming carry `c`. A limb product with its two addends is
taken modulo `B * B`, the width of the double word that holds it. -/
def mulRow (x : Nat) : (c : Nat) → (acc bs : List Nat) → List Nat
  | c, a :: acc, b :: bs =>
    let n := (c + a + x * b) % (B * B)
    n % B :: mulRow x (n / B) acc bs
  | _, acc, _ => acc

/-- The rows of all limbs of `xs`; a row starts one limb further up than the row before it. -/
def mulRows : (xs acc bs : List Nat) → List Nat
  | x :: xs, acc, bs =>
    match mulRow B x 0 acc bs with
    | [] => []
    | r :: rs => r :: mulRows xs rs bs
  | [], acc, _ => acc

/-- Schoolbook multiplication that drops every carry out of the top limb. -/
def mulAssign (xs bs : List Nat) : List Nat :=
  mulRows B xs (List.replicate xs.length 0) bs

/-- The product with the single limb `x` and incoming carry `c`, cut to the width of `bs`. -/
def mulSmall (x : Nat) : (c : Nat) → (bs : List Nat) → List Nat
  | _, [] => []
  | c, b :: bs =>
    let n := (c + x * b) % (B * B)
    n % B :: mulSmall x (n / B) bs

variable {B}

/-! ## Limbs of a number -/

@[simp] theorem length_limbs (w n : Nat) : (limbs B w n).length = w := by
  induction w generalizing n with
  | zero => rfl
  | succ w ih => simp [limbs, ih]

theorem limbs_lt (hB : 0 < B) {w n : Nat} : ∀ a ∈ limbs B w n, a < B := by
  induction w generalizing n with
  | zero => simp [limbs]
  | succ w ih =>
    intro a ha
    rcases List.mem_cons.1 ha with rfl | ha
    · exact Nat.mod_lt _ hB
    · exact ih a ha

theorem ofDigits_limbs (w n : Nat) : Nat.ofDigits B (limbs B w n) = n % B ^ w := by
  induction w generalizing n with
  | zero => simp [limbs, Nat.mod_one]
  | succ w ih => rw [limbs, Nat.ofDigits_cons, ih, Nat.pow_succ', Nat.mod_mul]

/-! ## Multiplication -/

theorem double_word_lt {c a x b : Nat} (hc : c < B) (ha : a < B) (hx : x < B) (hb : b < B) :
    c + a + x * b < B * B := by
  obtain ⟨k, rfl⟩ : ∃ k, B = k + 1 := ⟨B - 1, by omega⟩
  have h : x * b ≤ k * k := Nat.mul_le_mul (by omega) (by omega)
  nlinarith

theorem carry_lt {n : Nat} (h : n < B * B) : n / B < B :=
  Nat.div_lt_of_lt_mul h

@[simp] theorem length_mulRow (x c : Nat) (acc bs : List Nat) : (mulRow B x c acc bs).length = acc.length := by
  induction acc generalizing c bs with
  | nil => cases bs <;> rfl
  | cons a acc ih =>
    cases bs with
    | nil => rfl
    | cons b bs => simp [mulRow, ih]

theorem mulRow_lt (x c : Nat) {acc : List Nat} (bs : List Nat) (hacc : ∀ a ∈ acc, a < B) :
    ∀ a ∈ mulRow B x c acc bs, a < B := by
  induction acc generalizing c bs with
  | nil => cases bs <;> simp [mulRow]
  | cons a acc ih =>
    cases bs with
    | nil => exact hacc
    | cons b bs =>
      intro r hr
      have hB : 0 < B := Nat.lt_of_le_of_lt (Nat.zero_le _) (hacc a (List.mem_cons_self ..))
      rcases List.mem_cons.1 hr with rfl | hr
      · exact Nat.mod_lt _ hB
      · exact ih _ _ (fun a' ha' => hacc a' (List.mem_cons_of_mem _ ha')) r hr

theorem ofDigits_mulRow {x c : Nat} (hx : x < B) (hc : c < B) {acc bs : List Nat} (hacc : ∀ a ∈ acc, a < B)
    (hbs : ∀ b ∈ bs, b < B) (hlen : acc.length ≤ bs.length) :
    Nat.ofDigits B (mulRow B x c acc bs) ≡ Nat.ofDigits B acc + c + x * Nat.ofDigits B bs [MOD B ^ acc.length] := by
  induction acc generalizing c bs with
  | nil => simp [Nat.modEq_one]
  | cons a acc ih =>
    cases bs with
    | nil => simp at hlen
    | cons b bs =>
      have hn := double_word_lt hc (hacc a (List.mem_cons_self ..)) hx (hbs b (List.mem_cons_self ..))
      have hrest := ih (carry_lt hn) (fun a' ha' => hacc a' (List.mem_cons_of_mem _ ha'))
        (fun b' hb' => hbs b' (List.mem_cons_of_mem _ hb')) (by simpa using hlen)
      simp only [mulRow, Nat.mod_eq_of_lt hn, Nat.ofDigits_cons, List.length_cons, Nat.pow_succ']
      have hsplit := Nat.mod_add_div (c + a + x * b) B
      have hstep := ((hrest.mul_left' B).add_left ((c + a + x * b) % B))
      have heq : (c + a + x * b) % B + B * (Nat.ofDigits B acc + (c + a + x * b) / B + x * Nat.ofDigits B bs)
          = a + B * Nat.ofDigits B acc + c + x * (b + B * Nat.ofDigits B bs) := by
        calc _ = ((c + a + x * b) % B + B * ((c + a + x * b) / B)) + B * Nat.ofDigits B acc
              + B * (x * Nat.ofDigits B bs) := by ring
          _ = (c + a + x * b) + B * Nat.ofDigits B acc + B * (x * Nat.ofDigits B bs) := by rw [hsplit]
          _ = _ := by ring
      rw [heq] at hstep
      exact hstep

@[simp] theorem length_mulRows (xs acc bs : List Nat) : (mulRows B xs acc bs).length = acc.length := by
  induction xs generalizing acc with
  | nil => rfl
  | cons x xs ih =>
    have hlen := length_mulRow (B := B) x 0 acc bs
    unfold mulRows
    split
    · next h => rw [h] at hlen; exact hlen
    · next r rs h => rw [h] at hlen; simpa [ih] using hlen

theorem mulRows_lt {xs acc bs : List Nat} (hacc : ∀ a ∈ acc, a < B) : ∀ a ∈ mulRows B xs acc bs, a < B := by
  induction xs generalizing acc with
  | nil => exact hacc
  | cons x xs ih =>
    have hrow := mulRow_lt x 0 bs hacc
    unfold mulRows
    split
    · simp
    · next r rs h =>
      rw [h] at hrow
      intro a ha
      rcases List.mem_cons.1 ha with rfl | ha
      · exact hrow _ (List.mem_cons_self ..)
      · exact ih (fun a' ha' => hrow a' (List.mem_cons_of_mem _ ha')) a ha

theorem ofDigits_mulRows {xs acc bs : List Nat} (hxs : ∀ x ∈ xs, x < B) (hacc : ∀ a ∈ acc, a < B)
    (hbs : ∀ b ∈ bs, b < B) (hxa : xs.length = acc.length) (hab : acc.length ≤ bs.length) :
    Nat.ofDigits B (mulRows B xs acc bs) ≡
      Nat.ofDigits B acc + Nat.ofDigits B xs * Nat.ofDigits B bs [MOD B ^ acc.length] := by
  induction xs generalizing acc with
  | nil =>
    obtain rfl : acc = [] := List.length_eq_zero_iff.1 hxa.symm
    simp [Nat.modEq_one]
  | cons x xs ih =>
    have hx : x < B := hxs x (List.mem_cons_self ..)
    have hrow := ofDigits_mulRow (c := 0) hx (by omega) hacc hbs hab
    have hlen := length_mulRow (B := B) x 0 acc bs
    have hlt := mulRow_lt x 0 bs hacc
    unfold mulRows
    split
    · next h => rw [h] at hlen; simp [← hlen] at hxa
    · next r rs h =>
      rw [h] at hrow hlen hlt
      rw [List.length_cons] at hlen
      have hrs : ∀ a ∈ rs, a < B := fun a ha => hlt a (List.mem_cons_of_mem _ ha)
      have hrest := ih (fun x' hx' => hxs x' (List.mem_cons_of_mem _ hx')) hrs
        (by simpa using hxa.trans hlen.symm) (by omega)
      have hstep := (hrest.mul_left' B).add_left r
      rw [← Nat.pow_succ', Nat.succ_eq_add_one, hlen] at hstep
      rw [Nat.ofDigits_cons, Nat.ofDigits_cons]
      refine hstep.trans ?_
      have hsum := hrow.add_right (B * (Nat.ofDigits B xs * Nat.ofDigits B bs))
      rw [Nat.ofDigits_cons] at hsum
      have hl : r + B * (Nat.ofDigits B rs + Nat.ofDigits B xs * Nat.ofDigits B bs)
          = r + B * Nat.ofDigits B rs + B * (Nat.ofDigits B xs * Nat.ofDigits B bs) := by ring
      have hr : Nat.ofDigits B acc + (x + B * Nat.ofDigits B xs) * Nat.ofDigits B bs
          = Nat.ofDigits B acc + 0 + x * Nat.ofDigits B bs + B * (Nat.ofDigits B xs * Nat.ofDigits B bs) := by ring
      rw [hl, hr]
      exact hsum

/-- **The wrapped product**: multiplication on limbs is multiplication modulo `B ^ width`. -/
theorem ofDigits_mulAssign (hB : 1 < B) {xs bs : List Nat} (hxs : ∀ x ∈ xs, x < B) (hbs : ∀ b ∈ bs, b < B)
    (hlen : xs.length ≤ bs.length) :
    Nat.ofDigits B (mulAssign B xs bs) = Nat.ofDigits B xs * Nat.ofDigits B bs % B ^ xs.length := by
  have hzero : ∀ a ∈ List.replicate xs.length 0, a < B := fun a ha => by
    rw [List.eq_of_mem_replicate ha]; omega
  have h := ofDigits_mulRows hxs hzero hbs (by simp) (by simpa using hlen)
  have hval : Nat.ofDigits B (List.replicate xs.length 0) = 0 := by simp
  rw [hval, List.length_replicate, Nat.zero_add] at h
  have hlt : Nat.ofDigits B (mulAssign B xs bs) < B ^ xs.length := by
    have := Nat.ofDigits_lt_base_pow_length (l := mulAssign B xs bs) hB (mulRows_lt hzero)
    simpa [mulAssign] using this
  rw [← Nat.mod_eq_of_lt hlt]
  exact h

theorem mulSmall_eq_mulRow (x c : Nat) (bs : List Nat) :
    mulSmall B x c bs = mulRow B x c (List.replicate bs.length 0) bs := by
  induction bs generalizing c with
  | nil => rfl
  | cons b bs ih => simp [mulSmall, mulRow, List.replicate_succ, ih]

theorem ofDigits_mulSmall (hB : 1 < B) {x : Nat} (hx : x < B) {bs : List Nat} (hbs : ∀ b ∈ bs, b < B) :
    Nat.ofDigits B (mulSmall B x 0 bs) = Nat.ofDigits B bs * x % B ^ bs.length := by
  have hzero : ∀ a ∈ List.replicate bs.length 0, a < B := fun a ha => by
    rw [List.eq_of_mem_replicate ha]; omega
  have h := ofDigits_mulRow (c := 0) hx (by omega) hzero hbs (by simp)
  have hval : Nat.ofDigits B (List.replicate bs.length 0) = 0 := by simp
  rw [hval, List.length_replicate, Nat.zero_add, ← mulSmall_eq_mulRow, Nat.mul_comm] at h
  have hlt : Nat.ofDigits B (mulSmall B x 0 bs) < B ^ bs.length := by
    rw [mulSmall_eq_mulRow]
    simpa using Nat.ofDigits_lt_base_pow_length (l := mulRow B x 0 (List.replicate bs.length 0) bs) hB
      (mulRow_lt _ _ _ hzero)
  rw [← Nat.mod_eq_of_lt hlt]
  exact h

/-! ## Division -/

/-- The loop of shift-and-subtract division, from bit `shift` of the quotient down to bit `0`. -/
def divLoop : (shift num div quot : Nat) → Nat
  | 0, num, div, quot => if num ≥ div then quot ||| 1 else quot
  | shift + 1, num, div, quot =>
    if num ≥ div then divLoop shift (num - div) (div >>> 1) (quot ||| 2 ^ (shift + 1))
    else divLoop shift num (div >>> 1) quot

theorem or_two_pow {quot s : Nat} (h : 2 ^ (s + 1) ∣ quot) : quot ||| 2 ^ s = quot + 2 ^ s := by
  obtain ⟨q, rfl⟩ := h
  exact (Nat.two_pow_add_eq_or_of_lt (Nat.pow_lt_pow_right (by omega) (by omega)) q).symm

theorem divLoop_eq {b : Nat} (hb : 0 < b) {shift num quot : Nat} (hnum : num < b * 2 ^ (shift + 1))
    (hq : 2 ^ (shift + 1) ∣ quot) : divLoop shift num (b * 2 ^ shift) quot = quot + num / b := by
  induction shift generalizing num quot with
  | zero =>
    simp only [Nat.zero_add, Nat.pow_one, Nat.pow_zero, Nat.mul_one] at hnum hq ⊢
    simp only [divLoop]
    split
    · next h =>
      have h1 : num / b = 1 := Nat.div_eq_of_lt_le (by omega) (by omega)
      rw [h1]
      exact or_two_pow (s := 0) (by simpa using hq)
    · next h => rw [Nat.div_eq_of_lt (by omega), Nat.add_zero]
  | succ s ih =>
    have hshr : (b * 2 ^ (s + 1)) >>> 1 = b * 2 ^ s := by
      rw [Nat.shiftRight_eq_div_pow, Nat.pow_succ, ← Nat.mul_assoc, Nat.pow_one, Nat.mul_div_cancel _ (by omega)]
    have hdvd : 2 ^ (s + 1) ∣ quot := Dvd.dvd.trans (Nat.pow_dvd_pow 2 (by omega)) hq
    simp only [divLoop, hshr]
    split
    · next h =>
      have hlt : num - b * 2 ^ (s + 1) < b * 2 ^ (s + 1) := by
        rw [Nat.pow_succ 2 (s + 1), ← Nat.mul_assoc] at hnum; omega
      rw [ih hlt (by rw [or_two_pow hq]; exact (Nat.dvd_add_right hdvd).2 dvd_rfl), or_two_pow hq]
      have hdiv : num / b = 2 ^ (s + 1) + (num - b * 2 ^ (s + 1)) / b := by
        conv_lhs => rw [← Nat.sub_add_cancel h, Nat.add_comm, Nat.mul_add_div hb]
      rw [hdiv, Nat.add_assoc]
    · next h => exact ih (by omega) hdvd

end Limbs
