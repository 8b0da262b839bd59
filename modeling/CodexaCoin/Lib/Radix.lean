import Mathlib

/-!
# Numerals, the most significant digit first

The number that a list of digits denotes, the digits of a number, and the change from one base to another.
-/

namespace Radix

/-- The number that digits denote. -/
def value (b : Nat) (l : List Nat) : Nat := l.foldl (fun n d => n * b + d) 0

/-- The digits of a number without leading zeros. -/
def numeral (b n : Nat) : List Nat := (Nat.digits b n).reverse

section Value

variable {b : Nat}

@[simp] theorem value_nil : value b [] = 0 := rfl

theorem foldl_eq_value (l : List Nat) (n : Nat) : l.foldl (fun n d => n * b + d) n = n * b ^ l.length + value b l := by
  induction l generalizing n with
  | nil => simp
  | cons d l ih =>
    rw [value, List.foldl_cons, List.foldl_cons, ih, ih, List.length_cons, Nat.pow_succ']
    ring

theorem value_append (l m : List Nat) : value b (l ++ m) = value b l * b ^ m.length + value b m := by
  rw [value, List.foldl_append, foldl_eq_value]
  rfl

theorem value_cons (d : Nat) (l : List Nat) : value b (d :: l) = d * b ^ l.length + value b l := by
  rw [value, List.foldl_cons, foldl_eq_value, Nat.zero_mul, Nat.zero_add]

theorem value_replicate_zero (k : Nat) : value b (List.replicate k 0) = 0 := by
  induction k with
  | zero => rfl
  | succ k ih => rw [List.replicate_succ, value_cons, ih, Nat.zero_mul]

theorem value_eq_ofDigits (l : List Nat) : value b l = Nat.ofDigits b l.reverse := by
  induction l with
  | nil => rfl
  | cons d l ih =>
    rw [value_cons, List.reverse_cons, Nat.ofDigits_append, ih, List.length_reverse, Nat.ofDigits_singleton]
    ring

end Value

section Base

variable {b c : Nat} (hb : 1 < b)

include hb

theorem value_lt {l : List Nat} (h : ∀ d ∈ l, d < b) : value b l < b ^ l.length := by
  rw [value_eq_ofDigits, ← List.length_reverse]
  exact Nat.ofDigits_lt_base_pow_length hb fun d hd => h d (List.mem_reverse.1 hd)

/-- **Digits are determined by how many they are and by the number.** -/
theorem eq_of_value_eq {l m : List Nat} (hlen : l.length = m.length) (hl : ∀ d ∈ l, d < b) (hm : ∀ d ∈ m, d < b)
    (h : value b l = value b m) : l = m := by
  rw [value_eq_ofDigits, value_eq_ofDigits] at h
  refine List.reverse_injective (Nat.ofDigits_inj_of_len_eq hb ?_ ?_ ?_ h)
  · rw [List.length_reverse, List.length_reverse, hlen]
  · exact fun d hd => hl d (List.mem_reverse.1 hd)
  · exact fun d hd => hm d (List.mem_reverse.1 hd)

omit hb in
theorem value_numeral (n : Nat) : value b (numeral b n) = n := by
  rw [value_eq_ofDigits, numeral, List.reverse_reverse, Nat.ofDigits_digits]

theorem lt_of_mem_numeral {n d : Nat} (h : d ∈ numeral b n) : d < b :=
  Nat.digits_lt_base hb (List.mem_reverse.1 h)

omit hb in
theorem head_numeral_ne_zero (n : Nat) : (numeral b n).head? ≠ some 0 := by
  intro h
  rcases Nat.eq_zero_or_pos n with rfl | hn
  · simp [numeral] at h
  · rw [numeral, List.head?_reverse, List.getLast?_eq_some_getLast (Nat.digits_ne_nil_iff_ne_zero.2 (by omega))] at h
    exact Nat.getLast_digit_ne_zero b (by omega) (Option.some.inj h)

theorem numeral_value {l : List Nat} (hl : ∀ d ∈ l, d < b) (hhead : l.head? ≠ some 0) : numeral b (value b l) = l := by
  rw [numeral, value_eq_ofDigits, Nat.digits_ofDigits b hb, List.reverse_reverse]
  · exact fun d hd => hl d (List.mem_reverse.1 hd)
  · intro hne hzero
    rw [List.getLast_reverse] at hzero
    exact hhead (by rw [List.head?_eq_some_head (by simpa using hne), hzero])

/-- **The first digits of a number are those of a quotient.** -/
theorem take_numeral {n k : Nat} (j : Nat) (hlen : (numeral b n).length = j + k) :
    value b ((numeral b n).take j) = n / b ^ k := by
  have hsplit := value_append (b := b) ((numeral b n).take j) ((numeral b n).drop j)
  have hdrop : ((numeral b n).drop j).length = k := by rw [List.length_drop, hlen, Nat.add_sub_cancel_left]
  have hlt := value_lt hb fun d hd => lt_of_mem_numeral hb (List.mem_of_mem_drop (i := j) (l := numeral b n) hd)
  rw [List.take_append_drop, value_numeral, hdrop] at hsplit
  rw [hdrop] at hlt
  conv_rhs => rw [hsplit]
  rw [Nat.mul_comm, Nat.mul_add_div (Nat.pow_pos (by omega)), Nat.div_eq_of_lt hlt, Nat.add_zero]

theorem length_numeral {n k : Nat} (h0 : b ^ k ≤ n) (h1 : n < b ^ (k + 1)) : (numeral b n).length = k + 1 := by
  rw [numeral, List.length_reverse]
  exact Nat.le_antisymm ((Nat.digits_length_le_iff hb n).2 h1) ((Nat.lt_digits_length_iff hb n).2 h0)

end Base

/-! ## Carries -/

section Carry

variable {b : Nat}

variable (b) in
/-- The digits, the least significant first, of `m` times a number plus `carry`: the carry moves through the digits and
makes new ones at the end as long as it is not zero. -/
def mulAdd (m : Nat) : List Nat → Nat → List Nat
  | [], carry => Nat.digits b carry
  | d :: l, carry => (carry + m * d) % b :: mulAdd m l ((carry + m * d) / b)

theorem mulAdd_digits (hb : 1 < b) {m : Nat} (hm : 0 < m) (n carry : Nat) :
    mulAdd b m (Nat.digits b n) carry = Nat.digits b (m * n + carry) := by
  induction n using Nat.strongRecOn generalizing carry with
  | ind n ih =>
    rcases Nat.eq_zero_or_pos n with rfl | hn
    · rw [Nat.digits_zero, Nat.mul_zero, Nat.zero_add]
      rfl
    · have hsum : m * n + carry = (carry + m * (n % b)) + b * (m * (n / b)) := by
        conv_lhs => rw [← Nat.mod_add_div n b]
        ring
      have hpos : 0 < m * n + carry := Nat.add_pos_left (Nat.mul_pos hm hn) _
      rw [Nat.digits_def' hb hn, mulAdd, ih _ (Nat.div_lt_self hn hb), Nat.digits_def' hb hpos, hsum,
        Nat.add_mul_mod_self_left, Nat.add_mul_div_left _ _ (by omega), Nat.add_comm (m * (n / b))]

end Carry

/-! ## Leading zeros -/

def zeros (l : List Nat) : Nat := (l.takeWhile (· == 0)).length

def rebase (b c : Nat) (l : List Nat) : List Nat := List.replicate (zeros l) 0 ++ numeral c (value b l)

section Rebase

variable {b c : Nat} (hb : 1 < b) {l : List Nat}

include hb

omit hb in
theorem zeros_replicate_append (k n : Nat) : zeros (List.replicate k 0 ++ numeral b n) = k := by
  have hnone : (numeral b n).takeWhile (· == 0) = [] := by
    have hhead : (numeral b n).head? ≠ some 0 := head_numeral_ne_zero n
    cases hl : numeral b n with
    | nil => rfl
    | cons d l =>
      rw [hl] at hhead
      exact List.takeWhile_cons_of_neg (by simpa using hhead)
  rw [zeros, List.takeWhile_append_of_pos (by simp), hnone]
  simp

theorem eq_replicate_append (hl : ∀ d ∈ l, d < b) :
    l = List.replicate (zeros l) 0 ++ numeral b (value b l) := by
  have hzeros : l.takeWhile (· == 0) = List.replicate (zeros l) 0 :=
    List.eq_replicate_iff.2 ⟨rfl, fun d hd => by simpa using List.all_eq_true.1 List.all_takeWhile d hd⟩
  have hsplit := List.takeWhile_append_dropWhile (p := (· == 0)) (l := l)
  have hhead : (l.dropWhile (· == 0)).head? ≠ some 0 := by
    intro h
    have := List.head?_dropWhile_not (· == 0) l
    rw [h] at this
    simp at this
  have hvalue : value b l = value b (l.dropWhile (· == 0)) := by
    conv_lhs => rw [← hsplit, value_append, hzeros, value_replicate_zero, Nat.zero_mul, Nat.zero_add]
  rw [hvalue, numeral_value hb (fun d hd => hl d ((List.dropWhile_sublist _).subset hd)) hhead, ← hzeros, hsplit]

/-- **Another base and back.** -/
theorem rebase_rebase (hl : ∀ d ∈ l, d < b) : rebase c b (rebase b c l) = l := by
  have hvalue : value c (rebase b c l) = value b l := by
    rw [rebase, value_append, value_replicate_zero, value_numeral, Nat.zero_mul, Nat.zero_add]
  have hzeros : zeros (rebase b c l) = zeros l := zeros_replicate_append _ _
  rw [rebase, hvalue, hzeros, ← eq_replicate_append hb hl]

omit hb in
theorem lt_of_mem_rebase (hc : 1 < c) {d : Nat} (h : d ∈ rebase b c l) : d < c := by
  rcases List.mem_append.1 h with h | h
  · rw [(List.mem_replicate.1 h).2]
    omega
  · exact lt_of_mem_numeral hc h

end Rebase

end Radix
