import CodexaCoin.Lib.Radix

/-!
# Checksums by a shift register

A register of `m + k` bits takes in a symbol of `k` bits at a time: it moves up by `k`, and the bits that leave it at
the top select generators that are added to it, where adding is exclusive or.
-/

namespace ShiftRegister

open Radix

/-- The sum of the generators that the bits of `top` select. -/
def taps (generators : List Nat) (top : Nat) : Nat :=
  generators.zipIdx.foldr (fun g sum => (if top.testBit g.2 then g.1 else 0) ^^^ sum) 0

def step (generators : List Nat) (m k : Nat) (r v : Nat) : Nat :=
  ((r % 2 ^ m) <<< k ^^^ v) ^^^ taps generators (r >>> m)

def run (generators : List Nat) (m k : Nat) (r : Nat) (symbols : List Nat) : Nat :=
  symbols.foldl (step generators m k) r

section Linear

variable {generators : List Nat} {m k : Nat}

theorem xor_xor_xor_comm (a b c d : Nat) : (a ^^^ b) ^^^ (c ^^^ d) = (a ^^^ c) ^^^ (b ^^^ d) := by
  rw [Nat.xor_assoc, Nat.xor_assoc, ← Nat.xor_assoc b, Nat.xor_comm b, Nat.xor_assoc c]

theorem foldl_eq_xor_taps (top r : Nat) :
    generators.zipIdx.foldl (fun r g => if top.testBit g.2 then r ^^^ g.1 else r) r = r ^^^ taps generators top := by
  unfold taps
  induction generators.zipIdx generalizing r with
  | nil => exact (Nat.xor_zero r).symm
  | cons g l ih =>
    rw [List.foldl_cons, List.foldr_cons, ih]
    split
    · rw [Nat.xor_assoc]
    · rw [Nat.zero_xor]

theorem taps_xor (x y : Nat) : taps generators (x ^^^ y) = taps generators x ^^^ taps generators y := by
  unfold taps
  induction generators.zipIdx with
  | nil => exact (Nat.xor_self 0).symm
  | cons g l ih =>
    have hbit : (if (x ^^^ y).testBit g.2 then g.1 else 0) =
        (if x.testBit g.2 then g.1 else 0) ^^^ (if y.testBit g.2 then g.1 else 0) := by
      rw [Nat.testBit_xor]
      cases x.testBit g.2 <;> cases y.testBit g.2 <;> simp
    rw [List.foldr_cons, List.foldr_cons, List.foldr_cons, ih, hbit, xor_xor_xor_comm]

@[simp] theorem taps_zero : taps generators 0 = 0 := by
  unfold taps
  induction generators.zipIdx with
  | nil => rfl
  | cons g l ih => rw [List.foldr_cons, ih, Nat.zero_testBit, if_neg (by simp), Nat.xor_self]

theorem step_xor (r r' v v' : Nat) :
    step generators m k (r ^^^ r') (v ^^^ v') = step generators m k r v ^^^ step generators m k r' v' := by
  rw [step, step, step, Nat.xor_mod_two_pow, Nat.shiftLeft_xor_distrib, Nat.shiftRight_xor_distrib, taps_xor,
    xor_xor_xor_comm (_ <<< k), xor_xor_xor_comm]

/-- **The register is linear.** -/
theorem run_xor {l l' : List Nat} (h : l.length = l'.length) (r r' : Nat) :
    run generators m k (r ^^^ r') (List.zipWith (· ^^^ ·) l l') =
      run generators m k r l ^^^ run generators m k r' l' := by
  induction l generalizing l' r r' with
  | nil =>
    obtain rfl := List.eq_nil_of_length_eq_zero h.symm
    rfl
  | cons v l ih =>
    obtain ⟨v', l', rfl⟩ := List.exists_cons_of_length_eq_add_one h.symm
    rw [List.zipWith_cons_cons]
    simp only [run, List.foldl_cons] at ih ⊢
    rw [step_xor]
    exact ih (by simpa using h) _ _

end Linear

section Fill

variable {generators : List Nat} {m k : Nat} {l : List Nat}

theorem shiftLeft_xor_eq_add {v : Nat} (hv : v < 2 ^ k) (r : Nat) : r <<< k ^^^ v = r * 2 ^ k + v := by
  refine Nat.eq_of_testBit_eq fun i => ?_
  rw [Nat.testBit_xor, Nat.testBit_shiftLeft, Nat.mul_comm, Nat.testBit_two_pow_mul_add r hv]
  by_cases hi : i < k
  · simp [hi, Nat.not_le.2 hi]
  · have hbit : v.testBit i = false :=
      Nat.testBit_lt_two_pow (hv.trans_le (Nat.pow_le_pow_right (by decide) (by omega)))
    simp [hi, hbit, Nat.not_lt.1 hi]

theorem step_of_lt {r v : Nat} (hr : r < 2 ^ m) (hv : v < 2 ^ k) : step generators m k r v = r * 2 ^ k + v := by
  have htop : r >>> m = 0 := by rw [Nat.shiftRight_eq_div_pow, Nat.div_eq_of_lt hr]
  rw [step, htop, taps_zero, Nat.xor_zero, Nat.mod_eq_of_lt hr, shiftLeft_xor_eq_add hv]

theorem run_zero (hk : 0 < k) (hl : ∀ v ∈ l, v < 2 ^ k) (hlen : l.length * k ≤ m + k) :
    run generators m k 0 l = value (2 ^ k) l := by
  induction l using List.reverseRecOn with
  | nil => rfl
  | append_singleton l v ih =>
    have hl' : ∀ u ∈ l, u < 2 ^ k := fun u hu => hl u (List.mem_append_left _ hu)
    rw [List.length_append, List.length_singleton, Nat.add_mul, Nat.one_mul] at hlen
    have hfits : value (2 ^ k) l < 2 ^ m := by
      have hlt := value_lt (Nat.one_lt_two_pow (by omega)) hl'
      rw [← Nat.pow_mul, Nat.mul_comm] at hlt
      exact hlt.trans_le (Nat.pow_le_pow_right (by decide) (by omega))
    have hrun : run generators m k 0 (l ++ [v]) = step generators m k (run generators m k 0 l) v := by
      rw [run, List.foldl_append]
      rfl
    rw [hrun, ih hl' (by omega), step_of_lt hfits (hl v (by simp)), value_append]
    simp [value_cons]

/-- **As many symbols as fill the register are added to it unchanged**, whatever it held. -/
theorem run_eq_xor_value (hk : 0 < k) (r : Nat) (hl : ∀ v ∈ l, v < 2 ^ k) (hlen : l.length * k ≤ m + k) :
    run generators m k r l = run generators m k r (List.replicate l.length 0) ^^^ value (2 ^ k) l := by
  have hzip : List.zipWith (· ^^^ ·) (List.replicate l.length 0) l = l := by
    refine List.ext_getElem (by simp) fun i _ _ => ?_
    simp
  have hlin : run generators m k (r ^^^ 0) (List.zipWith (· ^^^ ·) (List.replicate l.length 0) l) = _ :=
    run_xor (by simp) r 0
  rw [hzip, Nat.xor_zero, run_zero hk hl hlen] at hlin
  exact hlin

theorem taps_lt {w : Nat} (hg : ∀ g ∈ generators, g < 2 ^ w) (top : Nat) : taps generators top < 2 ^ w := by
  have hmem : ∀ g ∈ generators.zipIdx, g.1 < 2 ^ w := fun g h => hg g.1 (List.fst_mem_of_mem_zipIdx h)
  unfold taps
  generalize generators.zipIdx = l at hmem ⊢
  induction l with
  | nil => exact Nat.two_pow_pos _
  | cons g l ih =>
    refine Nat.xor_lt_two_pow ?_ (ih fun g' h => hmem g' (List.mem_cons_of_mem _ h))
    split
    · exact hmem g List.mem_cons_self
    · exact Nat.two_pow_pos _

theorem run_lt (hg : ∀ g ∈ generators, g < 2 ^ (m + k)) (hl : ∀ v ∈ l, v < 2 ^ (m + k)) {r : Nat}
    (hr : r < 2 ^ (m + k)) : run generators m k r l < 2 ^ (m + k) := by
  induction l generalizing r with
  | nil => exact hr
  | cons v l ih =>
    refine ih (fun u hu => hl u (List.mem_cons_of_mem _ hu))
      (Nat.xor_lt_two_pow (Nat.xor_lt_two_pow ?_ ?_) (taps_lt hg _))
    · rw [Nat.shiftLeft_eq, Nat.pow_add]
      exact Nat.mul_lt_mul_of_pos_right (Nat.mod_lt _ (Nat.two_pow_pos _)) (Nat.two_pow_pos _)
    · exact hl v List.mem_cons_self

/-- **Exactly one choice of the last symbols leaves `t` in the register**: the digits of what zeros leave there, plus
`t`. -/
theorem run_eq_iff (hk : 0 < k) (r t : Nat) (hl : ∀ v ∈ l, v < 2 ^ k) (hlen : l.length * k ≤ m + k) :
    run generators m k r l = t ↔ value (2 ^ k) l = run generators m k r (List.replicate l.length 0) ^^^ t := by
  rw [run_eq_xor_value hk r hl hlen]
  constructor
  · rintro rfl
    rw [← Nat.xor_assoc, Nat.xor_self, Nat.zero_xor]
  · intro h
    rw [h, ← Nat.xor_assoc, Nat.xor_self, Nat.zero_xor]

end Fill

end ShiftRegister
