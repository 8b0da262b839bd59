import Mathlib

/-!
# Forks of paths in a tree

A node of a tree is the list of labels from the node to the root, so ancestors are suffixes. Two nodes fork at their
longest common suffix.
-/

namespace Fork

variable {α : Type*} [DecidableEq α] {p p' q r : List α} {a : α}

/-- The nearest ancestor of the second path, itself included, that is on the first one. -/
def fork (p : List α) : List α → List α
  | [] => []
  | a :: q => if (a :: q).isSuffixOf p then a :: q else fork p q

theorem fork_suffix_right (p q : List α) : fork p q <:+ q := by
  induction q with
  | nil => exact List.suffix_refl _
  | cons a q ih =>
    unfold fork
    split
    · exact List.suffix_refl _
    · exact ih.trans (List.suffix_cons a q)

theorem fork_suffix_left (p q : List α) : fork p q <:+ p := by
  induction q with
  | nil => exact List.nil_suffix
  | cons a q ih =>
    unfold fork
    split
    · next h => exact List.isSuffixOf_iff_suffix.1 h
    · exact ih

theorem suffix_fork (hp : r <:+ p) (hq : r <:+ q) : r <:+ fork p q := by
  induction q with
  | nil => exact hq
  | cons a q ih =>
    unfold fork
    split
    · exact hq
    · next h =>
      rcases List.suffix_cons_iff.1 hq with rfl | hq
      · exact absurd (List.isSuffixOf_iff_suffix.2 hp) h
      · exact ih hq

/-- How many steps `p` is above its fork with `q`. -/
def depth (p q : List α) : Nat :=
  p.length - (fork p q).length

@[simp] theorem depth_self (p : List α) : depth p p = 0 := by
  have h := (suffix_fork (List.suffix_refl p) (List.suffix_refl p)).length_le
  unfold depth
  omega

theorem depth_mono (h : p' <:+ p) : depth p' q ≤ depth p q := by
  have hlen := h.length_le
  unfold depth
  by_cases hle : (fork p q).length ≤ p'.length
  · -- the fork is still on the shorter path
    have hfork : fork p q <:+ p' := List.suffix_of_suffix_length_le (fork_suffix_left p q) h hle
    have hcommon := (suffix_fork hfork (fork_suffix_right p q)).length_le
    omega
  · -- the shorter path ends below the fork, so it is an ancestor of `q`
    have hbelow : p' <:+ fork p q := List.suffix_of_suffix_length_le h (fork_suffix_left p q) (by omega)
    have hcommon := (suffix_fork (List.suffix_refl p') (hbelow.trans (fork_suffix_right p q))).length_le
    omega

theorem depth_eq_zero (h : p <:+ q) : depth p q = 0 := by
  have hle := (suffix_fork (List.suffix_refl p) h).length_le
  unfold depth
  omega

/-- The labels of `p` above its ancestor `q`. -/
def above (p q : List α) : List α :=
  p.take (p.length - q.length)

omit [DecidableEq α] in
theorem mem_above (hr : (a :: r) <:+ p) (hq : q <:+ r) : a ∈ above p q := by
  obtain ⟨l, rfl⟩ := hr
  have hle := hq.length_le
  unfold above
  rw [List.length_append, List.length_cons, show l.length + (r.length + 1) - q.length =
    l.length + (r.length - q.length + 1) by omega, List.take_length_add_append, List.take_succ_cons]
  exact List.mem_append_right l List.mem_cons_self

omit [DecidableEq α] in
theorem mem_of_mem_above (h : a ∈ above p q) : a ∈ p := List.mem_of_mem_take h

end Fork
