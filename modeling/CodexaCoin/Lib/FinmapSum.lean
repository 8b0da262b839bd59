import Mathlib

/-!
# Sums over a finite map

`wsum w m` adds the weights `w a b` of all entries `a ↦ b` of `m`, with the rules for inserting and erasing one entry,
comparing two weights and adding them.
-/

namespace FinmapSum

variable {α β : Type*}

def wsum {M : Type*} [AddCommMonoid M] (w : α → β → M) (m : Finmap fun _ : α => β) : M :=
  (m.entries.map fun e => w e.1 e.2).sum

section Monoid

variable {M : Type*} [AddCommMonoid M] (w : α → β → M)

variable [DecidableEq α] {m : Finmap fun _ : α => β} {a : α} {b : β}

theorem wsum_insert_of_notMem (h : a ∉ m) : wsum w (m.insert a b) = w a b + wsum w m := by
  rw [wsum, wsum, Finmap.entries_insert_of_notMem h, Multiset.map_cons, Multiset.sum_cons]

theorem insert_erase_of_lookup (h : m.lookup a = some b) : (m.erase a).insert a b = m := by
  apply Finmap.ext_lookup
  intro x
  by_cases hx : x = a
  · subst hx
    rw [Finmap.lookup_insert, h]
  · rw [Finmap.lookup_insert_of_ne _ hx, Finmap.lookup_erase_ne hx]

theorem wsum_eq_add_erase (h : m.lookup a = some b) : wsum w m = w a b + wsum w (m.erase a) := by
  conv_lhs => rw [← insert_erase_of_lookup h]
  exact wsum_insert_of_notMem w Finmap.notMem_erase_self

theorem wsum_eq_lookup_add_erase (m : Finmap fun _ : α => β) (a : α) :
    wsum w m = ((m.lookup a).map (w a)).getD 0 + wsum w (m.erase a) := by
  cases h : m.lookup a with
  | some b =>
    rw [wsum_eq_add_erase w h]
    rfl
  | none =>
    have hsame : m.erase a = m := by
      apply Finmap.ext_lookup
      intro x
      by_cases hx : x = a
      · subst hx
        rw [Finmap.lookup_erase, h]
      · rw [Finmap.lookup_erase_ne hx]
    rw [hsame, Option.map_none, Option.getD_none, zero_add]

theorem wsum_insert (m : Finmap fun _ : α => β) (a : α) (b : β) :
    wsum w (m.insert a b) = w a b + wsum w (m.erase a) := by
  have hsame : m.insert a b = (m.erase a).insert a b := by
    apply Finmap.ext_lookup
    intro x
    by_cases hx : x = a
    · subst hx
      rw [Finmap.lookup_insert, Finmap.lookup_insert]
    · rw [Finmap.lookup_insert_of_ne _ hx, Finmap.lookup_insert_of_ne _ hx, Finmap.lookup_erase_ne hx]
  rw [hsame]
  exact wsum_insert_of_notMem w Finmap.notMem_erase_self

theorem wsum_congr {w w' : α → β → M} (h : ∀ a b, m.lookup a = some b → w a b = w' a b) : wsum w m = wsum w' m := by
  unfold wsum
  congr 1
  refine Multiset.map_congr rfl fun e he => ?_
  exact h e.1 e.2 (Finmap.mem_lookup_iff.2 he)

end Monoid

section Ordered

variable [DecidableEq α] {M : Type*} [AddCommMonoid M] [PartialOrder M] [IsOrderedAddMonoid M] {w w' : α → β → M}
  {m : Finmap fun _ : α => β}

theorem wsum_nonneg (h : ∀ a b, m.lookup a = some b → 0 ≤ w a b) : 0 ≤ wsum w m := by
  refine Multiset.sum_nonneg fun x hx => ?_
  obtain ⟨e, he, rfl⟩ := Multiset.mem_map.1 hx
  exact h e.1 e.2 (Finmap.mem_lookup_iff.2 he)

theorem sum_lookup_le_wsum {ks : List α} (hnodup : ks.Nodup) (h : ∀ a b, m.lookup a = some b → 0 ≤ w a b) :
    (ks.map fun k => ((m.lookup k).map (w k)).getD 0).sum ≤ wsum w m := by
  induction ks generalizing m with
  | nil => simpa using wsum_nonneg h
  | cons k ks ih =>
    rw [List.nodup_cons] at hnodup
    have hsame : (ks.map fun k' => ((m.lookup k').map (w k')).getD 0) =
        ks.map fun k' => (((m.erase k).lookup k').map (w k')).getD 0 := by
      refine List.map_congr_left fun k' hk' => ?_
      have hne : k' ≠ k := by
        rintro rfl
        exact hnodup.1 hk'
      rw [Finmap.lookup_erase_ne hne]
    have hrest : ∀ a b, (m.erase k).lookup a = some b → 0 ≤ w a b := by
      intro a b hab
      by_cases ha : a = k
      · subst ha
        rw [Finmap.lookup_erase] at hab
        cases hab
      · exact h a b (by rwa [Finmap.lookup_erase_ne ha] at hab)
    rw [List.map_cons, List.sum_cons, hsame, wsum_eq_lookup_add_erase w m k]
    exact add_le_add_right (ih hnodup.2 hrest) _

end Ordered

section Ring

variable {R : Type*} [NonUnitalNonAssocSemiring R] (w w' : α → β → R) (m : Finmap fun _ : α => β)

theorem wsum_add : wsum (fun a b => w a b + w' a b) m = wsum w m + wsum w' m :=
  Multiset.sum_map_add

theorem wsum_mul_right (c : R) : wsum (fun a b => w a b * c) m = wsum w m * c :=
  Multiset.sum_map_mul_right

end Ring

end FinmapSum
