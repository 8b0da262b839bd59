import Mathlib

/-!
# Tables

A table is the list of its rows, in the order in which they were inserted.
-/

namespace Table

variable {R K : Type}

/-- `UPDATE … SET f WHERE p`. -/
def updateWhere (p : R → Bool) (f : R → R) (l : List R) : List R :=
  l.map fun r => if p r then f r else r

/-- `SELECT COALESCE(SUM(f), 0) … WHERE p`. -/
def sumWhere (p : R → Bool) (f : R → Int) (l : List R) : Int :=
  ((l.filter p).map f).sum

variable {p q : R → Bool} {f g : R → Int} {l : List R} {key : R → K} {R' : Type}

@[simp] theorem sumWhere_nil : sumWhere p f [] = 0 := rfl

theorem sumWhere_cons (r : R) : sumWhere p f (r :: l) = (if p r then f r else 0) + sumWhere p f l := by
  cases h : p r <;> simp [sumWhere, h]

theorem sumWhere_append (l' : List R) : sumWhere p f (l ++ l') = sumWhere p f l + sumWhere p f l' := by
  simp [sumWhere]

theorem sumWhere_true : sumWhere (fun _ => true) f l = (l.map f).sum := by
  rw [sumWhere, List.filter_true]

theorem sumWhere_filter : sumWhere p f (l.filter q) = sumWhere (fun r => q r && p r) f l := by
  simp [sumWhere, List.filter_filter, Bool.and_comm]

theorem sumWhere_congr (h : ∀ r ∈ l, (if p r then f r else 0) = if q r then g r else 0) :
    sumWhere p f l = sumWhere q g l := by
  induction l with
  | nil => rfl
  | cons r l ih =>
    rw [sumWhere_cons, sumWhere_cons, h r List.mem_cons_self, ih fun r' hr' => h r' (List.mem_cons_of_mem r hr')]

theorem sumWhere_mono (h : ∀ r ∈ l, (if p r then f r else 0) ≤ if q r then g r else 0) :
    sumWhere p f l ≤ sumWhere q g l := by
  induction l with
  | nil => exact le_refl _
  | cons r l ih =>
    rw [sumWhere_cons, sumWhere_cons]
    exact Int.add_le_add (h r List.mem_cons_self) (ih fun r' hr' => h r' (List.mem_cons_of_mem r hr'))

theorem sumWhere_add {t : R → Bool} {k : R → Int}
    (h : ∀ r ∈ l, (if p r then f r else 0) + (if q r then g r else 0) = if t r then k r else 0) :
    sumWhere p f l + sumWhere q g l = sumWhere t k l := by
  induction l with
  | nil => rfl
  | cons r l ih =>
    have hr := h r List.mem_cons_self
    have hl := ih fun r' hr' => h r' (List.mem_cons_of_mem r hr')
    simp only [sumWhere_cons]
    omega

theorem sumWhere_add_not : sumWhere p f l + sumWhere (fun r => !p r) f l = (l.map f).sum := by
  rw [← sumWhere_true]
  refine sumWhere_add fun r _ => ?_
  cases p r <;> simp

theorem sumWhere_eq_zero (h : ∀ r ∈ l, p r = true → f r = 0) : sumWhere p f l = 0 := by
  induction l with
  | nil => rfl
  | cons r l ih =>
    rw [sumWhere_cons, ih fun r' hr' => h r' (List.mem_cons_of_mem r hr'), Int.add_zero]
    split
    · next hp => exact h r List.mem_cons_self hp
    · rfl

theorem sumWhere_nonneg (h : ∀ r ∈ l, p r = true → 0 ≤ f r) : 0 ≤ sumWhere p f l := by
  refine List.sum_nonneg ?_
  intro x hx
  obtain ⟨r, hr, rfl⟩ := List.mem_map.1 hx
  obtain ⟨hr, hp⟩ := List.mem_filter.1 hr
  exact h r hr hp

theorem sumWhere_eq_single {r : R} (hkeys : (l.map key).Nodup) (hr : r ∈ l)
    (h : ∀ r' ∈ l, p r' = true → key r' = key r) : sumWhere p f l = if p r then f r else 0 := by
  induction l with
  | nil => cases hr
  | cons r1 l ih =>
    rw [List.map_cons, List.nodup_cons] at hkeys
    rw [sumWhere_cons]
    rcases List.mem_cons.1 hr with rfl | hr
    · have hrest : sumWhere p f l = 0 := by
        refine sumWhere_eq_zero fun r' hr' hp => absurd ?_ hkeys.1
        exact h r' (List.mem_cons_of_mem r hr') hp ▸ List.mem_map_of_mem hr'
      rw [hrest, Int.add_zero]
    · have hfirst : p r1 ≠ true := by
        intro hp
        exact hkeys.1 (h r1 List.mem_cons_self hp ▸ List.mem_map_of_mem hr)
      rw [if_neg hfirst, Int.zero_add]
      exact ih hkeys.2 hr fun r' hr' => h r' (List.mem_cons_of_mem r1 hr')

theorem sumWhere_perm {l' : List R} (h : l.Perm l') : sumWhere p f l = sumWhere p f l' :=
  ((h.filter p).map f).sum_eq

theorem sumWhere_filterMap {g : R' → Option R} {l' : List R'} :
    sumWhere p f (l'.filterMap g) = sumWhere (fun r => (g r).any p) (fun r => (g r).elim 0 f) l' := by
  induction l' with
  | nil => rfl
  | cons r l' ih =>
    rw [sumWhere_cons, ← ih]
    cases hr : g r with
    | none => rw [List.filterMap_cons_none hr, Option.any_none, if_neg Bool.false_ne_true, Int.zero_add]
    | some r' => rw [List.filterMap_cons_some hr, sumWhere_cons, Option.any_some, Option.elim_some]

theorem filter_key [DecidableEq K] {r : R} (hkeys : (l.map key).Nodup) (hr : r ∈ l) :
    l.filter (fun r' => decide (key r' = key r)) = [r] := by
  induction l with
  | nil => cases hr
  | cons r1 l ih =>
    rw [List.map_cons, List.nodup_cons] at hkeys
    rcases List.mem_cons.1 hr with rfl | hr
    · have hrest : l.filter (fun r' => decide (key r' = key r)) = [] := by
        refine List.filter_eq_nil_iff.2 fun r' hr' heq => hkeys.1 ?_
        exact of_decide_eq_true heq ▸ List.mem_map_of_mem hr'
      rw [List.filter_cons_of_pos (by simp), hrest]
    · have hfirst : key r1 ≠ key r := fun heq => hkeys.1 (heq ▸ List.mem_map_of_mem hr)
      rw [List.filter_cons_of_neg (by simpa using hfirst)]
      exact ih hkeys.2 hr

theorem eq_nil_or_singleton (hnodup : l.Nodup) (h : ∀ a ∈ l, ∀ b ∈ l, a = b) :
    l = [] ∨ ∃ a, l = [a] := by
  cases l with
  | nil => exact .inl rfl
  | cons a l =>
    cases l with
    | nil => exact .inr ⟨a, rfl⟩
    | cons b l =>
      obtain rfl := h a (by simp) b (by simp)
      simp at hnodup

theorem length_le_sum (hpos : ∀ r ∈ l, 0 < f r) : (l.length : Int) ≤ (l.map f).sum := by
  induction l with
  | nil => exact le_refl 0
  | cons r l ih =>
    have hr := hpos r List.mem_cons_self
    have hl := ih fun r' hr' => hpos r' (List.mem_cons_of_mem r hr')
    rw [List.map_cons, List.sum_cons, List.length_cons]
    omega

theorem add_length_le_sum {r : R} (hr : r ∈ l) (hpos : ∀ r ∈ l, 0 < f r) : f r + l.length ≤ (l.map f).sum + 1 := by
  induction l with
  | nil => cases hr
  | cons r1 l ih =>
    have hr1 := hpos r1 List.mem_cons_self
    have hrest : ∀ r' ∈ l, 0 < f r' := fun r' hr' => hpos r' (List.mem_cons_of_mem r1 hr')
    rw [List.map_cons, List.sum_cons, List.length_cons]
    rcases List.mem_cons.1 hr with rfl | hr
    · have hl := length_le_sum hrest
      omega
    · have hl := ih hr hrest
      omega

theorem eq_sum_iff_length_le_one {r : R} (hr : r ∈ l) (hpos : ∀ r ∈ l, 0 < f r) :
    f r = (l.map f).sum ↔ l.length ≤ 1 := by
  constructor
  · intro heq
    have hle := add_length_le_sum hr hpos
    omega
  · intro hlen
    obtain ⟨r', rfl⟩ : ∃ r', l = [r'] := by
      cases l with
      | nil => cases hr
      | cons r' l => exact ⟨r', by rw [List.eq_nil_of_length_eq_zero (l := l) (by simpa using hlen)]⟩
    rw [List.mem_singleton.1 hr]
    simp

theorem sumWhere_le_of_subset {l' : List R} (hnodup : l.Nodup) (hsub : ∀ r ∈ l, p r = true → r ∈ l' ∧ q r = true)
    (hnonneg : ∀ r ∈ l', q r = true → 0 ≤ f r) : sumWhere p f l ≤ sumWhere q f l' := by
  have hsubset : l.filter p ⊆ l'.filter q := by
    intro r hr
    obtain ⟨hr, hp⟩ := List.mem_filter.1 hr
    exact List.mem_filter.2 (hsub r hr hp)
  obtain ⟨l1, hperm, hsublist⟩ := List.subperm_of_subset (hnodup.filter p) hsubset
  calc sumWhere p f l = (l1.map f).sum := ((hperm.map f).sum_eq).symm
    _ ≤ sumWhere q f l' := by
      refine (hsublist.map f).sum_le_sum fun x hx => ?_
      obtain ⟨r, hr, rfl⟩ := List.mem_map.1 hx
      obtain ⟨hr, hq⟩ := List.mem_filter.1 hr
      exact hnonneg r hr hq

theorem sumWhere_join [DecidableEq K] {ref : R' → K} {h : R' → Int} {l' : List R'}
    (hkeys : (l.map key).Nodup) :
    sumWhere p (fun r => sumWhere (fun x => decide (ref x = key r)) h l') l =
      sumWhere (fun x => l.any fun r => decide (ref x = key r) && p r) h l' := by
  induction l' with
  | nil => exact sumWhere_eq_zero fun _ _ _ => rfl
  | cons x l' ih =>
    rw [sumWhere_cons, ← ih]
    have hfirst : sumWhere (fun r => decide (ref x = key r) && p r) (fun _ => h x) l =
        if (l.any fun r => decide (ref x = key r) && p r) then h x else 0 := by
      cases hany : l.any fun r => decide (ref x = key r) && p r with
      | true =>
        obtain ⟨r, hr, hp⟩ := List.any_eq_true.1 hany
        rw [sumWhere_eq_single hkeys hr, if_pos hp, if_pos rfl]
        intro r' _ hp'
        simp only [Bool.and_eq_true, decide_eq_true_eq] at hp hp'
        exact hp'.1.symm.trans hp.1
      | false =>
        rw [if_neg Bool.false_ne_true]
        refine sumWhere_eq_zero fun r hr hp => absurd hp ?_
        exact List.any_eq_false.1 hany r hr
    rw [← hfirst]
    symm
    refine sumWhere_add fun r _ => ?_
    by_cases hp : p r = true <;> by_cases href : ref x = key r <;> simp [hp, href, sumWhere_cons]

/-! ## Insertions and updates -/

theorem nodup_insert {c : R → K} {r : R} (h : (l.map c).Nodup) (hr : c r ∉ l.map c) : ((l ++ [r]).map c).Nodup := by
  rw [List.map_append, List.nodup_append]
  refine ⟨h, List.nodup_singleton _, ?_⟩
  intro a ha b hb hab
  rw [hab, List.mem_singleton.1 hb] at ha
  exact hr ha

section Update

variable {u : R → R}

theorem sumWhere_updateWhere : sumWhere p f (updateWhere q u l) =
    sumWhere (fun r => p (if q r then u r else r)) (fun r => f (if q r then u r else r)) l := by
  induction l with
  | nil => rfl
  | cons r l ih =>
    rw [updateWhere, List.map_cons, sumWhere_cons, sumWhere_cons]
    exact congrArg _ ih

theorem mem_updateWhere {r : R} : r ∈ updateWhere q u l ↔ ∃ r' ∈ l, r = if q r' then u r' else r' := by
  simp only [updateWhere, List.mem_map, eq_comm]

theorem map_updateWhere {C : Type} {c : R → C} (h : ∀ r, c (u r) = c r) :
    (updateWhere q u l).map c = l.map c := by
  rw [updateWhere, List.map_map]
  refine List.map_congr_left fun r _ => ?_
  show c (if q r then u r else r) = c r
  split
  · exact h r
  · rfl

theorem filter_updateWhere (h : ∀ r, p (u r) = p r) :
    (updateWhere q u l).filter p = updateWhere q u (l.filter p) := by
  induction l with
  | nil => rfl
  | cons r l ih =>
    have hr : p (if q r then u r else r) = p r := by split <;> simp [h]
    simp only [updateWhere, List.map_cons, List.filter_cons, hr] at ih ⊢
    split
    · rw [List.map_cons, ih]
    · exact ih

theorem updateWhere_congr (h : ∀ r ∈ l, p r = q r) : updateWhere p u l = updateWhere q u l :=
  List.map_congr_left fun r hr => by rw [h r hr]

theorem updateWhere_eq_self (h : ∀ r ∈ l, q r = false) : updateWhere q u l = l := by
  refine (List.map_congr_left fun r hr => ?_).trans (List.map_id l)
  rw [h r hr]
  rfl

@[simp] theorem length_updateWhere : (updateWhere q u l).length = l.length := List.length_map _

end Update

end Table
