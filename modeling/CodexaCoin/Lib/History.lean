import CodexaCoin.Lib.Ledger

/-!
# Histories of a ledger

A history is a list of things with ledger entries, the newest first, each of which spends items that the earlier ones
have left.
-/

namespace History

open Ledger

variable {T K V : Type} (entry : T → Entry K V)

/-- All the items that a history has created. -/
def created (l : List T) : List (K × V) := l.flatMap fun t => (entry t).creates

section Created

variable {entry} {l : List T} {t : T} {kv : K × V}

theorem created_cons : created entry (t :: l) = (entry t).creates ++ created entry l := List.flatMap_cons

theorem mem_created : kv ∈ created entry l ↔ ∃ t ∈ l, kv ∈ (entry t).creates := List.mem_flatMap

theorem created_subset {l' : List T} (h : l ⊆ l') (hkv : kv ∈ created entry l) : kv ∈ created entry l' := by
  obtain ⟨t, ht, hkv⟩ := mem_created.1 hkv
  exact mem_created.2 ⟨t, h ht, hkv⟩

end Created

variable [DecidableEq K]

/-- The items that are left. -/
def unspent : List T → State K V
  | [] => ∅
  | t :: earlier => (entry t).apply (unspent earlier)

/-- Every entry spends items that are left, each once, and creates items with new keys. -/
def Chained : List T → Prop
  | [] => True
  | t :: earlier => Chained earlier ∧ (entry t).spends.Nodup ∧ (∀ k ∈ (entry t).spends, k ∈ unspent entry earlier) ∧
      ((entry t).creates.map Prod.fst).Nodup ∧
        ∀ k ∈ (entry t).creates.map Prod.fst, k ∉ (created entry earlier).map Prod.fst

instance decidableChained : (l : List T) → Decidable (Chained entry l)
  | [] => .isTrue trivial
  | _ :: earlier => @instDecidableAnd _ _ (decidableChained earlier) inferInstance

variable {entry} {l : List T} {t t' : T} {k : K} {v v' : V}

theorem Chained.tail (h : Chained entry (t :: l)) : Chained entry l := h.1

theorem Chained.suffix {l' : List T} (h : Chained entry l) (hs : l' <:+ l) : Chained entry l' := by
  induction l with
  | nil =>
    rw [List.suffix_nil.1 hs]
    trivial
  | cons t l ih =>
    rcases List.suffix_cons_iff.1 hs with rfl | hs
    · exact h
    · exact ih h.tail hs

theorem Chained.nodup (h : Chained entry l) : ((created entry l).map Prod.fst).Nodup := by
  induction l with
  | nil => exact List.nodup_nil
  | cons t l ih =>
    obtain ⟨htail, -, -, hnodup, hfresh⟩ := h
    rw [created_cons, List.map_append, List.nodup_append]
    exact ⟨hnodup, ih htail, fun k hk k' hk' heq => hfresh k hk (heq ▸ hk')⟩

theorem Chained.created_inj (h : Chained entry l) (hv : (k, v) ∈ created entry l) (hv' : (k, v') ∈ created entry l) :
    v = v' :=
  congrArg Prod.snd (List.inj_on_of_nodup_map h.nodup hv hv' rfl)

theorem lookup_unspent (hv : (unspent entry l).lookup k = some v) : (k, v) ∈ created entry l := by
  induction l with
  | nil =>
    rw [unspent, Finmap.lookup_empty] at hv
    cases hv
  | cons t l ih =>
    rw [created_cons, List.mem_append]
    rcases lookup_create hv with hnew | hold
    · exact .inl hnew
    · rw [lookup_spend] at hold
      split at hold
      · cases hold
      · exact .inr (ih hold)

theorem Chained.spent_created (h : Chained entry l) (ht : t ∈ l) (hk : k ∈ (entry t).spends) :
    ∃ v, (k, v) ∈ created entry l := by
  induction l with
  | nil => cases ht
  | cons t0 l ih =>
    obtain ⟨htail, -, hspends, -, -⟩ := h
    have hold : ∃ v, (k, v) ∈ created entry l := by
      rcases List.mem_cons.1 ht with rfl | ht
      · obtain ⟨v, hv⟩ := Finmap.mem_iff.1 (hspends k hk)
        exact ⟨v, lookup_unspent hv⟩
      · exact ih htail ht
    obtain ⟨v, hv⟩ := hold
    exact ⟨v, created_subset (List.subset_cons_self t0 l) hv⟩

theorem Chained.not_unspent (h : Chained entry l) (ht : t ∈ l) (hk : k ∈ (entry t).spends) : k ∉ unspent entry l := by
  induction l with
  | nil => cases ht
  | cons t0 l ih =>
    obtain ⟨htail, -, hspends, -, hfresh⟩ := h
    intro hmem
    obtain ⟨v, hv⟩ := Finmap.mem_iff.1 hmem
    rcases lookup_create hv with hnew | hold
    · -- Its key is not created again.
      have hkey := hfresh k (List.mem_map_of_mem hnew)
      rcases List.mem_cons.1 ht with rfl | ht
      · obtain ⟨v', hv'⟩ := Finmap.mem_iff.1 (hspends k hk)
        exact hkey (List.mem_map_of_mem (lookup_unspent hv'))
      · obtain ⟨v', hv'⟩ := htail.spent_created ht hk
        exact hkey (List.mem_map_of_mem hv')
    · rw [lookup_spend] at hold
      split at hold
      · cases hold
      · next hnot =>
        rcases List.mem_cons.1 ht with rfl | ht
        · exact hnot hk
        · exact ih htail ht (Finmap.mem_iff.2 ⟨v, hold⟩)

theorem Chained.lookup_of_not_spent (h : Chained entry l) (hv : (k, v) ∈ created entry l)
    (hk : ∀ t ∈ l, k ∉ (entry t).spends) : (unspent entry l).lookup k = some v := by
  induction l with
  | nil => cases hv
  | cons t l ih =>
    obtain ⟨htail, -, -, hnodup, hfresh⟩ := h
    rw [unspent, Entry.apply]
    rcases List.mem_append.1 (created_cons ▸ hv) with hnew | hold
    · exact lookup_create_of_mem hnodup hnew
    · have hkey : k ∉ (entry t).creates.map Prod.fst := fun hmem => hfresh k hmem (List.mem_map_of_mem hold)
      rw [lookup_create_of_notMem hkey, lookup_spend, if_neg (hk t List.mem_cons_self)]
      exact ih htail hold fun t' ht' => hk t' (List.mem_cons_of_mem t ht')

/-- **An item is spent at most once.** -/
theorem Chained.spent_once (h : Chained entry l) (ht : t ∈ l) (ht' : t' ∈ l) (hk : k ∈ (entry t).spends)
    (hk' : k ∈ (entry t').spends) : t = t' := by
  induction l with
  | nil => cases ht
  | cons t0 l ih =>
    obtain ⟨htail, -, hspends, -, -⟩ := h
    rcases List.mem_cons.1 ht with rfl | hold
    · rcases List.mem_cons.1 ht' with rfl | hold'
      · rfl
      · exact absurd (hspends k hk) (htail.not_unspent hold' hk')
    · rcases List.mem_cons.1 ht' with rfl | hold'
      · exact absurd (hspends k hk') (htail.not_unspent hold hk)
      · exact ih htail hold hold'

/-! ## Values -/

section Values

variable (entry) (w : V → Int)

def createdValue (t : T) : Int := ((entry t).creates.map fun kv => w kv.2).sum

def spentValue (l : List T) (t : T) : Int :=
  ((entry t).spends.map fun k => ((unspent entry l).lookup k).elim 0 w).sum

def left (l : List T) : Int := total w (unspent entry l)

variable {entry w} {w' : V → Int}

theorem Chained.spent_items (h : Chained entry (t :: l)) : ∃ vs,
    List.Forall₂ (fun k v => (unspent entry l).lookup k = some v) (entry t).spends vs ∧
      spentValue entry w l t = (vs.map w).sum := by
  rw [spentValue]
  have hspends := h.2.2.1
  generalize (entry t).spends = ks at hspends
  induction ks with
  | nil => exact ⟨[], .nil, rfl⟩
  | cons k ks ih =>
    obtain ⟨v, hv⟩ := Finmap.mem_iff.1 (hspends k List.mem_cons_self)
    obtain ⟨vs, hvs, hsum⟩ := ih fun k' hk' => hspends k' (List.mem_cons_of_mem k hk')
    refine ⟨v :: vs, .cons hv hvs, ?_⟩
    rw [List.map_cons, List.sum_cons, List.map_cons, List.sum_cons, hsum, hv]
    rfl

/-- **What one more entry does to the value that is left.** -/
theorem Chained.left_cons (h : Chained entry (t :: l)) :
    left entry w (t :: l) = left entry w l - spentValue entry w l t + createdValue entry w t := by
  obtain ⟨vs, hvs, hsum⟩ := h.spent_items (w := w)
  obtain ⟨-, hspent, -, hcreated, hfresh⟩ := h
  have hvalid : Valid (unspent entry l) (entry t) vs := by
    refine ⟨hspent, hvs, hcreated, fun k hk hmem => hfresh k hk ?_⟩
    obtain ⟨v, hv⟩ := Finmap.mem_iff.1 hmem
    rw [lookup_spend] at hv
    split at hv
    · cases hv
    · exact List.mem_map_of_mem (lookup_unspent hv)
  rw [left, unspent, total_apply w hvalid, hsum]
  rfl

theorem value_le_left (hk : (unspent entry l).lookup k = some v) (hw : ∀ kv ∈ created entry l, 0 ≤ w kv.2) :
    w v ≤ left entry w l := by
  rw [left, total, FinmapSum.wsum_eq_add_erase _ hk]
  have hrest : 0 ≤ FinmapSum.wsum (fun _ v => w v) ((unspent entry l).erase k) := by
    refine FinmapSum.wsum_nonneg fun k' v' hv' => hw (k', v') (lookup_unspent ?_)
    by_cases hkk : k' = k
    · rw [hkk, Finmap.lookup_erase] at hv'
      cases hv'
    · rwa [Finmap.lookup_erase_ne hkk] at hv'
  omega

theorem spentValue_nonneg (hw : ∀ kv ∈ created entry l, 0 ≤ w kv.2) : 0 ≤ spentValue entry w l t := by
  refine List.sum_nonneg fun x hx => ?_
  obtain ⟨k, -, rfl⟩ := List.mem_map.1 hx
  cases hk : (unspent entry l).lookup k with
  | none => exact le_refl 0
  | some v => exact hw (k, v) (lookup_unspent hk)

theorem spentValue_eq_zero (h : ∀ k ∈ (entry t).spends, ∀ v, (unspent entry l).lookup k = some v → w v = 0) :
    spentValue entry w l t = 0 := by
  refine List.sum_eq_zero fun x hx => ?_
  obtain ⟨k, hk, rfl⟩ := List.mem_map.1 hx
  cases hv : (unspent entry l).lookup k with
  | none => rfl
  | some v => exact h k hk v hv

theorem spentValue_congr
    (h : ∀ k ∈ (entry t).spends, ∀ v, (unspent entry l).lookup k = some v → w v = w' v) :
    spentValue entry w l t = spentValue entry w' l t := by
  refine congrArg List.sum (List.map_congr_left fun k hk => ?_)
  cases hv : (unspent entry l).lookup k with
  | none => rfl
  | some v => exact h k hk v hv

omit [DecidableEq K] in
theorem createdValue_congr (h : ∀ kv ∈ (entry t).creates, w kv.2 = w' kv.2) :
    createdValue entry w t = createdValue entry w' t :=
  congrArg List.sum (List.map_congr_left h)

end Values

/-! ## Income -/

section Income

variable (entry) (carries : T → Bool) (w : V → Int)

/-- All value that was brought in. An entry that carries brings in what it creates beyond what it spends; what the others
spend goes elsewhere. -/
def income : List T → Int
  | [] => 0
  | t :: l => income l + createdValue entry w t - if carries t then spentValue entry w l t else 0

def Gains (l : List T) : Prop :=
  ∀ t l', t :: l' <:+ l → carries t = true → spentValue entry w l' t ≤ createdValue entry w t

variable {entry carries w} {w' : V → Int} {l' : List T}

theorem Gains.tail (h : Gains entry carries w (t :: l)) : Gains entry carries w l :=
  fun t' l' hs => h t' l' (hs.trans (List.suffix_cons t l))

theorem income_congr (h : ∀ kv ∈ created entry l, w kv.2 = w' kv.2) :
    income entry carries w l = income entry carries w' l := by
  induction l with
  | nil => rfl
  | cons t l ih =>
    have hold : ∀ kv ∈ created entry l, w kv.2 = w' kv.2 :=
      fun kv hkv => h kv (created_subset (List.subset_cons_self t l) hkv)
    have hnew : ∀ kv ∈ (entry t).creates, w kv.2 = w' kv.2 :=
      fun kv hkv => h kv (mem_created.2 ⟨t, List.mem_cons_self, hkv⟩)
    rw [income, income, ih hold, createdValue_congr hnew,
      spentValue_congr fun k _ v hv => hold (k, v) (lookup_unspent hv)]

theorem income_add :
    income entry carries (fun v => w v + w' v) l = income entry carries w l + income entry carries w' l := by
  induction l with
  | nil => rfl
  | cons t l ih =>
    have hcreated : createdValue entry (fun v => w v + w' v) t = createdValue entry w t + createdValue entry w' t :=
      List.sum_map_add
    have hspent : spentValue entry (fun v => w v + w' v) l t = spentValue entry w l t + spentValue entry w' l t := by
      rw [spentValue, spentValue, spentValue, ← List.sum_map_add]
      refine congrArg List.sum (List.map_congr_left fun k _ => ?_)
      cases (unspent entry l).lookup k <;> rfl
    rw [income, income, income, ih, hcreated, hspent]
    split <;> omega

theorem income_eq_zero (h : ∀ kv ∈ created entry l, w kv.2 = 0) : income entry carries w l = 0 := by
  have hdouble : income entry carries (fun v => w v + w v) l = income entry carries w l :=
    income_congr fun kv hkv => by rw [h kv hkv, Int.add_zero]
  rw [income_add] at hdouble
  omega

theorem Gains.income_le_cons (h : Gains entry carries w (t :: l)) (hw : ∀ kv ∈ created entry (t :: l), 0 ≤ w kv.2) :
    income entry carries w l ≤ income entry carries w (t :: l) := by
  have hcreated : 0 ≤ createdValue entry w t := by
    refine List.sum_nonneg fun x hx => ?_
    obtain ⟨kv, hkv, rfl⟩ := List.mem_map.1 hx
    exact hw kv (mem_created.2 ⟨t, List.mem_cons_self, hkv⟩)
  rw [income]
  split
  · next hcarries =>
    have := h t l (List.suffix_refl _) hcarries
    omega
  · omega

theorem Gains.income_le (h : Gains entry carries w l) (hw : ∀ kv ∈ created entry l, 0 ≤ w kv.2)
    (hs : l' <:+ l) : income entry carries w l' ≤ income entry carries w l := by
  induction l with
  | nil => rw [List.suffix_nil.1 hs]
  | cons t l ih =>
    rcases List.suffix_cons_iff.1 hs with rfl | hs
    · exact le_refl _
    · have hold : ∀ kv ∈ created entry l, 0 ≤ w kv.2 :=
        fun kv hkv => hw kv (created_subset (List.subset_cons_self t l) hkv)
      exact (ih h.tail hold hs).trans (h.income_le_cons hw)

theorem Gains.income_nonneg (h : Gains entry carries w l) (hw : ∀ kv ∈ created entry l, 0 ≤ w kv.2) :
    0 ≤ income entry carries w l :=
  h.income_le hw (List.nil_suffix)

theorem Chained.left_le_income (h : Chained entry l) (hw : ∀ kv ∈ created entry l, 0 ≤ w kv.2) :
    left entry w l ≤ income entry carries w l := by
  induction l with
  | nil => exact le_refl 0
  | cons t l ih =>
    have hold : ∀ kv ∈ created entry l, 0 ≤ w kv.2 := fun kv hkv => hw kv (created_subset (List.subset_cons_self t l) hkv)
    have hleft := ih h.tail hold
    have hspent := spentValue_nonneg (t := t) hold
    rw [h.left_cons, income]
    split <;> omega

/-- **No item is worth more than what was brought in.** -/
theorem Chained.value_le_income (h : Chained entry l) (hgains : Gains entry carries w l)
    (hw : ∀ kv ∈ created entry l, 0 ≤ w kv.2) (hv : (k, v) ∈ created entry l) : w v ≤ income entry carries w l := by
  obtain ⟨t, ht, hcreates⟩ := mem_created.1 hv
  obtain ⟨l1, l2, rfl⟩ := List.append_of_mem ht
  have hs : t :: l2 <:+ l1 ++ t :: l2 := List.suffix_append l1 _
  have hold : ∀ kv ∈ created entry (t :: l2), 0 ≤ w kv.2 := fun kv hkv => hw kv (created_subset hs.subset hkv)
  have hchained := h.suffix hs
  -- Right after it was created, it is left.
  have hleft : (unspent entry (t :: l2)).lookup k = some v := lookup_create_of_mem hchained.2.2.2.1 hcreates
  exact (value_le_left hleft hold).trans ((hchained.left_le_income hold).trans (hgains.income_le hw hs))

theorem Chained.gain_le_income (h : Chained entry l) (hgains : Gains entry carries w l)
    (hw : ∀ kv ∈ created entry l, 0 ≤ w kv.2) (hs : t :: l' <:+ l) (hcarries : carries t = true)
    (hv : (unspent entry l').lookup k = some v) :
    w v + (createdValue entry w t - spentValue entry w l' t) ≤ income entry carries w l := by
  have hs' : l' <:+ l := (List.suffix_cons t l').trans hs
  have hold : ∀ kv ∈ created entry l', 0 ≤ w kv.2 := fun kv hkv => hw kv (created_subset hs'.subset hkv)
  have hbefore : w v ≤ income entry carries w l' := (value_le_left hv hold).trans ((h.suffix hs').left_le_income hold)
  have hafter := hgains.income_le hw hs
  rw [income, if_pos hcarries] at hafter
  omega

end Income

end History
