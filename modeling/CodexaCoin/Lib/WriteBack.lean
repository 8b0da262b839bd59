import CodexaCoin.Lib.FinmapSum

/-!
# Write-back caches

A cache stands over a level below it and answers for the keys that it has an entry for. An entry has a value or says that
the key is gone; `dirty` means that the level below may not know it yet, and `fresh` that the level below has nothing
under the key.
-/

namespace WriteBack

variable {V : Type*}

structure Entry (V : Type*) where
  value : Option V
  dirty : Bool := false
  fresh : Bool := false
deriving DecidableEq, Repr

/-- What is seen through a slot of a cache over what is seen below it. -/
def see (slot : Option (Entry V)) (below : Option V) : Option V :=
  match slot with
  | none => below
  | some e => e.value

@[simp] theorem see_none (below : Option V) : see none below = below := rfl

@[simp] theorem see_some (e : Entry V) (below : Option V) : see (some e) below = e.value := rfl

/-- What the flags of an entry promise about the level below. -/
structure Entry.Sound (e : Entry V) (below : Option V) : Prop where
  clean : e.dirty = false → e.value = below
  absent : e.fresh = true → below = none
  gone : e.value = none → e.dirty = true ∧ e.fresh = false

def SlotSound (slot : Option (Entry V)) (below : Option V) : Prop :=
  ∀ e, slot = some e → e.Sound below

/-! ## Changes of an entry -/

section Changes

variable {e : Entry V} {slot : Option (Entry V)} {below : Option V} {v : V}

@[simp] theorem slotSound_none : SlotSound none below := fun _ h => by cases h

theorem slotSound_some : SlotSound (some e) below ↔ e.Sound below :=
  ⟨fun h => h e rfl, fun h _ he => Option.some.inj he ▸ h⟩

theorem Entry.Sound.loaded (h : below = some v) : Entry.Sound ⟨some v, false, false⟩ below :=
  ⟨fun _ => h.symm, nofun, nofun⟩

theorem SlotSound.added (h : SlotSound slot below) (hnone : see slot below = none) (v : V) :
    Entry.Sound ⟨some v, true, !((slot.map (·.dirty)).getD false) || (slot.map (·.fresh)).getD false⟩ below := by
  refine ⟨nofun, ?_, nofun⟩
  intro hfresh
  cases slot with
  | none => exact hnone
  | some e =>
    have he := h e rfl
    obtain ⟨hdirty, hstale⟩ := he.gone hnone
    simp [hdirty, hstale] at hfresh

theorem SlotSound.overwritten (h : SlotSound slot below) (v : V) :
    Entry.Sound ⟨some v, true, (slot.map (·.fresh)).getD false⟩ below := by
  refine ⟨nofun, ?_, nofun⟩
  intro hfresh
  cases slot with
  | none => cases hfresh
  | some e => exact (h e rfl).absent hfresh

theorem Entry.Sound.removed : Entry.Sound ⟨(none : Option V), true, false⟩ below :=
  ⟨nofun, nofun, fun _ => ⟨rfl, rfl⟩⟩

theorem Entry.Sound.flags (h : e.Sound below) : (e.dirty = false → e.fresh = false ∧ e.value ≠ none) ∧
    (e.value = none → e.fresh = false) := by
  refine ⟨?_, fun hnone => (h.gone hnone).2⟩
  intro hclean
  have hvalue : e.value ≠ none := by
    intro hnone
    rw [(h.gone hnone).1] at hclean
    cases hclean
  refine ⟨?_, hvalue⟩
  cases hfresh : e.fresh with
  | false => rfl
  | true => exact absurd ((h.clean hclean).trans (h.absent hfresh)) hvalue

theorem Entry.Sound.drop (h : e.Sound below) (hclean : e.dirty = false) : below = e.value :=
  (h.clean hclean).symm

end Changes

/-! ## Writing back -/

/-- The slot of the level below after it has taken an entry over. -/
def absorb (e : Entry V) (slot : Option (Entry V)) : Option (Entry V) :=
  match slot with
  | none => if e.fresh && e.value.isNone then none else some ⟨e.value, true, e.fresh⟩
  | some e' => if e'.fresh && e.value.isNone then none else some ⟨e.value, true, e'.fresh⟩

section Absorb

variable {e e' : Entry V} {slot : Option (Entry V)} {below : Option V}

theorem Entry.Sound.meets_none (h : e.Sound (see (some e') below)) (hfresh : e.fresh = true) : e'.value = none :=
  h.absent hfresh

theorem see_absorb (h : e.Sound (see slot below)) (hslot : SlotSound slot below) :
    see (absorb e slot) below = e.value := by
  cases slot with
  | none =>
    simp only [absorb]
    split
    · next hcond =>
      rw [Bool.and_eq_true, Option.isNone_iff_eq_none] at hcond
      rw [hcond.2]
      exact h.absent hcond.1
    · rfl
  | some e' =>
    simp only [absorb]
    split
    · next hcond =>
      rw [Bool.and_eq_true, Option.isNone_iff_eq_none] at hcond
      rw [hcond.2]
      exact (hslot e' rfl).absent hcond.1
    · rfl

theorem SlotSound.absorb (h : e.Sound (see slot below)) (hslot : SlotSound slot below) :
    SlotSound (absorb e slot) below := by
  cases slot with
  | none =>
    simp only [WriteBack.absorb]
    split
    · exact slotSound_none
    · exact slotSound_some.2 ⟨nofun, h.absent, fun hnone => ⟨rfl, (h.gone hnone).2⟩⟩
  | some e' =>
    simp only [WriteBack.absorb]
    split
    · exact slotSound_none
    · next hcond =>
      refine slotSound_some.2 ⟨nofun, (hslot e' rfl).absent, fun hnone => ⟨rfl, ?_⟩⟩
      -- a fresh slot without value would have been dropped
      cases hfresh : e'.fresh with
      | false => rfl
      | true => exact absurd (by simp [hfresh, show e.value = none from hnone]) hcond

def settle (e : Entry V) : Option (Entry V) :=
  e.value.map fun v => ⟨some v, false, false⟩

theorem settle_sound (e : Entry V) : SlotSound (settle e) e.value := by
  cases hvalue : e.value with
  | none => simp [settle, hvalue]
  | some v =>
    rw [settle, hvalue, Option.map_some]
    exact slotSound_some.2 (.loaded rfl)

theorem see_settle (e : Entry V) : see (settle e) e.value = e.value := by
  cases hvalue : e.value with
  | none => simp [settle, hvalue]
  | some v => simp [settle, hvalue]

end Absorb

end WriteBack
