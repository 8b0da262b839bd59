import Mathlib

/-!
# Tables that are written behind

A table in memory, the table on disk that it is written to from time to time, and the set of keys that the next write
takes along. A key may be changed in memory without being marked, so that what memory says need not be what a later load
brings back.
-/

namespace WriteBehind

variable {K V : Type}

structure Store (K V : Type) where
  mem : K → Option V
  dirty : K → Bool
  disk : K → Option V

/-- Write the marked records; no record leaves the table, so a marked key has one. -/
def Store.write (s : Store K V) : Store K V where
  mem := s.mem
  dirty _ := false
  disk k := if s.dirty k then s.mem k else s.disk k

def Marks (d d' : K → Bool) : Prop :=
  ∀ k, d k = true → d' k = true

theorem Marks.refl (d : K → Bool) : Marks d d := fun _ h => h

theorem Marks.trans {d d1 d' : K → Bool} (h1 : Marks d d1) (h2 : Marks d1 d') : Marks d d' :=
  fun k h => h2 k (h1 k h)

def Holds (P : K → V → Prop) (t : K → Option V) (k : K) : Prop :=
  ∃ v, t k = some v ∧ P k v

namespace Store

variable {P : K → V → Prop} {s s' : Store K V} {k : K}

/-- The record of a key has the property in memory, and on disk unless it is still to be written. -/
structure Sealed (P : K → V → Prop) (s : Store K V) (k : K) : Prop where
  mem : Holds P s.mem k
  disk : s.dirty k = true ∨ Holds P s.disk k

theorem Sealed.keep (h : s.Sealed P k) (hmem : ∀ v, s.mem k = some v → P k v → Holds P s'.mem k)
    (hdirty : Marks s.dirty s'.dirty) (hdisk : s'.disk = s.disk) : s'.Sealed P k := by
  obtain ⟨v, hv, hP⟩ := h.mem
  exact ⟨hmem v hv hP, h.disk.imp (hdirty k) fun hd => hdisk ▸ hd⟩

theorem Sealed.mark (hmem : Holds P s.mem k) (hdirty : s.dirty k = true) : s.Sealed P k :=
  ⟨hmem, .inl hdirty⟩

theorem Sealed.holds_write (h : s.Sealed P k) : Holds P s.write.disk k := by
  obtain ⟨v, hv, hP⟩ := h.mem
  by_cases hd : s.dirty k = true
  · exact ⟨v, by simp [write, hd, hv], hP⟩
  · obtain ⟨d, hdisk, hPd⟩ := h.disk.resolve_left hd
    exact ⟨d, by simp [write, hd, hdisk], hPd⟩

theorem Sealed.write (h : s.Sealed P k) : s.write.Sealed P k :=
  ⟨h.mem, .inr h.holds_write⟩

theorem write_disk_cases {v : V} (h : s.write.disk k = some v) : s.mem k = some v ∨ s.disk k = some v := by
  by_cases hd : s.dirty k = true
  · exact .inl (by simpa [Store.write, hd] using h)
  · exact .inr (by simpa [Store.write, hd] using h)

end Store

end WriteBehind
