import Mathlib

/-!
# Ancestors through skip pointers

A memory of nodes, each with a height, a pointer to its parent and a pointer that skips ahead to an ancestor. Which
ancestor that is depends on the height alone (`jump`). A walk down to a height may take the skip pointer whenever it does
not lead past that height (`follow`).
-/

namespace SkipPointer

variable {κ : Type}

structure Links (κ : Type) where
  prev : Option κ
  skip : Option κ
  height : Nat

abbrev Memory (κ : Type) := κ → Option (Links κ)

def Memory.prev (mem : Memory κ) (k : κ) : Option κ := (mem k).bind (·.prev)

/-- The node that `n` parent pointers lead to. -/
def climb (prev : κ → Option κ) : Nat → κ → Option κ
  | 0, k => some k
  | n + 1, k => (prev k).bind (climb prev n)

/-- The node and the nodes that up to `n` parent pointers lead to. -/
def path (prev : κ → Option κ) : Nat → κ → List κ
  | 0, k => [k]
  | n + 1, k => k :: (prev k).elim [] (path prev n)

inductive WalkError where
  | nullPrev
  | outOfFuel
deriving DecidableEq, Repr

/-- Walk from a node at a height down to another height. -/
def walk (mem : Memory κ) (jump : Nat → Nat) (follow : Nat → Nat → Bool) :
    (fuel : Nat) → κ → (heightWalk height : Nat) → Except WalkError κ
  | 0, k, heightWalk, height => if heightWalk > height then .error .outOfFuel else .ok k
  | fuel + 1, k, heightWalk, height =>
    if heightWalk > height then
      match (mem k).bind (·.skip), follow heightWalk height with
      | some skip, true => walk mem jump follow fuel skip (jump heightWalk) height
      | _, _ =>
        match mem.prev k with
        | some prev => walk mem jump follow fuel prev (heightWalk - 1) height
        | none => .error .nullPrev
    else .ok k

/-! ## Climbing -/

section Climb

variable {prev prev' : κ → Option κ} {k a : κ} {p : κ}

theorem climb_add (m n : Nat) (k : κ) : climb prev (m + n) k = (climb prev m k).bind (climb prev n) := by
  induction m generalizing k with
  | zero => rw [Nat.zero_add]; rfl
  | succ m ih =>
    rw [Nat.succ_add]
    cases h : prev k with
    | none => simp [climb, h]
    | some p => simp [climb, h, ih]

theorem climb_succ_of_prev (h : prev k = some p) (n : Nat) : climb prev (n + 1) k = climb prev n p := by
  simp [climb, h]

theorem climb_mono (hsub : ∀ k p, prev k = some p → prev' k = some p) {n : Nat} (h : climb prev n k = some a) :
    climb prev' n k = some a := by
  induction n generalizing k with
  | zero => exact h
  | succ n ih =>
    obtain ⟨p, hp, hrest⟩ := Option.bind_eq_some_iff.1 h
    rw [climb_succ_of_prev (hsub k p hp)]
    exact ih hrest

theorem path_succ_of_prev (h : prev k = some p) (n : Nat) : path prev (n + 1) k = k :: path prev n p := by
  simp [path, h]

theorem path_getElem? {m n : Nat} (hm : m ≤ n) : (path prev n k)[m]? = climb prev m k := by
  induction m generalizing n k with
  | zero => cases n <;> rfl
  | succ m ih =>
    obtain ⟨n, rfl⟩ : ∃ n', n = n' + 1 := ⟨n - 1, by omega⟩
    cases h : prev k with
    | none => simp [path, climb, h]
    | some p =>
      rw [path_succ_of_prev h, climb_succ_of_prev h, List.getElem?_cons_succ]
      exact ih (by omega)

theorem length_path {n : Nat} (h : climb prev n k = some a) : (path prev n k).length = n + 1 := by
  induction n generalizing k with
  | zero => rfl
  | succ n ih =>
    obtain ⟨p, hp, hrest⟩ := Option.bind_eq_some_iff.1 h
    rw [path_succ_of_prev hp, List.length_cons, ih hrest]

theorem path_mono (hsub : ∀ k p, prev k = some p → prev' k = some p) {n : Nat} (h : climb prev n k = some a) :
    path prev' n k = path prev n k := by
  induction n generalizing k with
  | zero => rfl
  | succ n ih =>
    obtain ⟨p, hp, hrest⟩ := Option.bind_eq_some_iff.1 h
    rw [path_succ_of_prev hp, path_succ_of_prev (hsub k p hp), ih hrest]

end Climb

/-! ## Linked memories -/

/-- Heights fall by one along parent pointers, down to zero, except that a node of height one may be its own parent. Skip
pointers lead to the ancestor at the height `jump`. -/
structure Linked (mem : Memory κ) (jump : Nat → Nat) : Prop where
  prev : ∀ k e, mem k = some e → e.height ≠ 0 →
    ∃ p ep, e.prev = some p ∧ mem p = some ep ∧ (ep.height + 1 = e.height ∨ p = k ∧ e.height = 1)
  skip : ∀ k e s, mem k = some e → e.skip = some s → climb mem.prev (e.height - jump e.height) k = some s

theorem linked_empty {jump : Nat → Nat} : Linked (fun _ : κ => none) jump :=
  ⟨fun _ _ h => (nomatch h), fun _ _ _ h => (nomatch h)⟩

namespace Linked

variable {mem : Memory κ} {jump : Nat → Nat} {follow : Nat → Nat → Bool} (hmem : Linked mem jump)
  {k : κ} {e : Links κ}

include hmem

theorem climb_of_le (hk : mem k = some e) {n : Nat} (hn : n ≤ e.height) :
    ∃ a ea, climb mem.prev n k = some a ∧ mem a = some ea ∧ (ea.height = e.height - n ∨ e.height = n) := by
  induction n generalizing k e with
  | zero => exact ⟨k, e, rfl, hk, .inl rfl⟩
  | succ n ih =>
    obtain ⟨p, ep, hp, hep, hheight⟩ := hmem.prev k e hk (by omega)
    have hprev : mem.prev k = some p := by rw [Memory.prev, hk]; exact hp
    rw [climb_succ_of_prev hprev]
    rcases hheight with hheight | ⟨-, hone⟩
    · obtain ⟨a, ea, ha, hea, hor⟩ := ih hep (by omega)
      exact ⟨a, ea, ha, hea, by omega⟩
    · obtain rfl : n = 0 := by omega
      exact ⟨p, ep, rfl, hep, .inr hone⟩

/-- **Every walk ends at the ancestor.** A rule that never takes a skip pointer past the height may take it or not. -/
theorem walk (hjump : ∀ h, h ≠ 0 → jump h < h) (hfollow : ∀ w h, follow w h = true → h ≤ jump w)
    {fuel w h : Nat} (hk : mem k = some e) (hw : e.height = w ∨ w = 0) (hle : h ≤ w) (hfuel : w - h ≤ fuel) :
    ∃ a, SkipPointer.walk mem jump follow fuel k w h = .ok a ∧ climb mem.prev (w - h) k = some a := by
  induction fuel generalizing k e w with
  | zero =>
    refine ⟨k, ?_, ?_⟩
    · rw [SkipPointer.walk, if_neg (by omega)]
    · rw [show w - h = 0 by omega]; rfl
  | succ fuel ih =>
    by_cases hgt : w > h
    · obtain rfl : e.height = w := by omega
      -- a step to the ancestor `n` below
      have hstep : ∀ n, n ≤ e.height - h → n ≠ 0 → ∀ b, climb mem.prev n k = some b → ∃ a,
          SkipPointer.walk mem jump follow fuel b (e.height - n) h = .ok a ∧
            climb mem.prev (e.height - h) k = some a := by
        intro n hn hpos b hb
        obtain ⟨b', eb, hb', heb, hor⟩ := hmem.climb_of_le hk (by omega : n ≤ e.height)
        obtain rfl : b = b' := Option.some.inj (hb.symm.trans hb')
        obtain ⟨a, hwalk, hclimb⟩ := ih (w := e.height - n) heb (by omega) (by omega) (by omega)
        refine ⟨a, hwalk, ?_⟩
        rw [show e.height - h = n + (e.height - n - h) by omega, climb_add, hb]
        exact hclimb
      rw [SkipPointer.walk, if_pos hgt]
      split
      · next s hs hf =>
        rw [hk] at hs
        have hskip := hmem.skip k e s hk hs
        have hlt := hjump e.height (by omega)
        have hge := hfollow _ _ hf
        obtain ⟨a, hwalk, hclimb⟩ := hstep _ (by omega) (by omega) s hskip
        rw [show e.height - (e.height - jump e.height) = jump e.height by omega] at hwalk
        exact ⟨a, hwalk, hclimb⟩
      · obtain ⟨p, ep, hp, -, -⟩ := hmem.prev k e hk (by omega)
        have hprev : mem.prev k = some p := by rw [Memory.prev, hk]; exact hp
        rw [hprev]
        exact hstep 1 (by omega) (by omega) p (climb_succ_of_prev hprev 0)
    · refine ⟨k, ?_, ?_⟩
      · rw [SkipPointer.walk, if_neg hgt]
      · rw [show w - h = 0 by omega]; rfl

end Linked

/-! ## New nodes -/

section Update

variable [DecidableEq κ] {mem : Memory κ} {jump : Nat → Nat} {k k' : κ} {e : Links κ}

def Memory.set (mem : Memory κ) (k : κ) (e : Links κ) : Memory κ := Function.update mem k (some e)

@[simp] theorem Memory.set_self : mem.set k e k = some e := Function.update_self ..

theorem Memory.set_of_ne (h : k' ≠ k) : mem.set k e k' = mem k' := Function.update_of_ne h ..

/-- **Linking a new node to its parent**, which may be the node itself. -/
theorem Linked.link (hmem : Linked mem jump) (hk : mem k = none) (hskip : e.skip = none)
    (hprev : e.height ≠ 0 → ∃ p ep, e.prev = some p ∧ mem.set k e p = some ep ∧
      (ep.height + 1 = e.height ∨ p = k ∧ e.height = 1)) :
    Linked (mem.set k e) jump := by
  -- the nodes that were there keep their pointers
  have hold : ∀ k' e', mem k' = some e' → mem.set k e k' = some e' := by
    intro k' e' hk'
    rw [Memory.set_of_ne (by rintro rfl; rw [hk] at hk'; cases hk')]
    exact hk'
  have hsub : ∀ k' p, mem.prev k' = some p → (mem.set k e).prev k' = some p := by
    intro k' p hp
    obtain ⟨e', he', hp'⟩ := Option.bind_eq_some_iff.1 hp
    rw [Memory.prev, hold k' e' he']
    exact hp'
  constructor
  · intro k' e' hk' hpos
    by_cases h : k' = k
    · subst h
      rw [Memory.set_self] at hk'
      cases hk'
      exact hprev hpos
    · rw [Memory.set_of_ne h] at hk'
      obtain ⟨p, ep, hp, hep, hheight⟩ := hmem.prev k' e' hk' hpos
      exact ⟨p, ep, hp, hold p ep hep, hheight⟩
  · intro k' e' s hk' hs
    by_cases h : k' = k
    · subst h
      rw [Memory.set_self] at hk'
      cases hk'
      rw [hskip] at hs
      cases hs
    · rw [Memory.set_of_ne h] at hk'
      exact climb_mono hsub (hmem.skip k' e' s hk' hs)

theorem Memory.prev_set_skip (hk : mem k = some e) (s : κ) : (mem.set k { e with skip := some s }).prev = mem.prev := by
  funext k'
  by_cases h : k' = k
  · subst h
    rw [Memory.prev, Memory.prev, Memory.set_self, hk]
    rfl
  · rw [Memory.prev, Memory.prev, Memory.set_of_ne h]

/-- **Setting a skip pointer.** -/
theorem Linked.setSkip (hmem : Linked mem jump) (hk : mem k = some e) {s : κ}
    (hs : climb mem.prev (e.height - jump e.height) k = some s) :
    Linked (mem.set k { e with skip := some s }) jump := by
  -- the height of every node is what it was
  have hheight : ∀ k' e', mem k' = some e' →
      ∃ e'', mem.set k { e with skip := some s } k' = some e'' ∧ e''.height = e'.height := by
    intro k' e' hk'
    by_cases h : k' = k
    · subst h
      rw [hk] at hk'
      cases hk'
      exact ⟨_, Memory.set_self, rfl⟩
    · exact ⟨e', by rw [Memory.set_of_ne h]; exact hk', rfl⟩
  constructor
  · intro k' e' hk' hpos
    obtain ⟨p, ep, hp, hep, hor⟩ : ∃ p ep, e'.prev = some p ∧ mem p = some ep ∧
        (ep.height + 1 = e'.height ∨ p = k' ∧ e'.height = 1) := by
      by_cases h : k' = k
      · subst h
        rw [Memory.set_self] at hk'
        cases hk'
        exact hmem.prev k' e hk hpos
      · rw [Memory.set_of_ne h] at hk'
        exact hmem.prev k' e' hk' hpos
    obtain ⟨ep', hep', heq⟩ := hheight p ep hep
    exact ⟨p, ep', hp, hep', by rw [heq]; exact hor⟩
  · intro k' e' s' hk' hs'
    rw [Memory.prev_set_skip hk]
    by_cases h : k' = k
    · subst h
      rw [Memory.set_self] at hk'
      cases hk'
      cases hs'
      exact hs
    · rw [Memory.set_of_ne h] at hk'
      exact hmem.skip k' e' s' hk' hs'

end Update

end SkipPointer
