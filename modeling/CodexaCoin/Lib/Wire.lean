import Mathlib

/-!
# Readers of serialized data

A reader takes a value off the front of its source or fails. Sources differ, a stream that shrinks or a buffer with a
cursor; what readers use of them is `Source`.
-/

namespace Wire

class Source (σ : Type) (β : outParam Type) where
  /-- What is still to be read. -/
  rest : σ → List β
  /-- The source after so many items have been read. -/
  advance : Nat → σ → σ
  rest_advance : ∀ n s, rest (advance n s) = (rest s).drop n
  advance_zero : ∀ s, advance 0 s = s
  advance_advance : ∀ m n s, advance m (advance n s) = advance (n + m) s

export Source (rest advance rest_advance advance_zero advance_advance)

instance (β : Type) : Source (List β) β where
  rest := id
  advance := List.drop
  rest_advance _ _ := rfl
  advance_zero _ := rfl
  advance_advance m n s := by rw [List.drop_drop]

@[ext] structure Cursor (β : Type) where
  binary : List β
  cursor : Nat

instance (β : Type) : Source (Cursor β) β where
  rest s := s.binary.drop s.cursor
  advance n s := { s with cursor := s.cursor + n }
  rest_advance n s := by rw [List.drop_drop]
  advance_zero _ := rfl
  advance_advance m n s := by rw [Nat.add_assoc]

abbrev Reader (σ α : Type) := StateT σ Option α

section Readers

variable {σ α γ β : Type} [Source σ β] {y : γ}

/-- The next `n` items. -/
def take (n : Nat) : Reader σ (List β) := fun s =>
  if n ≤ (rest s).length then some ((rest s).take n, advance n s) else none

/-- The reader `n` times. -/
def many (r : Reader σ α) : Nat → Reader σ (List α)
  | 0 => pure []
  | n + 1 => do
    let x ← r
    let xs ← many r n
    pure (x :: xs)

def check (c : Bool) : Reader σ Unit := fun s => if c then some ((), s) else none

/-! ## What a reader reads -/

/-- Wherever the source goes on with `w`, the reader takes exactly that and returns `x`. -/
def Reads (r : Reader σ α) (w : List β) (x : α) : Prop :=
  ∀ s t, rest s = w ++ t → r s = some (x, advance w.length s)

theorem Reads.pure (x : α) : Reads (Pure.pure x : Reader σ α) [] x := fun s _ _ => by
  rw [List.length_nil, advance_zero]
  rfl

/-- **Readers in sequence read what is written in sequence.** -/
theorem Reads.bind {r : Reader σ α} {f : α → Reader σ γ} {w w' : List β} {x : α} (hr : Reads r w x)
    (hf : Reads (f x) w' y) : Reads (r >>= f) (w ++ w') y := by
  intro s t hs
  rw [List.append_assoc] at hs
  have hrest : rest (advance w.length s) = w' ++ t := by rw [rest_advance, hs, List.drop_left]
  calc (r >>= f) s = (r s).bind fun p => f p.1 p.2 := rfl
    _ = f x (advance w.length s) := by rw [hr s _ hs]; rfl
    _ = some (y, advance w'.length (advance w.length s)) := hf _ _ hrest
    _ = some (y, advance (w ++ w').length s) := by rw [advance_advance, List.length_append]

theorem Reads.map {r : Reader σ α} {w : List β} {x : α} (hr : Reads r w x) (g : α → γ) :
    Reads (r >>= fun a => Pure.pure (g a)) w (g x) := by
  have h := hr.bind (f := fun a => Pure.pure (g a)) (Reads.pure (g x))
  rwa [List.append_nil] at h

theorem Reads.check_bind {c : Bool} {f : Unit → Reader σ γ} {w : List β} (hc : c = true)
    (hf : Reads (f ()) w y) : Reads (check c >>= f) w y := by
  intro s t hs
  subst hc
  exact hf s t hs

theorem Reads.checked {r : Reader σ α} {w : List β} {x : α} {c : α → Bool} (hr : Reads r w x) (hc : c x = true) :
    Reads (r >>= fun a => check (c a) >>= fun _ => Pure.pure a) w x := by
  have h := hr.bind (f := fun a => check (c a) >>= fun _ => Pure.pure a) (Reads.check_bind hc (Reads.pure x))
  rwa [List.append_nil] at h

/-- **A loop of readers reads what a loop writes**; of each item it may return less than was written. -/
theorem Reads.many {r : Reader σ α} {e : γ → List β} {v : γ → α} {l : List γ} (h : ∀ y ∈ l, Reads r (e y) (v y)) :
    Reads (many r l.length) (l.map e).flatten (l.map v) := by
  induction l with
  | nil => exact Reads.pure []
  | cons y l ih =>
    rw [List.map_cons, List.flatten_cons]
    exact (h y List.mem_cons_self).bind ((ih fun z hz => h z (List.mem_cons_of_mem _ hz)).map (v y :: ·))

theorem reads_take (w : List β) : Reads (take w.length : Reader σ (List β)) w w := by
  intro s t hs
  rw [take, hs, if_pos (by simp), List.take_left]

theorem Reads.apply_stream {r : Reader (List β) α} {w : List β} {x : α} (h : Reads r w x) (t : List β) :
    r (w ++ t) = some (x, t) := by
  rw [h (w ++ t) t rfl]
  exact congrArg (fun l => some (x, l)) (List.drop_left ..)

/-! ## What a reader returns -/

/-- What the reader returns has the property. -/
def Returns (r : Reader σ α) (P : α → Prop) : Prop := ∀ s x s', r s = some (x, s') → P x

theorem Returns.pure {P : α → Prop} {x : α} (h : P x) : Returns (Pure.pure x : Reader σ α) P := by
  intro s y s' hy
  cases hy
  exact h

theorem Returns.bind {r : Reader σ α} {f : α → Reader σ γ} {P : α → Prop} {Q : γ → Prop} (hr : Returns r P)
    (hf : ∀ x, P x → Returns (f x) Q) : Returns (r >>= f) Q := by
  intro s y s' hy
  have hy : ((r s).bind fun p => f p.1 p.2) = some (y, s') := hy
  obtain ⟨⟨x, s1⟩, hx, hy⟩ := Option.bind_eq_some_iff.1 hy
  exact hf x (hr s x s1 hx) s1 y s' hy

theorem Returns.check (c : Bool) : Returns (check c : Reader σ Unit) fun _ => c = true := by
  intro s x s' h
  unfold Wire.check at h
  split at h
  · assumption
  · cases h

theorem Returns.mono {r : Reader σ α} {P Q : α → Prop} (hr : Returns r P) (h : ∀ x, P x → Q x) : Returns r Q :=
  fun s x s' hx => h x (hr s x s' hx)

theorem returns_take (n : Nat) : Returns (take n : Reader σ (List β)) fun l => l.length = n := by
  intro s x s' h
  unfold take at h
  split at h
  · cases h
    exact List.length_take_of_le (by assumption)
  · cases h

theorem Returns.many {r : Reader σ α} {P : α → Prop} (h : Returns r P) (n : Nat) :
    Returns (many r n) fun l => l.length = n ∧ ∀ x ∈ l, P x := by
  induction n with
  | zero => exact .pure ⟨rfl, by simp⟩
  | succ n ih =>
    refine h.bind fun x hx => ih.bind fun l hl => .pure ⟨by rw [List.length_cons, hl.1], fun y hy => ?_⟩
    rcases List.mem_cons.1 hy with rfl | hy
    · exact hx
    · exact hl.2 y hy

end Readers

/-! ## What a reader takes -/

section Taking

variable {α γ β : Type} {r : Reader (List β) α}

/-- What the reader takes off a stream is related to what it returns. -/
def Takes (r : Reader (List β) α) (P : α → List β → Prop) : Prop :=
  ∀ s x s', r s = some (x, s') → ∃ w, s = w ++ s' ∧ P x w

theorem Takes.pure {P : α → List β → Prop} {x : α} (h : P x []) : Takes (Pure.pure x : Reader (List β) α) P := by
  intro s y s' hy
  cases hy
  exact ⟨[], rfl, h⟩

theorem Takes.bind {f : α → Reader (List β) γ} {P : α → List β → Prop} {Q : γ → List β → Prop}
    (hr : Takes r P) (hf : ∀ x w, P x w → Takes (f x) fun y w' => Q y (w ++ w')) : Takes (r >>= f) Q := by
  intro s y s' hy
  have hbind : ((r s).bind fun p => f p.1 p.2) = some (y, s') := hy
  obtain ⟨⟨x, s1⟩, hx, hrest⟩ := Option.bind_eq_some_iff.1 hbind
  obtain ⟨w, rfl, hw⟩ := hr s x s1 hx
  obtain ⟨w', rfl, hw'⟩ := hf x w hw s1 y s' hrest
  exact ⟨w ++ w', (List.append_assoc ..).symm, hw'⟩

theorem Takes.check (c : Bool) : Takes (check c : Reader (List β) Unit) fun _ w => w = [] ∧ c = true := by
  intro s x s' h
  unfold Wire.check at h
  split at h
  · cases h
    exact ⟨[], rfl, rfl, by assumption⟩
  · cases h

theorem Takes.mono {P Q : α → List β → Prop} (hr : Takes r P) (h : ∀ x w, P x w → Q x w) :
    Takes r Q := fun s x s' hx => (hr s x s' hx).imp fun w hw => ⟨hw.1, h x w hw.2⟩

theorem takes_take (n : Nat) : Takes (take n : Reader (List β) (List β)) fun l w => w = l ∧ l.length = n := by
  intro s x s' h
  unfold take at h
  split at h
  · cases h
    exact ⟨_, (List.take_append_drop n s).symm, rfl, List.length_take_of_le (by assumption)⟩
  · cases h

theorem Takes.many {e : α → List β} {P : α → Prop} (h : Takes r fun x w => w = e x ∧ P x)
    (n : Nat) : Takes (many r n) fun l w => w = (l.map e).flatten ∧ l.length = n ∧ ∀ x ∈ l, P x := by
  induction n with
  | zero => exact .pure ⟨rfl, rfl, by simp⟩
  | succ n ih =>
    refine h.bind fun x w hx => ih.bind fun l w' hl => .pure ⟨?_, by rw [List.length_cons, hl.2.1], ?_⟩
    · rw [hx.1, hl.1, List.append_nil]
      rfl
    · exact List.forall_mem_cons.2 ⟨hx.2, hl.2.2⟩

end Taking

/-! ## Buffers with a cursor -/

section Buffers

variable {α γ β : Type} {r : Reader (Cursor β) α} {x : α} {y : γ} {k : Nat}

/-- `binary[start:stop]`. -/
def slice (binary : List β) (start stop : Nat) : List β := (binary.drop start).take (stop - start)

def consumed (r : Reader (Cursor β) α) : Reader (Cursor β) (α × List β) := fun s =>
  (r s).map fun p => ((p.1, slice s.binary s.cursor p.2.cursor), p.2)

def peek (r : Reader (Cursor β) α) : Reader (Cursor β) α := fun s => (r s).map fun p => (p.1, s)

/-- The item `k` places after the cursor, if there is one. -/
def itemAt (k : Nat) : Reader (Cursor β) (Option β) := fun s => some (s.binary[s.cursor + k]?, s)

theorem Reads.consumed {w : List β} (h : Reads r w x) :
    Reads (consumed r) w (x, w) := by
  intro s t hs
  have hslice : slice s.binary s.cursor (s.cursor + w.length) = w := by
    rw [slice, Nat.add_sub_cancel_left, show s.binary.drop s.cursor = w ++ t from hs, List.take_left]
  rw [Wire.consumed, h s t hs, Option.map_some, show (advance w.length s).cursor = s.cursor + w.length from rfl, hslice]

theorem Reads.peek_bind {f : α → Reader (Cursor β) γ} {w w' : List β}     (hr : Reads r w x)
    (hf : Reads (f x) (w ++ w') y) : Reads (peek r >>= f) (w ++ w') y := by
  intro s t hs
  have hpeek : peek r s = some (x, s) := by
    rw [peek, hr s (w' ++ t) (by rw [hs, List.append_assoc]), Option.map_some]
  calc (peek r >>= f) s = (peek r s).bind fun p => f p.1 p.2 := rfl
    _ = f x s := by rw [hpeek]; rfl
    _ = some (y, advance (w ++ w').length s) := hf s t hs

theorem Reads.itemAt_bind {f : Option β → Reader (Cursor β) γ} {w w' : List β} {b : β}
    (hk : w.length = k) (hf : Reads (f (some b)) (w ++ b :: w') y) : Reads (itemAt k >>= f) (w ++ b :: w') y := by
  intro s t hs
  have hitem : s.binary[s.cursor + k]? = some b := by
    rw [← List.getElem?_drop, show s.binary.drop s.cursor = _ from hs, ← hk]
    simp
  calc (itemAt k >>= f) s = f (s.binary[s.cursor + k]?) s := rfl
    _ = f (some b) s := by rw [hitem]
    _ = _ := hf s t hs

theorem Reads.itemAt_bind_any {f : Option β → Reader (Cursor β) γ} {w : List β}
    (hf : ∀ o, Reads (f o) w y) : Reads (itemAt k >>= f) w y :=
  fun s t hs => hf (s.binary[s.cursor + k]?) s t hs

end Buffers

/-! ## Little-endian numbers -/

section Numbers

variable {σ : Type} [Source σ UInt8]

/-- The number whose bytes these are, the least significant first. -/
def leNat : List UInt8 → Nat
  | [] => 0
  | b :: bs => b.toNat + 256 * leNat bs

theorem leNat_lt (bs : List UInt8) : leNat bs < 256 ^ bs.length := by
  induction bs with
  | nil => exact Nat.one_pos
  | cons b bs ih =>
    have hb := b.toNat_lt
    rw [leNat, List.length_cons, Nat.pow_succ]
    omega

/-- A little-endian number of `w` bytes. -/
def number (w : Nat) : Reader σ Nat := do
  let bs ← take w
  pure (leNat bs)

theorem reads_number (bs : List UInt8) : Reads (number bs.length : Reader σ Nat) bs (leNat bs) :=
  (reads_take bs).map leNat

theorem returns_number (w : Nat) : Returns (number w : Reader σ Nat) (· < 256 ^ w) :=
  (returns_take w).bind fun bs hbs => .pure (hbs ▸ leNat_lt bs)

end Numbers

end Wire
