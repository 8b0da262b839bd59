import CodexaCoin.Lib.Check
import CodexaCoin.Lib.Wrap

/-!
# Runs with an audit of their machine arithmetic

A `Run` is a computation in `Except` that also keeps the exact result of every signed 64-bit operation it makes,
whether the run goes on after it or not. `Fits` says that none of them leaves the range.
-/

namespace Audit

/-- A computation with the exact results of its machine operations, in order. -/
structure Run (ε α : Type) where
  exact : List Int
  result : Except ε α

namespace Run

variable {ε ε' σ α β : Type}

/-- The operations of a sequence are those of the first part and, if it succeeds, those of the second. -/
def bind (x : Run ε α) (f : α → Run ε β) : Run ε β :=
  match x.result with
  | .ok a => ⟨x.exact ++ (f a).exact, (f a).result⟩
  | .error e => ⟨x.exact, .error e⟩

instance : Monad (Run ε) where
  pure a := ⟨[], .ok a⟩
  bind := bind

def lift (x : Except ε α) : Run ε α := ⟨[], x⟩

/-- A machine operation whose exact result is `x`. -/
def arith (x : Int) : Run ε Int := ⟨[x], .ok (wrap64 x)⟩

def mapResult (g : Except ε α → Except ε' β) (x : Run ε α) : Run ε' β := ⟨x.exact, g x.result⟩

/-- Every operation has its exact result in the range of a signed 64-bit number. -/
def Fits (x : Run ε α) : Prop :=
  ∀ y ∈ x.exact, -2 ^ 63 ≤ y ∧ y < 2 ^ 63

instance (x : Run ε α) : Decidable x.Fits :=
  inferInstanceAs (Decidable (∀ y ∈ x.exact, _))

/-! ## Results -/

@[simp] theorem result_pure (a : α) : (pure a : Run ε α).result = .ok a := rfl

@[simp] theorem result_lift (x : Except ε α) : (lift x).result = x := rfl

@[simp] theorem result_arith (x : Int) : (arith x : Run ε Int).result = .ok (wrap64 x) := rfl

@[simp] theorem result_mapResult (g : Except ε α → Except ε' β) (x : Run ε α) : (x.mapResult g).result = g x.result := rfl

@[simp] theorem result_bind (x : Run ε α) (f : α → Run ε β) :
    (x >>= f).result = x.result >>= fun a => (f a).result := by
  change (bind x f).result = _
  unfold bind
  cases h : x.result with
  | ok a => rfl
  | error e => rfl

theorem result_foldlM {f : σ → α → Run ε σ} {g : σ → α → Except ε σ} (h : ∀ s a, (f s a).result = g s a) (l : List α)
    (s : σ) : (l.foldlM f s).result = l.foldlM g s := by
  induction l generalizing s with
  | nil => rfl
  | cons a l ih =>
    rw [List.foldlM_cons, List.foldlM_cons, result_bind, h]
    congr 1
    funext s'
    exact ih s'

/-! ## What fits -/

@[simp] theorem fits_pure (a : α) : (pure a : Run ε α).Fits := by simp [Fits, Pure.pure]

@[simp] theorem fits_lift (x : Except ε α) : (lift x).Fits := by simp [Fits, lift]

@[simp] theorem fits_arith {x : Int} : (arith x : Run ε Int).Fits ↔ -2 ^ 63 ≤ x ∧ x < 2 ^ 63 := by simp [Fits, arith]

@[simp] theorem fits_mapResult (g : Except ε α → Except ε' β) (x : Run ε α) : (x.mapResult g).Fits ↔ x.Fits := Iff.rfl

@[simp] theorem fits_bind {x : Run ε α} {f : α → Run ε β} :
    (x >>= f).Fits ↔ x.Fits ∧ ∀ a, x.result = .ok a → (f a).Fits := by
  change (bind x f).Fits ↔ _
  unfold bind Fits
  cases h : x.result with
  | ok a =>
    constructor
    · intro hall
      refine ⟨fun y hy => hall y (List.mem_append_left _ hy), fun a' ha' => ?_⟩
      cases ha'
      exact fun y hy => hall y (List.mem_append_right _ hy)
    · rintro ⟨hx, hf⟩ y hy
      rcases List.mem_append.1 hy with hy | hy
      · exact hx y hy
      · exact hf a rfl y hy
  | error e => exact ⟨fun hall => ⟨hall, fun a ha => nomatch ha⟩, fun hall => hall.1⟩

/-! ## Loops that add up -/

/-- A loop over `l` that adds the weight of every item it accepts to a sum that stays in the range, and ends at the
first item that it refuses. -/
structure Accumulates (f : Int → α → Run ε Int) (accepts : α → Bool) (weight : α → Int) (l : List α) : Prop where
  nonneg : ∀ a ∈ l, accepts a = true → 0 ≤ weight a
  refused : ∀ a ∈ l, accepts a = false → ∀ s, 0 ≤ s → s < 2 ^ 63 → (f s a).Fits ∧ ∀ v, (f s a).result ≠ .ok v
  fits : ∀ a ∈ l, accepts a = true → ∀ s, 0 ≤ s → s < 2 ^ 63 → ((f s a).Fits ↔ s + weight a < 2 ^ 63)
  adds : ∀ a ∈ l, accepts a = true → ∀ s, 0 ≤ s → s + weight a < 2 ^ 63 → (f s a).result = .ok (s + weight a)

variable {f : Int → α → Run ε Int} {accepts : α → Bool} {weight : α → Int} {l : List α}

theorem Accumulates.of_cons {a : α} (h : Accumulates f accepts weight (a :: l)) : Accumulates f accepts weight l where
  nonneg b hb := h.nonneg b (List.mem_cons_of_mem a hb)
  refused b hb := h.refused b (List.mem_cons_of_mem a hb)
  fits b hb := h.fits b (List.mem_cons_of_mem a hb)
  adds b hb := h.adds b (List.mem_cons_of_mem a hb)

theorem Accumulates.sum_nonneg (h : Accumulates f accepts weight l) : 0 ≤ ((l.takeWhile accepts).map weight).sum := by
  refine List.sum_nonneg fun w hw => ?_
  obtain ⟨a, ha, rfl⟩ := List.mem_map.1 hw
  exact h.nonneg a ((List.takeWhile_sublist accepts).subset ha) (List.mem_takeWhile_imp ha)

/-- **A loop that adds up fits** exactly when the items before the first refused one add up inside the range. -/
theorem Accumulates.fits_iff (h : Accumulates f accepts weight l) {s : Int} (h0 : 0 ≤ s) (h1 : s < 2 ^ 63) :
    (l.foldlM f s).Fits ↔ s + ((l.takeWhile accepts).map weight).sum < 2 ^ 63 := by
  induction l generalizing s with
  | nil => simpa using h1
  | cons a l ih =>
    rw [List.foldlM_cons, fits_bind]
    cases ha : accepts a with
    | false =>
      obtain ⟨hfits, hstop⟩ := h.refused a List.mem_cons_self ha s h0 h1
      rw [List.takeWhile_cons_of_neg (by simp [ha])]
      exact ⟨fun _ => by simpa using h1, fun _ => ⟨hfits, fun v hv => absurd hv (hstop v)⟩⟩
    | true =>
      have hw := h.nonneg a List.mem_cons_self ha
      have hrest := h.of_cons.sum_nonneg
      rw [List.takeWhile_cons_of_pos ha, List.map_cons, List.sum_cons, h.fits a List.mem_cons_self ha s h0 h1]
      constructor
      · rintro ⟨hadd, hl⟩
        have hfits := (ih h.of_cons (by omega) hadd).1 (hl _ (h.adds a List.mem_cons_self ha s h0 hadd))
        omega
      · intro hsum
        have hadd : s + weight a < 2 ^ 63 := by omega
        refine ⟨hadd, fun v hv => ?_⟩
        rw [h.adds a List.mem_cons_self ha s h0 hadd] at hv
        cases hv
        exact (ih h.of_cons (by omega) hadd).2 (by omega)

theorem Accumulates.result_eq (h : Accumulates f accepts weight l) (hall : ∀ a ∈ l, accepts a = true) {s : Int}
    (h0 : 0 ≤ s) (hsum : s + (l.map weight).sum < 2 ^ 63) : (l.foldlM f s).result = .ok (s + (l.map weight).sum) := by
  induction l generalizing s with
  | nil => simp
  | cons a l ih =>
    have ha := hall a List.mem_cons_self
    have hl : ∀ b ∈ l, accepts b = true := fun b hb => hall b (List.mem_cons_of_mem a hb)
    have hw := h.nonneg a List.mem_cons_self ha
    have hrest := h.of_cons.sum_nonneg
    rw [List.takeWhile_eq_self_iff.2 hl] at hrest
    rw [List.map_cons, List.sum_cons] at hsum ⊢
    rw [List.foldlM_cons, result_bind, h.adds a List.mem_cons_self ha s h0 (by omega), Check.ok_bind,
      ih h.of_cons hl (by omega) (by omega), add_assoc]

theorem fits_sum {weight : α → Int} {l : List α} (h : ∀ a ∈ l, 0 ≤ weight a) :
    (l.foldlM (fun n a => arith (n + weight a)) 0 : Run ε Int).Fits ↔ (l.map weight).sum < 2 ^ 63 := by
  have hacc : Accumulates (fun n a => (arith (n + weight a) : Run ε Int)) (fun _ => true) weight l := by
    refine ⟨fun a ha _ => h a ha, fun _ _ hno => (nomatch hno), fun a ha _ s h0 _ => ?_, fun a ha _ s h0 hsum => ?_⟩
    · have hw := h a ha
      rw [fits_arith]
      exact ⟨fun hfits => hfits.2, fun hsum => ⟨by omega, hsum⟩⟩
    · have hw := h a ha
      rw [result_arith, wrap64_eq (by omega) hsum]
  rw [hacc.fits_iff (le_refl 0) (by decide), List.takeWhile_eq_self_iff.2 fun _ _ => rfl, zero_add]

end Run

end Audit
