import Mathlib

/-!
# Checks and loops in `Except`

A validation function is a sequence of checks that either throws the first failing one or goes on with a result.
-/

namespace Check

variable {ε σ τ α β : Type} {b : Bool} {r : β} {l : List α} {m : List β}

/-- Throw `e` unless `b` holds. -/
def require (b : Bool) (e : ε) : Except ε Unit :=
  if b then .ok () else .error e

/-- Make a check only when `b` holds. -/
def when (b : Bool) (x : Except ε Unit) : Except ε Unit :=
  if b then x else .ok ()

@[simp] theorem when_true (x : Except ε Unit) : when true x = x := rfl

@[simp] theorem when_false (x : Except ε Unit) : when false x = .ok () := rfl

@[simp] theorem require_true (e : ε) : require true e = .ok () := rfl

@[simp] theorem require_false (e : ε) : require false e = .error e := rfl

@[simp] theorem require_eq_ok {e : ε} {u : Unit} : require b e = .ok u ↔ b = true := by
  cases b <;> simp

theorem bind_eq_ok {x : Except ε α} {f : α → Except ε β} :
    x >>= f = .ok r ↔ ∃ a, x = .ok a ∧ f a = .ok r := by
  cases x with
  | error e => simp [bind, Except.bind]
  | ok a => simp [bind, Except.bind]

@[simp] theorem ok_bind (a : α) (f : α → Except ε β) : (Except.ok a >>= f) = f a := rfl

@[simp] theorem error_bind (e : ε) (f : α → Except ε β) : (Except.error e >>= f) = .error e := rfl

theorem require_bind_eq_ok {e : ε} {f : Unit → Except ε β} :
    require b e >>= f = .ok r ↔ b = true ∧ f () = .ok r := by
  cases b <;> simp

/-! ## Loops -/

section Loops

variable {f : σ → α → Except ε σ} {s s' : σ} {a : α} {l : List α}

theorem foldlM_cons_eq_ok : (a :: l).foldlM f s = .ok s' ↔ ∃ s1, f s a = .ok s1 ∧ l.foldlM f s1 = .ok s' := by
  rw [List.foldlM_cons, bind_eq_ok]

theorem foldlM_invariant (I : σ → Prop) (hstep : ∀ s a s', a ∈ l → I s → f s a = .ok s' → I s') (h0 : I s)
    (h : l.foldlM f s = .ok s') : I s' := by
  induction l generalizing s with
  | nil => cases h; exact h0
  | cons a l ih =>
    obtain ⟨s1, h1, h2⟩ := foldlM_cons_eq_ok.1 h
    have hI : I s1 := hstep s a s1 (List.mem_cons_self ..) h0 h1
    exact ih (fun s b s' hb => hstep s b s' (List.mem_cons_of_mem _ hb)) hI h2

theorem foldlM_induction (I : List α → σ → Prop) (h : l.foldlM f s = .ok s') (h0 : I [] s)
    (hstep : ∀ done s a s', I done s → f s a = .ok s' → I (done ++ [a]) s') : I l s' := by
  suffices hgen : ∀ done s, I done s → l.foldlM f s = .ok s' → I (done ++ l) s' from hgen [] s h0 h
  clear h h0
  induction l with
  | nil => intro done s h0 h; cases h; simpa using h0
  | cons a l ih =>
    intro done s h0 h
    obtain ⟨s1, h1, h2⟩ := foldlM_cons_eq_ok.1 h
    have hI : I (done ++ [a]) s1 := hstep done s a s1 h0 h1
    simpa using ih (done ++ [a]) s1 hI h2

theorem foldlM_congr {g : σ → α → Except ε σ} (h : ∀ a ∈ l, ∀ s, f s a = g s a) : l.foldlM f s = l.foldlM g s := by
  induction l generalizing s with
  | nil => rfl
  | cons a l ih =>
    rw [List.foldlM_cons, List.foldlM_cons, h a List.mem_cons_self s]
    congr 1
    funext s1
    exact ih fun b hb => h b (List.mem_cons_of_mem a hb)

theorem forM_eq_ok {f : α → Except ε Unit} {u : Unit} (h : l.forM f = .ok u) : ∀ a ∈ l, f a = .ok () := by
  induction l with
  | nil => simp
  | cons a l ih =>
    obtain ⟨⟨⟩, h1, h2⟩ := bind_eq_ok.1 (by simpa only [List.forM_eq_forM, List.forM_cons] using h)
    intro b hb
    rcases List.mem_cons.1 hb with rfl | hb
    · exact h1
    · exact ih (by simpa only [List.forM_eq_forM] using h2) b hb

end Loops

theorem exists_of_mem_of_forall₂ {R : α → β → Prop} (h : List.Forall₂ R l m) {a : α}
    (ha : a ∈ l) : ∃ b ∈ m, R a b := by
  induction h with
  | nil => cases ha
  | cons hab _ ih =>
    rcases List.mem_cons.1 ha with rfl | ha
    · exact ⟨_, List.mem_cons_self .., hab⟩
    · obtain ⟨b, hb, hR⟩ := ih ha
      exact ⟨b, List.mem_cons_of_mem _ hb, hR⟩

theorem forall₂_imp_of_mem {R S : α → β → Prop} (h : List.Forall₂ R l m)
    (hRS : ∀ a b, a ∈ l → R a b → S a b) : List.Forall₂ S l m := by
  induction h with
  | nil => exact .nil
  | cons hab _ ih =>
    exact .cons (hRS _ _ (List.mem_cons_self ..) hab) (ih fun a b ha => hRS a b (List.mem_cons_of_mem _ ha))

def holdsOk {ε α : Type} (p : α → Bool) : Except ε α → Bool
  | .ok a => p a
  | .error _ => false

theorem holdsOk_iff {ε α : Type} {p : α → Bool} {x : Except ε α} :
    holdsOk p x = true ↔ ∃ a, x = .ok a ∧ p a = true := by
  cases x <;> simp [holdsOk]

/-! ## Two runs -/

/-- Both runs fail with the same error, or both succeed and their results are related by `R`. -/
inductive Agree (R : α → β → Prop) : Except ε α → Except ε β → Prop
  | ok {a b} (h : R a b) : Agree R (.ok a) (.ok b)
  | error (e) : Agree R (.error e) (.error e)

section Agree

variable {R : α → β → Prop} {x : Except ε α} {S : σ → τ → Prop}

theorem Agree.refl : Agree Eq x x := by
  cases x with
  | error e => exact .error e
  | ok a => exact .ok rfl

theorem Agree.mono {R' : α → β → Prop} (hR : ∀ a b, R a b → R' a b) {y : Except ε β}
    (h : Agree R x y) : Agree R' x y := by
  cases h with
  | ok h => exact .ok (hR _ _ h)
  | error e => exact .error e

theorem Agree.join {γ : Type} {R' : σ → γ → Prop} {R : α → γ → Prop} {y : Except ε σ}
    {z : Except ε γ} (h : Agree R x z) (h' : Agree R' y z) : Agree (fun a b => ∃ c, R a c ∧ R' b c) x y := by
  cases h with
  | ok h =>
    cases h' with
    | ok h' => exact .ok ⟨_, h, h'⟩
  | error e =>
    cases h' with
    | error => exact .error e

theorem Agree.bind {y : Except ε β} {f : α → Except ε σ} {g : β → Except ε τ}
    (h : Agree R x y) (hf : ∀ a b, R a b → Agree S (f a) (g b)) : Agree S (x >>= f) (y >>= g) := by
  cases h with
  | ok h => exact hf _ _ h
  | error e => exact .error e

theorem Agree.require_bind {b b' : Bool} {e : ε} {f : Unit → Except ε σ} {g : Unit → Except ε τ}
    (hb : b = b') (hf : b = true → Agree S (f ()) (g ())) :
    Agree S (Check.require b e >>= f) (Check.require b' e >>= g) := by
  subst hb
  cases b with
  | false => exact .error e
  | true => exact hf rfl

theorem Agree.foldlM {f : σ → α → Except ε σ} {g : τ → β → Except ε τ} {l : List α} {m : List β}
    (hl : List.Forall₂ R l m) (hstep : ∀ s t a b, S s t → R a b → Agree S (f s a) (g t b)) {s : σ} {t : τ}
    (h : S s t) : Agree S (l.foldlM f s) (m.foldlM g t) := by
  induction hl generalizing s t with
  | nil => exact .ok h
  | cons hab _ ih =>
    rw [List.foldlM_cons, List.foldlM_cons]
    exact (hstep _ _ _ _ h hab).bind fun _ _ hst => ih hst

end Agree

/-! ## Loops whose errors do not matter -/

section ToOption

theorem toOption_foldlM_map {ε ε' σ τ α β : Type} {f : σ → α → Except ε σ} {g : τ → β → Except ε' τ} (φ : σ → τ)
    (ψ : α → β) (h : ∀ s a, ((f s a).toOption).map φ = (g (φ s) (ψ a)).toOption) (l : List α) (s : σ) :
    ((l.foldlM f s).toOption).map φ = ((l.map ψ).foldlM g (φ s)).toOption := by
  induction l generalizing s with
  | nil => rfl
  | cons a l ih =>
    rw [List.map_cons, List.foldlM_cons, List.foldlM_cons]
    have hstep := h s a
    cases hf : f s a with
    | error e =>
      rw [hf] at hstep
      cases hg : g (φ s) (ψ a) with
      | error e' => rfl
      | ok t => rw [hg] at hstep; cases hstep
    | ok s' =>
      rw [hf] at hstep
      cases hg : g (φ s) (ψ a) with
      | error e' => rw [hg] at hstep; cases hstep
      | ok t =>
        rw [hg] at hstep
        cases hstep
        exact ih s'

theorem toOption_bind_ok {ε α β : Type} (x : Except ε α) (g : α → β) :
    (x >>= fun a => (.ok (g a) : Except ε β)).toOption = x.toOption.map g := by
  cases x <;> rfl

end ToOption

/-! ## One result for each item -/

section MapM

variable {ε α β γ : Type} {f : α → Except ε β} {l : List α}

theorem mapM_eq_ok_iff {r : List β} : l.mapM f = .ok r ↔ List.Forall₂ (fun x y => f x = .ok y) l r := by
  induction l generalizing r with
  | nil =>
    rw [List.mapM_nil, List.forall₂_nil_left_iff]
    exact ⟨fun h => (Except.ok.inj h).symm, fun h => congrArg Except.ok h.symm⟩
  | cons x l ih =>
    rw [List.mapM_cons, bind_eq_ok, List.forall₂_cons_left_iff]
    refine ⟨fun ⟨y, hy, h⟩ => ?_, fun ⟨y, r', hy, hr', hr⟩ => ⟨y, hy, ?_⟩⟩
    · obtain ⟨r', hr', h⟩ := bind_eq_ok.1 h
      exact ⟨y, r', hy, ih.1 hr', (Except.ok.inj h).symm⟩
    · rw [ih.2 hr', hr]
      rfl

theorem mapM_eq_ok_map {g : α → β} (h : ∀ x ∈ l, f x = .ok (g x)) : l.mapM f = .ok (l.map g) := by
  rw [mapM_eq_ok_iff, List.forall₂_map_right_iff, List.forall₂_same]
  exact h

theorem mapM_eq_mapM {g : γ → Except ε β} {m : List γ} (h : l.map f = m.map g) : l.mapM f = m.mapM g :=
  calc l.mapM f = (l.map f).mapM id := (List.mapM_map (f := f) (g := id) (l := l)).symm
    _ = (m.map g).mapM id := by rw [h]
    _ = m.mapM g := List.mapM_map (f := g) (g := id) (l := m)

end MapM

end Check
