import Mathlib

/-!
# Runs of a machine on a sequence of events

A machine takes one step for each event; an event that is not possible in a state stops it.
-/

namespace Trace

variable {σ ε : Type} (step : σ → ε → Option σ)

def run (s : σ) (events : List ε) : Option σ := events.foldlM step s

variable {step} {s s' : σ} {events events' : List ε}

theorem run_append : run step s (events ++ events') = some s' ↔
    ∃ mid, run step s events = some mid ∧ run step mid events' = some s' := by
  rw [run, List.foldlM_append, Option.bind_eq_bind, Option.bind_eq_some_iff]
  rfl

theorem run_cons {e : ε} : run step s (e :: events) = some s' ↔ ∃ mid, step s e = some mid ∧
    run step mid events = some s' := by
  rw [run, List.foldlM_cons, Option.bind_eq_bind, Option.bind_eq_some_iff]
  rfl

theorem run_concat {e : ε} : run step s (events ++ [e]) = some s' ↔
    ∃ mid, run step s events = some mid ∧ step mid e = some s' := by
  rw [run_append]
  refine exists_congr fun mid => and_congr_right fun _ => ?_
  rw [run_cons]
  constructor
  · rintro ⟨last, hlast, hnil⟩
    cases hnil
    exact hlast
  · exact fun h => ⟨s', h, rfl⟩

/-- **The invariant rule**: an invariant of the events so far and the state. -/
theorem invariant {P : List ε → σ → Prop} (hinit : P [] s)
    (hstep : ∀ events mid e mid', run step s events = some mid → P events mid → step mid e = some mid' →
      P (events ++ [e]) mid')
    (h : run step s events = some s') : P events s' := by
  induction events using List.reverseRecOn generalizing s' with
  | nil =>
    cases h
    exact hinit
  | append_singleton events e ih =>
    obtain ⟨mid, hmid, he⟩ := run_concat.1 h
    exact hstep events mid e s' hmid (ih hmid) he

/-! ## Runs in which every step meets a condition -/

variable (step) in
/-- Every event meets the condition in the state in which it happens. -/
def AllSteps (ok : σ → ε → Prop) : σ → List ε → Prop
  | _, [] => True
  | s, e :: events => ok s e ∧ match step s e with
    | some s' => AllSteps ok s' events
    | none => True

variable {ok : σ → ε → Prop}

instance AllSteps.decidable [∀ s e, Decidable (ok s e)] : (s : σ) → (events : List ε) →
    Decidable (AllSteps step ok s events)
  | _, [] => isTrue trivial
  | s, e :: events =>
    have : Decidable (match step s e with | some s' => AllSteps step ok s' events | none => True) :=
      match step s e with
      | some s' => AllSteps.decidable s' events
      | none => isTrue trivial
    inferInstanceAs (Decidable (_ ∧ _))

theorem AllSteps.of_append {e : ε} (h : AllSteps step ok s (events ++ e :: events')) :
    AllSteps step ok s events ∧ ∀ mid, run step s events = some mid → ok mid e := by
  induction events generalizing s with
  | nil =>
    refine ⟨trivial, ?_⟩
    rintro mid hmid
    cases hmid
    exact h.1
  | cons e' events ih =>
    obtain ⟨hok, hrest⟩ := h
    rw [AllSteps]
    cases hstep : step s e' with
    | none =>
      refine ⟨⟨hok, trivial⟩, fun mid hmid => ?_⟩
      obtain ⟨s', hs', -⟩ := run_cons.1 hmid
      rw [hstep] at hs'
      cases hs'
    | some s' =>
      rw [List.append_eq, hstep] at hrest
      refine ⟨⟨hok, (ih hrest).1⟩, fun mid hmid => ?_⟩
      obtain ⟨s'', hs'', hmid⟩ := run_cons.1 hmid
      rw [hstep] at hs''
      cases hs''
      exact (ih hrest).2 mid hmid

/-- **The invariant rule** for runs whose steps meet a condition. -/
theorem invariant_of_allSteps {P : List ε → σ → Prop} (hinit : P [] s)
    (hstep : ∀ events mid e mid', P events mid → ok mid e → step mid e = some mid' → P (events ++ [e]) mid')
    (hall : AllSteps step ok s events) (h : run step s events = some s') : P events s' := by
  refine invariant (P := fun events s' => AllSteps step ok s events → P events s') (fun _ => hinit) ?_ h hall
  intro events mid e mid' hrun hP he hall
  obtain ⟨hall, hok⟩ := hall.of_append
  exact hstep events mid e mid' (hP hall) (hok mid hrun) he

end Trace
