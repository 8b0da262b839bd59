import CodexaCoin.Lib.Trace

/-!
# The checkout widget

`createCheckout` of `checkout-widget/checkout.js`, which polls `address_balance` of `vps-gateway/app.py` while payments
are made, confirmed and spent.
-/

namespace CodexaCoin.Checkout

open Trace

/-! ## The gateway -/

structure Unspent where
  satoshis : Nat
  confirmations : Nat
deriving DecidableEq, Repr

def addressBalance (utxos : List Unspent) : Nat × Nat :=
  (((utxos.filter fun u => 0 < u.confirmations).map (·.satoshis)).sum,
    ((utxos.filter fun u => u.confirmations = 0).map (·.satoshis)).sum)

/-! ## The widget -/

/-- Where the polling is: `setTimeout` is pending, the request is on its way, the answer is there (`none` for a
failure), or there will be no further poll. -/
inductive Poll where
  | scheduled
  | requested
  | answered (balance : Option Nat)
  | ended
deriving DecidableEq, Repr

/-- The variables of `createCheckout`, the unspent outputs of the address and the balances that `onDetected` was called
with. -/
structure State where
  unspent : List Unspent
  baseline : Option Nat := none
  detected : Bool := false
  stopped : Bool := false
  poll : Poll := .requested
  fired : List Nat := []
deriving DecidableEq, Repr

inductive Event where
  /-- A payment to the address. -/
  | pay (satoshis confirmations : Nat)
  /-- Some output has more confirmations now, or fewer. -/
  | confirm (i confirmations : Nat)
  /-- Some output is spent. -/
  | spend (i : Nat)
  /-- The timer calls `poll`. -/
  | timer
  /-- The gateway answers, or the request fails. -/
  | answer (ok : Bool)
  /-- `poll` goes on with the answer; `onDetected` may throw. -/
  | resume (throws : Bool)
  /-- The page calls `stop`. -/
  | stop
deriving DecidableEq, Repr

/-- What `fetchBalance` returns. -/
def balanceOf (utxos : List Unspent) : Nat := (addressBalance utxos).1 + (addressBalance utxos).2

def State.stop (s : State) : State :=
  { s with stopped := true, poll := if s.poll = .scheduled then .ended else s.poll }

/-- The end of `poll`. -/
def State.schedule (s : State) : State := { s with poll := if s.stopped then .ended else .scheduled }

/-- `poll` after `fetchBalance`. -/
def State.resume (amount : Nat) (throws : Bool) (s : State) : Option Nat → State
  | none => s.schedule
  | some balance =>
    match s.baseline with
    | none => { s with baseline := some balance }.schedule
    | some baseline =>
      if !s.detected && decide ((amount : Int) ≤ balance - baseline) then
        let s := { s with detected := true, fired := s.fired ++ [balance] }
        if throws then s.schedule else { s with stopped := true, poll := .ended }
      else s.schedule

def step (amount : Nat) (s : State) : Event → Option State
  | .pay satoshis confirmations => some { s with unspent := s.unspent ++ [⟨satoshis, confirmations⟩] }
  | .confirm i confirmations => some { s with unspent := s.unspent.modify i fun u => { u with confirmations } }
  | .spend i => if i < s.unspent.length then some { s with unspent := s.unspent.eraseIdx i } else none
  | .timer => match s.poll with
    | .scheduled => some { s with poll := if s.stopped then .ended else .requested }
    | _ => none
  | .answer ok => match s.poll with
    | .requested => some { s with poll := .answered (if ok then some (balanceOf s.unspent) else none) }
    | _ => none
  | .resume throws => match s.poll with
    | .answered balance => some (s.resume amount throws balance)
    | _ => none
  | .stop => some s.stop

def create (unspent : List Unspent) : State := { unspent }

def paid (events : List Event) : Nat :=
  (events.map fun
    | .pay satoshis _ => satoshis
    | _ => 0).sum

/-! ## What an event changes -/

theorem balanceOf_eq (utxos : List Unspent) : balanceOf utxos = (utxos.map (·.satoshis)).sum := by
  unfold balanceOf addressBalance
  induction utxos with
  | nil => rfl
  | cons u utxos ih =>
    rcases Nat.eq_zero_or_pos u.confirmations with h | h
    · simp [h] at ih ⊢
      omega
    · have hne : u.confirmations ≠ 0 := by omega
      simp [h, hne] at ih ⊢
      omega

theorem paid_concat (events : List Event) (e : Event) : paid (events ++ [e]) = paid events + paid [e] := by
  simp [paid]

section Steps

variable {amount : Nat} {s s' : State} {e : Event}

/-- The balance after something happened to the address: it rises by what is paid, if nothing is spent. -/
structure Moves (s s' : State) (e : Event) : Prop where
  eq : s' = { s with unspent := s'.unspent }
  le : balanceOf s'.unspent ≤ balanceOf s.unspent + paid [e]
  eq_of_unspent : (∀ i, e ≠ .spend i) → balanceOf s'.unspent = balanceOf s.unspent + paid [e]

theorem moves_pay (s : State) (satoshis confirmations : Nat) :
    Moves s { s with unspent := s.unspent ++ [⟨satoshis, confirmations⟩] } (.pay satoshis confirmations) := by
  have hsum : balanceOf (s.unspent ++ [⟨satoshis, confirmations⟩]) = balanceOf s.unspent + satoshis := by
    simp [balanceOf_eq]
  exact ⟨rfl, hsum.le, fun _ => hsum⟩

theorem moves_confirm (s : State) (i confirmations : Nat) :
    Moves s { s with unspent := s.unspent.modify i fun u => { u with confirmations } } (.confirm i confirmations) := by
  have hmap : ((s.unspent.modify i fun u => { u with confirmations }).map (·.satoshis)) = s.unspent.map (·.satoshis) := by
    refine List.ext_getElem? fun j => ?_
    simp only [List.getElem?_map, List.getElem?_modify]
    cases s.unspent[j]? with
    | none => rfl
    | some u => by_cases hij : i = j <;> simp [hij]
  have hsum : balanceOf (s.unspent.modify i fun u => { u with confirmations }) = balanceOf s.unspent := by
    rw [balanceOf_eq, hmap, balanceOf_eq]
  exact ⟨rfl, hsum.le, fun _ => hsum⟩

theorem moves_spend (s : State) (i : Nat) : Moves s { s with unspent := s.unspent.eraseIdx i } (.spend i) := by
  refine ⟨rfl, ?_, fun h => absurd rfl (h i)⟩
  have hsub := (List.eraseIdx_sublist s.unspent i).map (·.satoshis)
  have hle := hsub.sum_le_sum fun _ _ => Nat.zero_le _
  rw [balanceOf_eq, balanceOf_eq]
  exact Nat.le_add_right_of_le hle

/-- **What an event can do**: something happens to the address, the polling moves on without an answer, the gateway
answers, or `poll` goes on. -/
theorem step_cases (h : step amount s e = some s') :
    (Moves s s' e ∧ ∀ throws, e ≠ .resume throws) ∨
    ((∃ poll stopped, s' = { s with poll, stopped } ∧ ∀ v, poll = .answered (some v) ↔ s.poll = .answered (some v)) ∧
      paid [e] = 0 ∧ ∀ throws, e ≠ .resume throws) ∨
    (e = .answer true ∧ s.poll = .requested ∧ s' = { s with poll := .answered (some (balanceOf s.unspent)) }) ∨
    ∃ throws answer, e = .resume throws ∧ s.poll = .answered answer ∧ s' = s.resume amount throws answer := by
  cases e with
  | pay satoshis confirmations =>
    cases h
    exact .inl ⟨moves_pay s satoshis confirmations, fun _ => nofun⟩
  | confirm i confirmations =>
    cases h
    exact .inl ⟨moves_confirm s i confirmations, fun _ => nofun⟩
  | spend i =>
    simp only [step] at h
    split at h
    · cases h
      exact .inl ⟨moves_spend s i, fun _ => nofun⟩
    · cases h
  | timer =>
    simp only [step] at h
    split at h
    next hpoll =>
      cases h
      refine .inr (.inl ⟨⟨_, s.stopped, rfl, fun v => ?_⟩, rfl, fun _ => nofun⟩)
      rw [hpoll]
      split <;> exact ⟨nofun, nofun⟩
    · cases h
  | answer ok =>
    simp only [step] at h
    split at h
    next hpoll =>
      cases ok with
      | true =>
        cases h
        exact .inr (.inr (.inl ⟨rfl, hpoll, rfl⟩))
      | false =>
        cases h
        refine .inr (.inl ⟨⟨_, s.stopped, rfl, fun v => ?_⟩, rfl, fun _ => nofun⟩)
        rw [hpoll]
        exact ⟨nofun, nofun⟩
    · cases h
  | resume throws =>
    simp only [step] at h
    split at h
    next answer hpoll =>
      cases h
      exact .inr (.inr (.inr ⟨throws, answer, rfl, hpoll, rfl⟩))
    · cases h
  | stop =>
    cases h
    refine .inr (.inl ⟨⟨_, true, rfl, fun v => ?_⟩, rfl, fun _ => nofun⟩)
    split
    next hpoll =>
      rw [hpoll]
      exact ⟨nofun, nofun⟩
    · rfl

theorem resume_cases (amount : Nat) (throws : Bool) (s : State) (answer : Option Nat) :
    let s' := s.resume amount throws answer
    s'.unspent = s.unspent ∧ (∀ r, s'.poll ≠ .answered r) ∧
    ((s'.baseline = s.baseline ∧ s'.detected = s.detected ∧ s'.fired = s.fired ∧
        ∀ v, answer = some v → ∃ b, s.baseline = some b ∧ (s.detected = false → v < b + amount)) ∨
      (∃ v, answer = some v ∧ s.baseline = none ∧ s'.baseline = some v ∧ s'.detected = s.detected ∧ s'.fired = s.fired) ∨
      ∃ v b, answer = some v ∧ s.baseline = some b ∧ s.detected = false ∧ b + amount ≤ v ∧
        s'.baseline = some b ∧ s'.detected = true ∧ s'.fired = s.fired ++ [v]) := by
  have hpoll : ∀ (t : State) r, t.schedule.poll ≠ .answered r := by
    intro t r
    unfold State.schedule
    dsimp only
    split <;> exact nofun
  cases answer with
  | none => exact ⟨rfl, hpoll s, .inl ⟨rfl, rfl, rfl, nofun⟩⟩
  | some v =>
    simp only [State.resume]
    split
    next hnone => exact ⟨rfl, hpoll _, .inr (.inl ⟨v, rfl, hnone, rfl, rfl, rfl⟩)⟩
    next b hb =>
      split
      next hfires =>
        obtain ⟨hnot, hle⟩ := Bool.and_eq_true_iff.1 hfires
        have hle := of_decide_eq_true hle
        have hnot : s.detected = false := by simpa using hnot
        cases throws with
        | true => exact ⟨rfl, hpoll _, .inr (.inr ⟨v, b, rfl, hb, hnot, by omega, hb, rfl, rfl⟩)⟩
        | false => exact ⟨rfl, nofun, .inr (.inr ⟨v, b, rfl, hb, hnot, by omega, hb, rfl, rfl⟩)⟩
      next hquiet =>
        refine ⟨rfl, hpoll s, .inl ⟨rfl, rfl, rfl, fun v' hv => ⟨b, hb, fun hnot => ?_⟩⟩⟩
        cases hv
        simp only [hnot, Bool.not_false, Bool.true_and, decide_eq_true_eq] at hquiet
        omega

end Steps

/-! ## Runs -/

/-- The first successful reading of the balance: the baseline, or what will become the baseline. -/
def State.firstReading (s : State) : Option Nat :=
  match s.baseline, s.poll with
  | some b, _ => some b
  | none, .answered (some v) => some v
  | none, _ => none

theorem State.firstReading_eq_some {s : State} {b : Nat} : s.firstReading = some b ↔
    s.baseline = some b ∨ (s.baseline = none ∧ s.poll = .answered (some b)) := by
  unfold State.firstReading
  split
  next b' hb => simp [hb]
  next v hb hpoll => simp [hb, hpoll]
  next hb hpoll => simpa [hb] using fun h => hpoll b h

theorem firstReading_poll {s : State} {poll : Poll} {stopped : Bool}
    (h : ∀ v, poll = .answered (some v) ↔ s.poll = .answered (some v)) :
    { s with poll, stopped }.firstReading = s.firstReading :=
  Option.ext fun b => by
    rw [State.firstReading_eq_some, State.firstReading_eq_some, h]

theorem firstReading_resume {amount : Nat} {throws : Bool} {s : State} {answer : Option Nat}
    (h : s.poll = .answered answer) :
    (s.resume amount throws answer).firstReading = s.firstReading := by
  obtain ⟨-, hnot, hcases⟩ := resume_cases amount throws s answer
  refine Option.ext fun b => ?_
  rw [State.firstReading_eq_some, State.firstReading_eq_some, h]
  simp only [hnot, and_false, or_false]
  rcases hcases with ⟨hsame, -, -, hread⟩ | ⟨v, rfl, hnone, hv, -⟩ | ⟨v, b', rfl, hb', -, -, hsame, -⟩
  · rw [hsame]
    refine ⟨.inl, fun hb => hb.elim id fun ⟨hnone, hanswer⟩ => ?_⟩
    cases hanswer
    obtain ⟨b', hb', -⟩ := hread b rfl
    rw [hnone] at hb'
    cases hb'
  · rw [hv, hnone]
    simp
  · rw [hsame, hb']
    simp

structure Sound (amount : Nat) (events : List Event) (s : State) : Prop where
  fired : s.fired.length = if s.detected then 1 else 0
  balance_le : ∀ b, s.firstReading = some b → balanceOf s.unspent ≤ b + paid events
  answer_le : ∀ b v, s.baseline = some b → s.poll = .answered (some v) → v ≤ b + paid events
  enough : s.detected = true → amount ≤ paid events

section Runs

variable {amount : Nat} {s s' : State} {e : Event} {events : List Event}

theorem Sound.step (h : Sound amount events s) (he : step amount s e = some s') : Sound amount (events ++ [e]) s' := by
  rcases step_cases he with ⟨⟨heq, hle, -⟩, -⟩ | ⟨⟨poll, stopped, rfl, hkeep⟩, hpaid, -⟩ | ⟨rfl, hpoll, rfl⟩ |
    ⟨throws, answer, rfl, hpoll, rfl⟩
  · rw [heq]
    refine ⟨h.fired, fun b hb => ?_, fun b v hb hv => ?_, fun hd => ?_⟩ <;> rw [paid_concat]
    · have := h.balance_le b hb
      exact hle.trans (by omega)
    · have := h.answer_le b v hb hv
      omega
    · have := h.enough hd
      omega
  · refine ⟨h.fired, fun b hb => ?_, fun b v hb hv => ?_, fun hd => ?_⟩ <;> rw [paid_concat, hpaid, Nat.add_zero]
    · exact h.balance_le b (firstReading_poll hkeep ▸ hb)
    · exact h.answer_le b v hb ((hkeep v).1 hv)
    · exact h.enough hd
  · have hpaid : paid (events ++ [.answer true]) = paid events := by rw [paid_concat]; rfl
    refine ⟨h.fired, fun b hb => ?_, fun b v hb hv => ?_, fun hd => ?_⟩ <;> rw [hpaid]
    · rcases State.firstReading_eq_some.1 hb with hb | ⟨-, hb⟩
      · exact h.balance_le b (State.firstReading_eq_some.2 (.inl hb))
      · cases hb
        exact Nat.le_add_right _ _
    · cases hv
      exact h.balance_le b (State.firstReading_eq_some.2 (.inl hb))
    · exact h.enough hd
  · have hpaid : paid (events ++ [.resume throws]) = paid events := by rw [paid_concat]; rfl
    obtain ⟨hunspent, hnot, hcases⟩ := resume_cases amount throws s answer
    refine ⟨?_, fun b hb => ?_, fun b v _ hv => absurd hv (hnot _), ?_⟩
    · rcases hcases with ⟨-, hd, hf, -⟩ | ⟨v, -, -, -, hd, hf⟩ | ⟨v, b, -, -, hd, -, -, hd', hf⟩
      · rw [hd, hf, h.fired]
      · rw [hd, hf, h.fired]
      · rw [hd', hf, List.length_append, h.fired, hd]
        rfl
    · rw [hpaid, hunspent]
      exact h.balance_le b (firstReading_resume hpoll ▸ hb)
    · rw [hpaid]
      rcases hcases with ⟨-, hd, -, -⟩ | ⟨v, -, -, -, hd, -⟩ | ⟨v, b, rfl, hb, -, hle, -⟩
      · exact fun hdet => h.enough (hd ▸ hdet)
      · exact fun hdet => h.enough (hd ▸ hdet)
      · have := h.answer_le b v hb hpoll
        exact fun _ => by omega

/-- What holds besides if nothing is spent and nothing was paid before the first reading. -/
structure Exact (events : List Event) (s : State) : Prop where
  unread : s.firstReading = none → paid events = 0
  read : ∀ b, s.firstReading = some b → balanceOf s.unspent = b + paid events

theorem Exact.step (h : Exact events s) (he : step amount s e = some s') (hspend : ∀ i, e ≠ .spend i)
    (hpay : ∀ satoshis confirmations, e = .pay satoshis confirmations → s.firstReading ≠ none) :
    Exact (events ++ [e]) s' := by
  rcases step_cases he with ⟨⟨heq, -, hmove⟩, -⟩ | ⟨⟨poll, stopped, rfl, hkeep⟩, hpaid, -⟩ | ⟨rfl, hpoll, rfl⟩ |
    ⟨throws, answer, rfl, hpoll, rfl⟩
  · have hfirst : s'.firstReading = s.firstReading := by rw [heq]; rfl
    refine ⟨fun hnone => ?_, fun b hb => ?_⟩ <;> rw [paid_concat]
    · have hzero : paid [e] = 0 := by
        cases e with
        | pay satoshis confirmations => exact absurd (hfirst ▸ hnone) (hpay satoshis confirmations rfl)
        | _ => rfl
      rw [h.unread (hfirst ▸ hnone), hzero]
    · rw [hmove hspend, h.read b (hfirst ▸ hb), Nat.add_assoc]
  · have hfirst : { s with poll, stopped }.firstReading = s.firstReading := firstReading_poll hkeep
    refine ⟨fun hnone => ?_, fun b hb => ?_⟩ <;> rw [paid_concat, hpaid, Nat.add_zero]
    · exact h.unread (hfirst ▸ hnone)
    · exact h.read b (hfirst ▸ hb)
  · have hpaid : paid (events ++ [.answer true]) = paid events := by rw [paid_concat]; rfl
    refine ⟨fun hnone => ?_, fun b hb => ?_⟩ <;> rw [hpaid]
    · cases hbase : s.baseline <;> simp [State.firstReading, hbase] at hnone
    · rcases State.firstReading_eq_some.1 hb with hb | ⟨hnone, hb⟩
      · exact h.read b (State.firstReading_eq_some.2 (.inl hb))
      · cases hb
        have hunread : s.firstReading = none := by
          rw [State.firstReading, show s.baseline = none from hnone, hpoll]
        rw [h.unread hunread, Nat.add_zero]
  · have hpaid : paid (events ++ [.resume throws]) = paid events := by rw [paid_concat]; rfl
    have hunspent := (resume_cases amount throws s answer).1
    refine ⟨fun hnone => ?_, fun b hb => ?_⟩ <;> rw [hpaid]
    · exact h.unread (firstReading_resume hpoll ▸ hnone)
    · rw [hunspent]
      exact h.read b (firstReading_resume hpoll ▸ hb)

/-- The payment is reported, or will be as soon as `poll` goes on. -/
def Ready (amount : Nat) (s : State) : Prop :=
  s.fired ≠ [] ∨ ∃ v b, s.poll = .answered (some v) ∧ s.baseline = some b ∧ s.detected = false ∧ b + amount ≤ v

theorem Ready.step (h : Ready amount s) (he : Checkout.step amount s e = some s') :
    Ready amount s' ∧ ((∃ throws, e = .resume throws) → s'.fired ≠ []) := by
  rcases step_cases he with ⟨⟨heq, -, -⟩, hno⟩ | ⟨⟨poll, stopped, rfl, hkeep⟩, -, hno⟩ | ⟨rfl, hpoll, rfl⟩ |
    ⟨throws, answer, rfl, hpoll, rfl⟩
  · rw [heq]
    exact ⟨h, fun ⟨throws, hresume⟩ => absurd hresume (hno throws)⟩
  · refine ⟨h.imp id fun ⟨v, b, hv, hrest⟩ => ⟨v, b, (hkeep v).2 hv, hrest⟩,
      fun ⟨throws, hresume⟩ => absurd hresume (hno throws)⟩
  · refine ⟨.inl (h.resolve_right fun ⟨v, b, hv, _⟩ => ?_), fun ⟨_, hresume⟩ => nomatch hresume⟩
    rw [hpoll] at hv
    cases hv
  · have hfired : (s.resume amount throws answer).fired ≠ [] := by
      obtain ⟨-, -, hcases⟩ := resume_cases amount throws s answer
      rcases h with hfired | ⟨v, b, hv, hb, hnot, hle⟩
      · rcases hcases with ⟨-, -, hf, -⟩ | ⟨v, -, -, -, -, hf⟩ | ⟨v, b, -, -, -, -, -, -, hf⟩
        · rwa [hf]
        · rwa [hf]
        · rw [hf]
          exact List.append_ne_nil_of_right_ne_nil _ (List.cons_ne_nil _ _)
      · rw [hpoll] at hv
        cases hv
        rcases hcases with ⟨-, -, -, hquiet⟩ | ⟨v', -, hnone, -⟩ | ⟨v', b', -, -, -, -, -, -, hf⟩
        · obtain ⟨b', hb', hlt⟩ := hquiet v rfl
          rw [hb] at hb'
          cases hb'
          have := hlt hnot
          omega
        · rw [hb] at hnone
          cases hnone
        · rw [hf]
          exact List.append_ne_nil_of_right_ne_nil _ (List.cons_ne_nil _ _)
    exact ⟨.inl hfired, fun _ => hfired⟩

end Runs

/-! ## Sessions -/

structure Session where
  amount : Nat
  amount_pos : 0 < amount
  unspent : List Unspent
  events : List Event
  final : State
  run_eq : run (step amount) (create unspent) events = some final

namespace Session

variable (session : Session)

/-- `onDetected` is called at most once, and only after the amount was paid. -/
def Faithful : Prop :=
  session.final.fired.length ≤ 1 ∧ (session.final.fired ≠ [] → session.amount ≤ paid session.events)

/-- If the amount was paid and nothing was spent, `onDetected` was called after the next successful poll. -/
def Reports : Prop :=
  ∀ before after throws, session.events = before ++ .answer true :: (after ++ [.resume throws]) →
    (∀ i, .spend i ∉ session.events) → session.amount ≤ paid before → session.final.fired ≠ []

/-- Payments are only made after the balance was read for the first time. -/
def PaidAfterReading : Prop :=
  ∀ before satoshis confirmations after s, session.events = before ++ .pay satoshis confirmations :: after →
    run (step session.amount) (create session.unspent) before = some s → s.firstReading ≠ none

variable {session} {s : State}

theorem sound_create (amount : Nat) (unspent : List Unspent) : Sound amount [] (create unspent) where
  fired := rfl
  balance_le b hb := by cases hb
  answer_le b v hb := by cases hb
  enough hd := by cases hd

theorem sound_of_run {amount : Nat} {unspent : List Unspent} {events : List Event}
    (h : run (step amount) (create unspent) events = some s) : Sound amount events s :=
  invariant (sound_create amount unspent) (fun _ _ _ _ _ h he => h.step he) h

theorem faithful : session.Faithful := by
  have h := sound_of_run session.run_eq
  refine ⟨?_, fun hfired => h.enough ?_⟩
  · rw [h.fired]
    split <;> decide
  · by_contra hnot
    refine hfired (List.eq_nil_of_length_eq_zero ?_)
    rw [h.fired, if_neg hnot]

theorem exact_of_run (hpaid : session.PaidAfterReading) (hspend : ∀ i, .spend i ∉ session.events)
    {before after : List Event} (hevents : session.events = before ++ after)
    (h : run (step session.amount) (create session.unspent) before = some s) : Exact before s := by
  have hprefix : before <+: session.events → Exact before s := by
    refine invariant (P := fun events s => events <+: session.events → Exact events s) ?_ ?_ h
    · exact fun _ => ⟨fun _ => rfl, nofun⟩
    · rintro events mid e mid' hrun hexact he ⟨rest, hrest⟩
      rw [List.append_assoc, List.singleton_append] at hrest
      refine (hexact ⟨e :: rest, hrest⟩).step he ?_ ?_
      · rintro i rfl
        exact hspend i (hrest ▸ List.mem_append_right _ List.mem_cons_self)
      · rintro satoshis confirmations rfl
        exact hpaid events satoshis confirmations rest mid hrest.symm hrun
  exact hprefix ⟨after, hevents.symm⟩

theorem reports (hpaid : session.PaidAfterReading) : session.Reports := by
  intro before after throws hevents hspend hamount
  have hrun := session.run_eq
  rw [hevents, run_append] at hrun
  obtain ⟨s, hs, hrun⟩ := hrun
  obtain ⟨s1, hs1, hrun⟩ := run_cons.1 hrun
  obtain ⟨s2, hs2, hlast⟩ := run_concat.1 hrun
  have hexact := exact_of_run hpaid hspend hevents hs
  have hready : Ready session.amount s1 := by
    simp only [step] at hs1
    split at hs1
    next hpoll =>
      cases hs1
      cases hdetected : s.detected with
      | true =>
        have hfired := (sound_of_run hs).fired
        rw [hdetected, if_pos rfl] at hfired
        exact .inl (List.ne_nil_of_length_eq_add_one hfired)
      | false =>
        cases hfirst : s.firstReading with
        | none =>
          have hpos := session.amount_pos
          rw [hexact.unread hfirst] at hamount
          omega
        | some b =>
          have hread := hexact.read b hfirst
          have hbaseline := (State.firstReading_eq_some.1 hfirst).resolve_right fun h => by
            rw [hpoll] at h
            cases h.2
          exact .inr ⟨_, b, rfl, hbaseline, rfl, show _ ≤ balanceOf s.unspent by omega⟩
    · cases hs1
  have hready2 : Ready session.amount s2 :=
    invariant (P := fun _ s => Ready session.amount s) hready (fun _ _ _ _ _ h he => (h.step he).1) hs2
  exact (hready2.step hlast).2 ⟨throws, rfl⟩

end Session

/-- **What the widget reports.** It never reports a payment twice or one that was not made; and it reports a payment
that was made, provided that nothing was paid before it had read the balance for the first time. -/
theorem checkout_reports_payments (session : Session) :
    session.Faithful ∧ (session.PaidAfterReading → session.Reports) :=
  ⟨session.faithful, session.reports⟩

def earlyPayment : Session where
  amount := 100
  amount_pos := by decide
  unspent := []
  events := [.pay 100 0, .answer true, .resume false, .timer, .answer true, .resume false]
  final := { unspent := [⟨100, 0⟩], baseline := some 100, poll := .scheduled }
  run_eq := by decide

/-- **A payment before the first reading is not reported**: it is part of the baseline. -/
theorem earlyPayment_not_reported : ¬ earlyPayment.Reports := by
  intro h
  refine h [.pay 100 0, .answer true, .resume false, .timer] [] false rfl ?_ (by decide) rfl
  intro i hi
  simp [earlyPayment] at hi

end CodexaCoin.Checkout
