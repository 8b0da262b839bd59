import Mathlib

/-!
# Processes over a shared state

Programs perform operations one at a time on a shared state, with inputs from outside; the processes of a pool take
their steps in any order.
-/

namespace Process

/-! ## Programs -/

/-- A program that ends with a result or an exception, or performs an operation and goes on with its result. -/
inductive Prog (Op : Type) (Res : Op → Type) (ε α : Type) where
  | ret (a : α)
  | raise (e : ε)
  | op (o : Op) (k : Res o → Prog Op Res ε α)

namespace Prog

variable {Op : Type} {Res : Op → Type} {ε α β σ I : Type}

def bind : Prog Op Res ε α → (α → Prog Op Res ε β) → Prog Op Res ε β
  | ret a, f => f a
  | raise e, _ => raise e
  | op o k, f => op o fun r => (k r).bind f

instance : Monad (Prog Op Res ε) where
  pure := ret
  bind := bind

def perform (o : Op) : Prog Op Res ε (Res o) := op o ret

def live : Prog Op Res ε α → Bool
  | op _ _ => true
  | _ => false

/-- The program has ended with a result. -/
def returned : Prog Op Res ε α → Bool
  | ret _ => true
  | _ => false

/-- The operation that comes next. -/
def next : Prog Op Res ε α → Option Op
  | op o _ => some o
  | _ => none

/-- One step on the state, with an input from outside. -/
def step (sem : (o : Op) → I → σ → Option (Res o × σ)) (x : I) : Prog Op Res ε α → σ → Option (Prog Op Res ε α × σ)
  | op o k, s => (sem o x s).map fun r => (k r.1, r.2)
  | _, _ => none

/-- Every operation of the program is one of `S`. -/
def Within (S : Op → Prop) : Prog Op Res ε α → Prop
  | op o k => S o ∧ ∀ r, Within S (k r)
  | _ => True

section Within

variable {S : Op → Prop} {p : Prog Op Res ε α}

theorem Within.bind {f : α → Prog Op Res ε β} (h : p.Within S) (hf : ∀ a, (f a).Within S) : (p >>= f).Within S := by
  induction p with
  | ret a => exact hf a
  | raise e => trivial
  | op o k ih => exact ⟨h.1, fun r => ih r (h.2 r)⟩

theorem Within.op {o : Op} {f : Res o → Prog Op Res ε β} (h : S o) (hf : ∀ r, (f r).Within S) :
    ((perform o : Prog Op Res ε (Res o)) >>= f).Within S :=
  ⟨h, hf⟩

theorem Within.ite {c : Prop} {_ : Decidable c} {q : Prog Op Res ε α} (hp : c → p.Within S) (hq : ¬c → q.Within S) :
    (if c then p else q).Within S := by
  split
  · next hc => exact hp hc
  · next hc => exact hq hc

theorem Within.forM {l : List β} {f : β → Prog Op Res ε PUnit} (hf : ∀ b ∈ l, (f b).Within S) :
    (l.forM f).Within S := by
  induction l with
  | nil => trivial
  | cons b l ih =>
    exact (hf b List.mem_cons_self).bind fun _ => ih fun b' hb' => hf b' (List.mem_cons_of_mem b hb')

theorem Within.true (p : Prog Op Res ε α) : p.Within fun _ => True := by
  induction p with
  | ret a => trivial
  | raise e => trivial
  | op o k ih => exact ⟨trivial, ih⟩

theorem Within.step {sem : (o : Op) → I → σ → Option (Res o × σ)} {x : I} {s s' : σ} {p' : Prog Op Res ε α}
    (h : p.Within S) (hstep : p.step sem x s = some (p', s')) :
    (∃ o r, p.next = some o ∧ S o ∧ sem o x s = some (r, s')) ∧ p'.Within S := by
  cases p with
  | ret a => cases hstep
  | raise e => cases hstep
  | op o k =>
    obtain ⟨⟨r, s1⟩, hsem, heq⟩ := Option.map_eq_some_iff.1 hstep
    cases heq
    exact ⟨⟨o, r, rfl, h.1, hsem⟩, h.2 r⟩

end Within

/-! ## Programs among others -/

/-- What the operations do, when they may be performed, what the others may do in between, and what is known whenever an
operation is about to be performed. -/
structure Setting (Op : Type) (Res : Op → Type) (σ I : Type) where
  sem : (o : Op) → I → σ → Option (Res o × σ)
  may : Op → I → σ → Prop := fun _ _ _ => True
  pre : Op → σ → Prop := fun _ _ => True
  rely : σ → σ → Prop
  rely_refl : ∀ s, rely s s
  rely_trans : ∀ {s1 s2 s3}, rely s1 s2 → rely s2 s3 → rely s1 s3

/-- From `s` the program meets the preconditions of its operations and ends in `Q`, or in `E` after an exception. -/
def Holds (S : Setting Op Res σ I) (Q : α → σ → Prop) (E : ε → σ → Prop) : Prog Op Res ε α → σ → Prop
  | ret a, s => ∀ s', S.rely s s' → Q a s'
  | raise e, s => ∀ s', S.rely s s' → E e s'
  | op o k, s => ∀ s', S.rely s s' → S.pre o s' ∧
      ∀ x, S.may o x s' → ∀ r s'', S.sem o x s' = some (r, s'') → Holds S Q E (k r) s''

section Holds

variable {S : Setting Op Res σ I} {Q : α → σ → Prop} {E : ε → σ → Prop} {p : Prog Op Res ε α} {s s' : σ} {o : Op}
  {p' : Prog Op Res ε α}

theorem Holds.stable (h : p.Holds S Q E s) (hs : S.rely s s') : p.Holds S Q E s' := by
  cases p with
  | ret a => exact fun s'' hs' => h s'' (S.rely_trans hs hs')
  | raise e => exact fun s'' hs' => h s'' (S.rely_trans hs hs')
  | op o k => exact fun s'' hs' => h s'' (S.rely_trans hs hs')

theorem Holds.mono {Q' : α → σ → Prop} {E' : ε → σ → Prop} (h : p.Holds S Q E s) (hQ : ∀ a s, Q a s → Q' a s)
    (hE : ∀ e s, E e s → E' e s) : p.Holds S Q' E' s := by
  induction p generalizing s with
  | ret a => exact fun s' hs => hQ a s' (h s' hs)
  | raise e => exact fun s' hs => hE e s' (h s' hs)
  | op o k ih =>
    intro s' hs
    obtain ⟨hpre, hrest⟩ := h s' hs
    exact ⟨hpre, fun x hx r s'' hsem => ih r (hrest x hx r s'' hsem)⟩

theorem Holds.bind {f : α → Prog Op Res ε β} {Q : β → σ → Prop} (h : p.Holds S (fun a s => (f a).Holds S Q E s) E s) :
    (p >>= f).Holds S Q E s := by
  induction p generalizing s with
  | ret a => exact h s (S.rely_refl s)
  | raise e => exact h
  | op o k ih =>
    intro s' hs
    obtain ⟨hpre, hrest⟩ := h s' hs
    exact ⟨hpre, fun x hx r s'' hsem => ih r (hrest x hx r s'' hsem)⟩

theorem Holds.op {f : Res o → Prog Op Res ε β} {Q : β → σ → Prop}
    (h : ∀ s', S.rely s s' → S.pre o s' ∧ ∀ x, S.may o x s' → ∀ r s'', S.sem o x s' = some (r, s'') →
      (f r).Holds S Q E s'') :
    ((perform o : Prog Op Res ε (Res o)) >>= f).Holds S Q E s := h

theorem Holds.ite {c : Prop} {_ : Decidable c} {q : Prog Op Res ε α} (hp : c → p.Holds S Q E s)
    (hq : ¬c → q.Holds S Q E s) : (if c then p else q).Holds S Q E s := by
  split
  · next hc => exact hp hc
  · next hc => exact hq hc

theorem Holds.forM {l : List β} {f : β → Prog Op Res ε PUnit} {J : List β → σ → Prop}
    (hstable : ∀ l s s', J l s → S.rely s s' → J l s')
    (hf : ∀ b l s, J (b :: l) s → (f b).Holds S (fun _ s => J l s) E s) (h : J l s) :
    (l.forM f).Holds S (fun _ s => J [] s) E s := by
  induction l generalizing s with
  | nil => exact fun s' hs => hstable [] s s' h hs
  | cons b l ih => exact Holds.bind ((hf b l s h).mono (fun _ s hs => ih hs) fun _ _ h => h)

theorem Holds.of_within {O : Op → Prop} {J : σ → Prop} (hp : p.Within O) (hstable : ∀ s s', J s → S.rely s s' → J s')
    (hO : ∀ o s, O o → J s → S.pre o s ∧ ∀ x, S.may o x s → ∀ r s', S.sem o x s = some (r, s') → J s') (h : J s) :
    p.Holds S (fun _ => J) (fun _ => J) s := by
  induction p generalizing s with
  | ret a => exact fun s' hs => hstable s s' h hs
  | raise e => exact fun s' hs => hstable s s' h hs
  | op o k ih =>
    intro s' hs
    obtain ⟨hpre, hkeep⟩ := hO o s' hp.1 (hstable s s' h hs)
    exact ⟨hpre, fun x hx r s'' hsem => ih r (hp.2 r) (hkeep x hx r s'' hsem)⟩

theorem Holds.step {x : I} (h : p.Holds S Q E s) (hmay : ∀ o, p.next = some o → S.may o x s)
    (hstep : p.step S.sem x s = some (p', s')) : p'.Holds S Q E s' := by
  cases p with
  | ret a => cases hstep
  | raise e => cases hstep
  | op o k =>
    obtain ⟨⟨r, s1⟩, hsem, heq⟩ := Option.map_eq_some_iff.1 hstep
    cases heq
    exact (h s (S.rely_refl s)).2 x (hmay o rfl) r _ hsem

theorem Holds.pre_of_next (h : p.Holds S Q E s) (hp : p.next = some o) : S.pre o s := by
  cases p with
  | ret a => cases hp
  | raise e => cases hp
  | op o' k =>
    cases hp
    exact (h s (S.rely_refl s)).1

theorem Holds.ended {J : σ → Prop} (h : p.Holds S (fun _ => J) (fun _ => J) s) (hp : p.live = false) : J s := by
  cases p with
  | ret a => exact h s (S.rely_refl s)
  | raise e => exact h s (S.rely_refl s)
  | op o k => cases hp

theorem live_of_step {sem : (o : Op) → I → σ → Option (Res o × σ)} {x : I}
    (h : p.step sem x s = some (p', s')) : p.live = true := by
  cases p with
  | ret a => cases h
  | raise e => cases h
  | op o k => rfl

theorem next_of_live (h : p.live = true) : ∃ o, p.next = some o := by
  cases p with
  | ret a => cases h
  | raise e => cases h
  | op o k => exact ⟨o, rfl⟩

end Holds

end Prog

/-! ## Pools -/

/-- The operations, the programs of the requests and what else can happen to the state. -/
structure System (Op : Type) (Res : Op → Type) (ε σ I T X : Type) where
  sem : (o : Op) → I → σ → Option (Res o × σ)
  start : T → Prog Op Res ε Unit
  ext : X → σ → Option σ

/-- What happens next: a request comes in, a process takes a step or is killed, or something happens outside. -/
inductive Event (I T X : Type) where
  | spawn (t : T)
  | step (i : Nat) (x : I)
  | kill (i : Nat)
  | ext (e : X)

/-- The state and the processes, each with its request. -/
structure Pool (Op : Type) (Res : Op → Type) (ε σ T : Type) where
  state : σ
  procs : List (T × Prog Op Res ε Unit) := []

section Pools

variable {Op : Type} {Res : Op → Type} {ε σ I T X : Type} (Y : System Op Res ε σ I T X)

namespace Pool

/-- A live process for a request in `t`. -/
def busy (P : Pool Op Res ε σ T) (t : T → Bool) : Bool := P.procs.any fun p => t p.1 && p.2.live

def next (P : Pool Op Res ε σ T) (i : Nat) : Option Op := P.procs[i]?.bind fun p => p.2.next

def exec (P : Pool Op Res ε σ T) : Event I T X → Option (Pool Op Res ε σ T)
  | .spawn t => some { P with procs := P.procs ++ [(t, Y.start t)] }
  | .step i x => P.procs[i]?.bind fun p =>
      (p.2.step Y.sem x P.state).map fun r => { state := r.2, procs := P.procs.set i (p.1, r.1) }
  | .kill i => P.procs[i]?.bind fun p =>
      if p.2.live then some { P with procs := P.procs.set i (p.1, .ret ()) } else none
  | .ext e => (Y.ext e P.state).map fun s => { P with state := s }

/-- A run of events that are all allowed by `A`. -/
def run (A : Pool Op Res ε σ T → Event I T X → Bool) (P : Pool Op Res ε σ T) :
    List (Event I T X) → Option (Pool Op Res ε σ T)
  | [] => some P
  | e :: es => if A P e then (P.exec Y e).bind fun P' => run A P' es else none

end Pool

/-- The pools that runs of allowed events reach from a state without processes. -/
inductive Reachable (A : Pool Op Res ε σ T → Event I T X → Bool) (s0 : σ) : Pool Op Res ε σ T → Prop
  | init : Reachable A s0 { state := s0 }
  | next {P P' : Pool Op Res ε σ T} {e : Event I T X} (h : Reachable A s0 P) (hA : A P e = true)
      (hexec : P.exec Y e = some P') : Reachable A s0 P'

variable {Y} {A : Pool Op Res ε σ T → Event I T X → Bool} {s0 : σ} {P P' : Pool Op Res ε σ T} {es : List (Event I T X)}
  {A' : Pool Op Res ε σ T → Event I T X → Bool} {ops : T → Op → Prop} {S : Prog.Setting Op Res σ I}
    {Q : Unit → σ → Prop} {E : ε → σ → Prop} {xs : List I}

theorem Reachable.run (h : Reachable Y A s0 P) (hrun : P.run Y A es = some P') : Reachable Y A s0 P' := by
  induction es generalizing P with
  | nil =>
    cases hrun
    exact h
  | cons e es ih =>
    rw [Pool.run] at hrun
    split at hrun
    · next hA =>
      obtain ⟨P1, hexec, hrun⟩ := Option.bind_eq_some_iff.1 hrun
      exact ih (h.next hA hexec) hrun
    · cases hrun

theorem Reachable.mono (h : Reachable Y A s0 P)
    (hA : ∀ P e, A P e = true → A' P e = true) : Reachable Y A' s0 P := by
  induction h with
  | init => exact .init
  | next _ hP hexec ih => exact ih.next (hA _ _ hP) hexec

theorem Pool.run_mono (hA : ∀ P e, A P e = true → A' P e = true)
    (hrun : P.run Y A es = some P') : P.run Y A' es = some P' := by
  induction es generalizing P with
  | nil => exact hrun
  | cons e es ih =>
    rw [Pool.run] at hrun ⊢
    split at hrun
    · next hP =>
      obtain ⟨P1, hexec, hrun⟩ := Option.bind_eq_some_iff.1 hrun
      rw [if_pos (hA P e hP), hexec]
      exact ih hrun
    · cases hrun

theorem Reachable.exists_of_run {p : Pool Op Res ε σ T → Prop} [DecidablePred p] (es : List (Event I T X))
    (h : (Pool.run Y A { state := s0 } es).any (fun P => decide (p P)) = true) : ∃ P, Reachable Y A s0 P ∧ p P := by
  obtain ⟨P, hP, hp⟩ := (Option.any_eq_true _ _).1 h
  exact ⟨P, Reachable.init.run hP, of_decide_eq_true hp⟩

/-- **Invariants of runs.** -/
theorem Reachable.invariant {J : Pool Op Res ε σ T → Prop} (h : Reachable Y A s0 P) (hinit : J { state := s0 })
    (hstep : ∀ P P' e, J P → A P e = true → P.exec Y e = some P' → J P') : J P := by
  induction h with
  | init => exact hinit
  | next _ hA hexec ih => exact hstep _ _ _ ih hA hexec

theorem Pool.exec_step {i : Nat} {x : I} (h : P.exec Y (.step i x) = some P') :
    ∃ t p p', P.procs[i]? = some (t, p) ∧ p.step Y.sem x P.state = some (p', P'.state) ∧
      P'.procs = P.procs.set i (t, p') := by
  obtain ⟨⟨t, p⟩, hi, h⟩ := Option.bind_eq_some_iff.1 h
  obtain ⟨⟨p', s'⟩, hstep, rfl⟩ := Option.map_eq_some_iff.1 h
  exact ⟨t, p, p', hi, hstep, rfl⟩

theorem Pool.exec_kill {i : Nat} (h : P.exec Y (.kill i : Event I T X) = some P') :
    ∃ t p, P.procs[i]? = some (t, p) ∧ p.live = true ∧ P' = { P with procs := P.procs.set i (t, .ret ()) } := by
  obtain ⟨⟨t, p⟩, hi, h⟩ := Option.bind_eq_some_iff.1 h
  split at h
  · next hlive =>
    cases h
    exact ⟨t, p, hi, hlive, rfl⟩
  · cases h

theorem Pool.getElem?_set {i j : Nat} {t : T} {q : Prog Op Res ε Unit} {procs : List (T × Prog Op Res ε Unit)}
    {p : T × Prog Op Res ε Unit} (h : (procs.set i (t, q))[j]? = some p) :
    (j = i ∧ p = (t, q)) ∨ (j ≠ i ∧ procs[j]? = some p) := by
  by_cases hj : i = j
  · subst hj
    rw [List.getElem?_set_self'] at h
    obtain ⟨_, _, rfl⟩ := Option.map_eq_some_iff.1 h
    exact .inl ⟨rfl, rfl⟩
  · rw [List.getElem?_set_ne hj] at h
    exact .inr ⟨Ne.symm hj, h⟩

theorem Pool.busy_eq_false {t : T → Bool} : P.busy t = false ↔
    ∀ (j : Nat) (q : T × Prog Op Res ε Unit), P.procs[j]? = some q → t q.1 = true → q.2.live = false := by
  simp only [Pool.busy, List.any_eq_false, List.mem_iff_getElem?, Bool.and_eq_true, not_and, Bool.not_eq_true]
  exact ⟨fun h j q hq => h q ⟨j, hq⟩, fun h q ⟨j, hq⟩ => h j q hq⟩

/-! ## The operations of each process -/

def Pool.Within (ops : T → Op → Prop) (P : Pool Op Res ε σ T) : Prop :=
  ∀ (j : Nat) (q : T × Prog Op Res ε Unit), P.procs[j]? = some q → q.2.Within (ops q.1)

theorem Pool.Within.set {i : Nat} {t : T} {p : Prog Op Res ε Unit} {s : σ} (h : P.Within ops)
    (hp : p.Within (ops t)) : Pool.Within ops { state := s, procs := P.procs.set i (t, p) } := by
  intro j q hq
  rcases Pool.getElem?_set hq with ⟨-, rfl⟩ | ⟨-, hq⟩
  · exact hp
  · exact h j q hq

theorem Pool.Within.exec {e : Event I T X} (h : P.Within ops)
    (hstart : ∀ t, (Y.start t).Within (ops t)) (hexec : P.exec Y e = some P') : P'.Within ops := by
  cases e with
  | spawn t =>
    cases hexec
    intro j q hq
    rw [List.getElem?_append] at hq
    split at hq
    · exact h j q hq
    · obtain rfl : q = (t, Y.start t) := by simpa using List.mem_of_getElem? hq
      exact hstart t
  | step i x =>
    obtain ⟨t, p, p', hi, hstep, hprocs⟩ := Pool.exec_step hexec
    obtain ⟨s', procs'⟩ := P'
    cases hprocs
    exact h.set ((h i (t, p) hi).step hstep).2
  | kill i =>
    obtain ⟨t, p, -, -, rfl⟩ := Pool.exec_kill hexec
    exact h.set trivial
  | ext e =>
    obtain ⟨s', -, rfl⟩ := Option.map_eq_some_iff.1 hexec
    exact h

theorem Reachable.state_invariant {J : σ → Prop} (h : Reachable Y A s0 P) (hinit : J s0)
    (hsem : ∀ o x s r s', J s → Y.sem o x s = some (r, s') → J s') (hext : ∀ e s s', J s → Y.ext e s = some s' → J s') :
    J P.state := by
  refine h.invariant (J := fun P => J P.state) hinit ?_
  intro P P' e hP _ hexec
  cases e with
  | spawn t =>
    cases hexec
    exact hP
  | step i x =>
    obtain ⟨t, p, p', -, hstep, -⟩ := Pool.exec_step hexec
    have hwithin : p.Within fun _ => True := Prog.Within.true p
    obtain ⟨⟨o, r, -, -, hs⟩, -⟩ := hwithin.step hstep
    exact hsem o x P.state r P'.state hP hs
  | kill i =>
    obtain ⟨t, p, -, -, rfl⟩ := Pool.exec_kill hexec
    exact hP
  | ext e =>
    obtain ⟨s', hs', rfl⟩ := Option.map_eq_some_iff.1 hexec
    exact hext e P.state s' hP hs'

/-! ## Runs of processes that know each other -/

/-- **The rule of cooperation.** Every process meets the preconditions of its operations, as long as all operations that
meet theirs are something that the processes rely on. -/
theorem Reachable.cooperative {J : σ → Prop} (h : Reachable Y A s0 P)
    (hsem : S.sem = Y.sem) (hinit : J s0)
    (hstart : ∀ P t, A P (.spawn t) = true → J P.state →
      (Y.start t).Holds S (fun _ _ => True) (fun _ _ => True) P.state)
    (hmay : ∀ P i x o, A P (.step i x) = true → P.next i = some o → S.may o x P.state)
    (hstep : ∀ P i x o r s', A P (.step i x) = true → P.next i = some o → J P.state → S.pre o P.state →
      Y.sem o x P.state = some (r, s') → S.rely P.state s' ∧ J s')
    (hext : ∀ P e s', A P (.ext e) = true → J P.state → Y.ext e P.state = some s' → S.rely P.state s' ∧ J s') :
    J P.state ∧ ∀ (j : Nat) (q : T × Prog Op Res ε Unit), P.procs[j]? = some q →
      q.2.Holds S (fun _ _ => True) (fun _ _ => True) P.state := by
  refine h.invariant (J := fun P => J P.state ∧ ∀ (j : Nat) (q : T × Prog Op Res ε Unit), P.procs[j]? = some q →
    q.2.Holds S (fun _ _ => True) (fun _ _ => True) P.state) ?_ ?_
  · refine ⟨hinit, ?_⟩
    intro j q hq
    cases hq
  rintro P P' e ⟨hJ, hholds⟩ hA hexec
  cases e with
  | spawn t =>
    cases hexec
    refine ⟨hJ, ?_⟩
    intro j q hq
    rw [List.getElem?_append] at hq
    split at hq
    · exact hholds j q hq
    · obtain rfl : q = (t, Y.start t) := by simpa using List.mem_of_getElem? hq
      exact hstart P t hA hJ
  | step i x =>
    obtain ⟨t, p, p', hi, hrun, hprocs⟩ := Pool.exec_step hexec
    obtain ⟨⟨o, r, ho, -, hsem'⟩, -⟩ := (Prog.Within.true p).step hrun
    have hnext : P.next i = some o := by rw [Pool.next, hi]; exact ho
    have hp := hholds i (t, p) hi
    obtain ⟨hrely, hJ'⟩ := hstep P i x o r P'.state hA hnext hJ (hp.pre_of_next ho) hsem'
    refine ⟨hJ', ?_⟩
    intro j q hq
    rw [hprocs] at hq
    rcases Pool.getElem?_set hq with ⟨-, rfl⟩ | ⟨-, hq⟩
    · refine hp.step (fun o' ho' => ?_) (hsem ▸ hrun)
      cases ho.symm.trans ho'
      exact hmay P i x o hA hnext
    · exact (hholds j q hq).stable hrely
  | kill i =>
    obtain ⟨t, p, -, -, rfl⟩ := Pool.exec_kill hexec
    refine ⟨hJ, ?_⟩
    intro j q hq
    rcases Pool.getElem?_set hq with ⟨-, rfl⟩ | ⟨-, hq⟩
    · exact fun _ _ => trivial
    · exact hholds j q hq
  | ext e =>
    obtain ⟨s', hs', rfl⟩ := Option.map_eq_some_iff.1 hexec
    obtain ⟨hrely, hJ'⟩ := hext P e s' hA hJ hs'
    exact ⟨hJ', fun j q hq => (hholds j q hq).stable hrely⟩

/-! ## A process that runs alone -/

theorem Pool.run_steps {i : Nat} {t : T}
    {p : Prog Op Res ε Unit} (hsem : S.sem = Y.sem)
    (hmay : ∀ P x o, A P (.step i x) = true → P.next i = some o → S.may o x P.state) (hi : P.procs[i]? = some (t, p))
    (hp : p.Holds S Q E P.state) (hrun : P.run Y A (xs.map (.step i)) = some P') :
    ∃ p', P'.procs[i]? = some (t, p') ∧ p'.Holds S Q E P'.state := by
  induction xs generalizing P p with
  | nil =>
    cases hrun
    exact ⟨p, hi, hp⟩
  | cons x xs ih =>
    rw [List.map_cons, Pool.run] at hrun
    split at hrun
    · next hA =>
      obtain ⟨P1, hexec, hrun⟩ := Option.bind_eq_some_iff.1 hrun
      obtain ⟨t1, p1, p', hi1, hstep, hprocs⟩ := Pool.exec_step hexec
      cases hi.symm.trans hi1
      have hlen := (List.getElem?_eq_some_iff.1 hi).1
      refine ih (P := P1) (p := p') ?_ ?_ hrun
      · rw [hprocs]
        exact List.getElem?_set_self hlen
      · refine hp.step (fun o ho => hmay P x o hA ?_) (hsem ▸ hstep)
        rw [Pool.next, hi]
        exact ho
    · cases hrun

/-- **A request that runs alone to its end** ends as its triple says. -/
theorem Pool.run_alone {t : T}
    (hsem : S.sem = Y.sem)
    (hmay : ∀ P1 x o, A P1 (.step P.procs.length x) = true → P1.next P.procs.length = some o → S.may o x P1.state)
    (hstart : (Y.start t).Holds S Q E P.state)
    (hrun : P.run Y A (.spawn t :: xs.map (.step P.procs.length)) = some P')
    (hdone : (P'.procs[P.procs.length]?.any fun p => p.2.returned) = true) : Q () P'.state := by
  rw [Pool.run] at hrun
  split at hrun
  · obtain ⟨P1, hexec, hrun⟩ := Option.bind_eq_some_iff.1 hrun
    cases hexec
    have hnew : (P.procs ++ [(t, Y.start t)])[P.procs.length]? = some (t, Y.start t) := by simp
    obtain ⟨p, hp, hholds⟩ :=
      Pool.run_steps (P := { P with procs := P.procs ++ [(t, Y.start t)] }) hsem hmay hnew hstart hrun
    rw [hp] at hdone
    cases p with
    | ret a => exact hholds _ (S.rely_refl _)
    | raise e => cases hdone
    | op o k => cases hdone
  · cases hrun

/-! ## Runs without overlap -/

/-- One process of the class is live and on its way to `J`, or none is live and `J` holds. -/
def OneAtATime (own : T → Bool) (S : Prog.Setting Op Res σ I) (J : σ → Prop) (P : Pool Op Res ε σ T) : Prop :=
  (P.busy own = false ∧ J P.state) ∨
    ∃ (i : Nat) (t : T) (p : Prog Op Res ε Unit), P.procs[i]? = some (t, p) ∧ own t = true ∧ p.live = true ∧
      p.Holds S (fun _ => J) (fun _ => J) P.state ∧
      ∀ (j : Nat) (q : T × Prog Op Res ε Unit), j ≠ i → P.procs[j]? = some q → own q.1 = true → q.2.live = false

/-- Requests of the class `own` come in one at a time, their programs keep their triples, and whatever else is allowed to
happen is something they rely on, or keeps the invariant while none of them is live. -/
structure Exclusive (Y : System Op Res ε σ I T X) (A : Pool Op Res ε σ T → Event I T X → Bool) (own : T → Bool)
    (ops : T → Op → Prop) (S : Prog.Setting Op Res σ I) (J : σ → Prop) : Prop where
  sem : S.sem = Y.sem
  stable : ∀ s s', J s → S.rely s s' → J s'
  within : ∀ t, (Y.start t).Within (ops t)
  alone : ∀ P t, A P (.spawn t) = true → own t = true → P.busy own = false
  start : ∀ P t, A P (.spawn t) = true → own t = true → J P.state →
    (Y.start t).Holds S (fun _ => J) (fun _ => J) P.state
  may : ∀ P i x t p o, A P (.step i x) = true → P.procs[i]? = some (t, p) → own t = true → p.next = some o →
    S.may o x P.state
  others : ∀ P i x t p o r s', A P (.step i x) = true → P.procs[i]? = some (t, p) → own t = false → p.next = some o →
    ops t o → Y.sem o x P.state = some (r, s') →
    (P.busy own = true → S.rely P.state s') ∧ (P.busy own = false → J P.state → J s')
  kill : ∀ P i t p o, A P (.kill i) = true → P.procs[i]? = some (t, p) → own t = true → p.next = some o →
    S.pre o P.state → J P.state
  ext : ∀ P e s', A P (.ext e) = true → Y.ext e P.state = some s' →
    (P.busy own = true → S.rely P.state s') ∧ (P.busy own = false → J P.state → J s')

section Exclusive

variable {own : T → Bool} {ops : T → Op → Prop} {S : Prog.Setting Op Res σ I} {J : σ → Prop} {i : Nat} {t : T} {s : σ}

theorem OneAtATime.moved {p : Prog Op Res ε Unit} (hi : i < P.procs.length) (ht : own t = true)
    (hholds : p.Holds S (fun _ => J) (fun _ => J) s)
    (hothers : ∀ (j : Nat) (q : T × Prog Op Res ε Unit), j ≠ i → P.procs[j]? = some q → own q.1 = true →
      q.2.live = false) :
    OneAtATime own S J { state := s, procs := P.procs.set i (t, p) } := by
  have hdead : ∀ (j : Nat) (q : T × Prog Op Res ε Unit), j ≠ i → (P.procs.set i (t, p))[j]? = some q →
      own q.1 = true → q.2.live = false := by
    intro j q hj hq
    rw [List.getElem?_set_ne (Ne.symm hj)] at hq
    exact hothers j q hj hq
  have hown : (P.procs.set i (t, p))[i]? = some (t, p) := List.getElem?_set_self hi
  cases hlive : p.live with
  | true => exact .inr ⟨i, t, p, hown, ht, hlive, hholds, hdead⟩
  | false =>
    refine .inl ⟨Pool.busy_eq_false.2 ?_, hholds.ended hlive⟩
    intro j q hq hq'
    by_cases hj : j = i
    · subst hj
      rw [hown] at hq
      cases hq
      exact hlive
    · exact hdead j q hj hq hq'

theorem Pool.busy_of_live {p : Prog Op Res ε Unit} (hi : P.procs[i]? = some (t, p))
    (ht : own t = true) (hlive : p.live = true) : P.busy own = true := by
  rw [← Bool.not_eq_false, Pool.busy_eq_false]
  intro h
  rw [h i (t, p) hi ht] at hlive
  cases hlive

theorem OneAtATime.other {p p' : Prog Op Res ε Unit} (h : OneAtATime own S J P)
    (hi : P.procs[i]? = some (t, p)) (ht : own t = false)
    (hs : (P.busy own = true → S.rely P.state s) ∧ (P.busy own = false → J P.state → J s)) :
    OneAtATime own S J { state := s, procs := P.procs.set i (t, p') } := by
  have hold : ∀ (j : Nat) (q : T × Prog Op Res ε Unit), (P.procs.set i (t, p'))[j]? = some q → own q.1 = true →
      P.procs[j]? = some q := by
    intro j q hq hq'
    rcases Pool.getElem?_set hq with ⟨-, rfl⟩ | ⟨-, hq⟩
    · rw [ht] at hq'
      cases hq'
    · exact hq
  rcases h with ⟨hbusy, hJ⟩ | ⟨i', t', q, hi', ht', hlive, hholds, hothers⟩
  · refine .inl ⟨Pool.busy_eq_false.2 ?_, hs.2 hbusy hJ⟩
    intro j q hq hq'
    exact Pool.busy_eq_false.1 hbusy j q (hold j q hq hq') hq'
  · have hne : i ≠ i' := by
      rintro rfl
      rw [hi] at hi'
      cases hi'
      rw [ht] at ht'
      cases ht'
    have hrely := hs.1 (Pool.busy_of_live hi' ht' hlive)
    refine .inr ⟨i', t', q, ?_, ht', hlive, hholds.stable hrely, ?_⟩
    · rw [List.getElem?_set_ne hne]
      exact hi'
    · intro j q hj hq hq'
      exact hothers j q hj (hold j q hq hq') hq'

theorem OneAtATime.spawn (hE : Exclusive Y A own ops S J) (h : OneAtATime own S J P)
    (hA : A P (.spawn t) = true) : OneAtATime own S J { P with procs := P.procs ++ [(t, Y.start t)] } := by
  have hnew : ∀ (j : Nat) (q : T × Prog Op Res ε Unit), (P.procs ++ [(t, Y.start t)])[j]? = some q →
      P.procs[j]? = some q ∨ (j = P.procs.length ∧ q = (t, Y.start t)) := by
    intro j q hq
    rw [List.getElem?_append] at hq
    split at hq
    · exact .inl hq
    · obtain rfl : q = (t, Y.start t) := by simpa using List.mem_of_getElem? hq
      have hlt := (List.getElem?_eq_some_iff.1 hq).1
      simp only [List.length_singleton] at hlt
      exact .inr ⟨by omega, rfl⟩
  cases ht : own t with
  | true =>
    have hfree := hE.alone P t hA ht
    have hJ : J P.state := by
      rcases h with ⟨-, hJ⟩ | ⟨i, t', p, hi, ht', hlive, -⟩
      · exact hJ
      · rw [Pool.busy_eq_false.1 hfree i _ hi ht'] at hlive
        cases hlive
    have hstart := hE.start P t hA ht hJ
    cases hlive : (Y.start t).live with
    | true =>
      refine .inr ⟨P.procs.length, t, Y.start t, by simp, ht, hlive, hstart, ?_⟩
      intro j q hj hq hq'
      rcases hnew j q hq with hq | ⟨rfl, -⟩
      · exact Pool.busy_eq_false.1 hfree j q hq hq'
      · exact absurd rfl hj
    | false =>
      refine .inl ⟨Pool.busy_eq_false.2 ?_, hJ⟩
      intro j q hq hq'
      rcases hnew j q hq with hq | ⟨-, rfl⟩
      · exact Pool.busy_eq_false.1 hfree j q hq hq'
      · exact hlive
  | false =>
    have hold : ∀ (j : Nat) (q : T × Prog Op Res ε Unit), (P.procs ++ [(t, Y.start t)])[j]? = some q →
        own q.1 = true → P.procs[j]? = some q := by
      intro j q hq hq'
      rcases hnew j q hq with hq | ⟨-, rfl⟩
      · exact hq
      · rw [ht] at hq'
        cases hq'
    rcases h with ⟨hbusy, hJ⟩ | ⟨i, t', p, hi, ht', hlive, hholds, hothers⟩
    · refine .inl ⟨Pool.busy_eq_false.2 ?_, hJ⟩
      intro j q hq hq'
      exact Pool.busy_eq_false.1 hbusy j q (hold j q hq hq') hq'
    · refine .inr ⟨i, t', p, ?_, ht', hlive, hholds, ?_⟩
      · rw [List.getElem?_append_left (List.getElem?_eq_some_iff.1 hi).1]
        exact hi
      · intro j q hj hq hq'
        exact hothers j q hj (hold j q hq hq') hq'

theorem OneAtATime.of_live {p : Prog Op Res ε Unit} (h : OneAtATime own S J P)
    (hi : P.procs[i]? = some (t, p)) (ht : own t = true) (hlive : p.live = true) :
    p.Holds S (fun _ => J) (fun _ => J) P.state ∧
      ∀ (j : Nat) (q : T × Prog Op Res ε Unit), j ≠ i → P.procs[j]? = some q → own q.1 = true → q.2.live = false := by
  rcases h with ⟨hbusy, -⟩ | ⟨i', t', p', hi', ht', hlive', hholds, hothers⟩
  · rw [Pool.busy_eq_false.1 hbusy i _ hi ht] at hlive
    cases hlive
  · obtain rfl : i = i' := by
      by_contra hne
      rw [hothers i _ hne hi ht] at hlive
      cases hlive
    rw [hi] at hi'
    cases hi'
    exact ⟨hholds, hothers⟩

theorem OneAtATime.step (hE : Exclusive Y A own ops S J) {x : I} (h : OneAtATime own S J P)
    (hops : P.Within ops) (hA : A P (.step i x) = true) (hexec : P.exec Y (.step i x) = some P') :
    OneAtATime own S J P' := by
  obtain ⟨t, p, p', hi, hstep, hprocs⟩ := Pool.exec_step hexec
  obtain ⟨s', procs'⟩ := P'
  cases hprocs
  cases ht : own t with
  | true =>
    obtain ⟨hholds, hothers⟩ := h.of_live hi ht (Prog.live_of_step hstep)
    have hmay := fun o ho => hE.may P i x t p o hA hi ht ho
    exact .moved (List.getElem?_eq_some_iff.1 hi).1 ht (hholds.step hmay (hE.sem ▸ hstep)) hothers
  | false =>
    obtain ⟨⟨o, r, ho, hop, hsem⟩, -⟩ := (hops i (t, p) hi).step hstep
    exact h.other hi ht (hE.others P i x t p o r s' hA hi ht ho hop hsem)

theorem OneAtATime.kill (hE : Exclusive Y A own ops S J) (h : OneAtATime own S J P)
    (hA : A P (.kill i) = true) (hexec : P.exec Y (.kill i) = some P') : OneAtATime own S J P' := by
  obtain ⟨t, p, hi, hlive, rfl⟩ := Pool.exec_kill hexec
  cases ht : own t with
  | true =>
    obtain ⟨hholds, hothers⟩ := h.of_live hi ht hlive
    obtain ⟨o, ho⟩ := Prog.next_of_live hlive
    have hJ := hE.kill P i t p o hA hi ht ho (hholds.pre_of_next ho)
    exact .moved (List.getElem?_eq_some_iff.1 hi).1 ht (fun s' hs => hE.stable _ s' hJ hs) hothers
  | false => exact h.other hi ht ⟨fun _ => S.rely_refl P.state, fun _ hJ => hJ⟩

theorem OneAtATime.ext (hE : Exclusive Y A own ops S J) {e : X} (h : OneAtATime own S J P)
    (hA : A P (.ext e) = true) (hexec : P.exec Y (.ext e) = some P') : OneAtATime own S J P' := by
  obtain ⟨s', hs', rfl⟩ := Option.map_eq_some_iff.1 hexec
  obtain ⟨hrely, hkeep⟩ := hE.ext P e s' hA hs'
  rcases h with ⟨hbusy, hJ⟩ | ⟨i, t, p, hi, ht, hlive, hholds, hothers⟩
  · exact .inl ⟨hbusy, hkeep hbusy hJ⟩
  · exact .inr ⟨i, t, p, hi, ht, hlive, hholds.stable (hrely (Pool.busy_of_live hi ht hlive)), hothers⟩

/-- **The rule of runs without overlap.** The triples of a class of requests that come in one at a time carry an
invariant through every run. -/
theorem Reachable.exclusive (hE : Exclusive Y A own ops S J) (h : Reachable Y A s0 P) (hinit : J s0) :
    OneAtATime own S J P := by
  have hboth : OneAtATime own S J P ∧ P.Within ops := by
    refine h.invariant (J := fun P => OneAtATime own S J P ∧ P.Within ops) ?_ ?_
    · refine ⟨.inl ⟨rfl, hinit⟩, ?_⟩
      intro j q hq
      cases hq
    · rintro P P' e ⟨hP, hops⟩ hA hexec
      refine ⟨?_, hops.exec hE.within hexec⟩
      cases e with
      | spawn t =>
        cases hexec
        exact hP.spawn hE hA
      | step i x => exact hP.step hE hops hA hexec
      | kill i => exact hP.kill hE hA hexec
      | ext e => exact hP.ext hE hA hexec
  exact hboth.1

theorem OneAtATime.of_free (h : OneAtATime own S J P) (hfree : P.busy own = false) : J P.state := by
  rcases h with ⟨-, hJ⟩ | ⟨i, t, p, hi, ht, hlive, -⟩
  · exact hJ
  · rw [Pool.busy_eq_false.1 hfree i _ hi ht] at hlive
    cases hlive

theorem OneAtATime.always {K : σ → Prop} (h : OneAtATime own S J P) (hJ : ∀ s, J s → K s)
    (hpre : ∀ o s, S.pre o s → K s) : K P.state := by
  rcases h with ⟨-, hP⟩ | ⟨i, t, p, hi, ht, hlive, hholds, -⟩
  · exact hJ _ hP
  · obtain ⟨o, ho⟩ := Prog.next_of_live hlive
    exact hpre o _ (hholds.pre_of_next ho)

end Exclusive

end Pools

end Process
