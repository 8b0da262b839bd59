import CodexaCoin.Gateway.Notify
import CodexaCoin.Lib.Trace

/-!
# Announced and received amounts

Runs in which payments, spends, requests to register and passes of the watcher follow each other, each pass with the
current balances.
-/

namespace CodexaCoin.Gateway

open Trace

/-! ## Runs -/

/-- A payment, a spend that leaves these amounts at the address, a request to register, or a pass. -/
inductive PushEvent
  | receive (address : String) (amount : Nat)
  | spend (address : String) (left : List Nat)
  | register (body : RegisterBody)
  | pass

/-- The unspent amounts of each address, the table, and the notifications so far. -/
structure PushState where
  coins : String → List Nat
  db : Registrations := {}
  sent : List Notification := []

namespace PushState

variable (isValidAddress : String → Bool) (s : PushState)

def balance (address : String) : Int := (s.coins address).sum

def view : NodeView where
  isValidAddress := isValidAddress
  listUnspent address := some ((s.coins address).map Nat.cast)

def step (s : PushState) : PushEvent → Option PushState
  | .receive address amount => some { s with coins := Function.update s.coins address (s.coins address ++ [amount]) }
  | .spend address left =>
    if left.sum ≤ (s.coins address).sum then some { s with coins := Function.update s.coins address left } else none
  | .register body => match pushMobileRegister isValidAddress body s.db with
    | .ok db => some { s with db := db }
    | .error _ => some s
  | .pass =>
    let (db, ns) := checkIncomingPayments (s.view isValidAddress) s.db
    some { s with db := db, sent := s.sent ++ ns }

/-- Whether a token is registered for an address. -/
def Registered (address token : String) : Prop := (address, token) ∈ s.db.rows.map (·.key)

instance (address token : String) : Decidable (s.Registered address token) := inferInstanceAs (Decidable (_ ∈ _))

/-- A first registration is of an address without coins, and no amount that is due is printed as more than it is. -/
def Careful (s : PushState) : PushEvent → Prop
  | .register body => ∀ args ∈ (checkRegister isValidAddress body).toOption,
    s.Registered args.1 args.2.2 ∨ s.balance args.1 = 0
  | .pass => ∀ r ∈ s.db.rows, r.lastNotifiedBalance < s.balance r.address →
    shownAmount (s.balance r.address - r.lastNotifiedBalance) ≤ s.balance r.address - r.lastNotifiedBalance
  | _ => True

instance Careful.decidable : (e : PushEvent) → Decidable (s.Careful isValidAddress e)
  | .receive .. => isTrue trivial
  | .spend .. => isTrue trivial
  | .register body => inferInstanceAs (Decidable (∀ args ∈ (checkRegister isValidAddress body).toOption, _))
  | .pass => inferInstanceAs (Decidable (∀ r ∈ s.db.rows, _))

theorem careful_pass_of_lt (h : ∀ r ∈ s.db.rows, s.balance r.address - r.lastNotifiedBalance < 6710886400000000) :
    s.Careful isValidAddress .pass := by
  intro r hr hlt
  exact (shownAmount_eq (by omega) (h r hr)).le

end PushState

section Received

variable (isValidAddress : String → Bool) (address token : String)

def PushEvent.registers : PushEvent → Bool
  | .register body => (checkRegister isValidAddress body).toOption.any fun args => args.1 = address && args.2.2 = token
  | _ => false

def PushEvent.paid : PushEvent → Nat
  | .receive address' amount => if address' = address then amount else 0
  | _ => 0

/-- The payments to an address after a token was first registered for it. -/
def receivedSince : List PushEvent → Nat
  | [] => 0
  | e :: events =>
    if e.registers isValidAddress address token then (events.map (·.paid address)).sum else receivedSince events

variable {isValidAddress address token}

theorem receivedSince_concat (events : List PushEvent) (e : PushEvent) :
    receivedSince isValidAddress address token (events ++ [e]) = receivedSince isValidAddress address token events +
      if events.any (·.registers isValidAddress address token) then e.paid address else 0 := by
  induction events with
  | nil => simp [receivedSince]
  | cons e' events ih =>
    rw [List.cons_append, receivedSince, receivedSince, List.any_cons]
    cases he : e'.registers isValidAddress address token with
    | true => simp
    | false => simpa using ih

end Received

/-! ### One step -/

namespace PushState

variable {isValidAddress : String → Bool} {s s' : PushState} {address token : String}

theorem balance_view (address : String) :
    (s.view isValidAddress).balance address = if isValidAddress address then some (s.balance address) else none := by
  unfold NodeView.balance balance view
  dsimp only
  have hcast : ((s.coins address).map (Nat.cast : Nat → Int)).sum = ((s.coins address).sum : Nat) :=
    (map_list_sum (Nat.castAddMonoidHom Int) (s.coins address)).symm
  rw [Option.map_some, hcast]

theorem step_spend {left : List Nat} (h : s.step isValidAddress (.spend address left) = some s') :
    left.sum ≤ (s.coins address).sum ∧ s' = { s with coins := Function.update s.coins address left } := by
  simp only [step] at h
  split at h
  next hle =>
    cases h
    exact ⟨hle, rfl⟩
  next => cases h

theorem step_pass (h : s.step isValidAddress .pass = some s') :
    s' = { s with
      db := (checkIncomingPayments (s.view isValidAddress) s.db).1
      sent := s.sent ++ (checkIncomingPayments (s.view isValidAddress) s.db).2 } :=
  (Option.some.inj h).symm

theorem step_register {body : RegisterBody} (h : s.step isValidAddress (.register body) = some s') :
    (s' = s ∧ (checkRegister isValidAddress body).toOption = none) ∨
      ∃ args, checkRegister isValidAddress body = .ok args ∧ isValidAddress args.1 = true ∧
        s' = { s with db := s.db.insert args.1 args.2.1 args.2.2 } := by
  cases hcheck : checkRegister isValidAddress body with
  | ok args =>
    simp only [step, pushMobileRegister, hcheck] at h
    cases h
    exact .inr ⟨args, rfl, isValidAddress_of_checkRegister hcheck, rfl⟩
  | error e =>
    simp only [step, pushMobileRegister, hcheck] at h
    cases h
    exact .inl ⟨rfl, rfl⟩

theorem registered_step {e : PushEvent} (h : s.step isValidAddress e = some s') :
    s'.Registered address token ↔ s.Registered address token ∨ e.registers isValidAddress address token = true := by
  cases e with
  | receive =>
    cases h
    exact ⟨.inl, fun h => h.elim id fun h => by cases h⟩
  | spend =>
    obtain ⟨-, rfl⟩ := step_spend h
    exact ⟨.inl, fun h => h.elim id fun h => by cases h⟩
  | register body =>
    rcases step_register h with ⟨rfl, hnone⟩ | ⟨args, hargs, -, rfl⟩
    · simp [PushEvent.registers, hnone]
    · have hsome : (checkRegister isValidAddress body).toOption = some args := by rw [hargs]; rfl
      rw [Registered, Registered, Registrations.keys_insert, PushEvent.registers, hsome, Option.any_some,
        Bool.and_eq_true, decide_eq_true_iff, decide_eq_true_iff, Prod.mk.injEq, eq_comm, @eq_comm _ token]
  | pass =>
    rw [step_pass h, Registered, Registered, checkIncomingPayments_rows, List.map_map]
    exact ⟨.inl, fun h => h.elim id fun h => by cases h⟩

variable (isValidAddress address token) in
/-- What was announced, and the part of the balance that was not, are covered by the payments. -/
structure Covered (received : Int) (s : PushState) : Prop where
  valid : ∀ r ∈ s.db.rows, isValidAddress r.address = true
  silent : ¬ s.Registered address token → announced address token s.sent = 0
  announced_le : ∀ r ∈ s.db.rows, r.key = (address, token) → announced address token s.sent ≤ received
  balance_le : ∀ r ∈ s.db.rows, r.key = (address, token) →
    announced address token s.sent + s.balance address ≤ received + r.lastNotifiedBalance

namespace Covered

variable {received : Nat} {address' : String}

theorem total_le (h : Covered isValidAddress address token received s) :
    announced address token s.sent ≤ received := by
  by_cases hreg : s.Registered address token
  · obtain ⟨r, hr, hkey⟩ := List.mem_map.1 hreg
    exact h.announced_le r hr hkey
  · rw [h.silent hreg]
    exact Int.natCast_nonneg _

theorem setCoins {coins : String → List Nat} {received' : Nat} (h : Covered isValidAddress address token received s)
    (hle : received ≤ received')
    (hbalance : s.Registered address token → ((coins address).sum : Int) ≤ s.balance address + (received' - received)) :
    Covered isValidAddress address token received' { s with coins := coins } where
  valid := h.valid
  silent := h.silent
  announced_le r hr hkey := (h.announced_le r hr hkey).trans (by exact_mod_cast hle)
  balance_le r hr hkey := by
    have hreg : s.Registered address token := List.mem_map.2 ⟨r, hr, hkey⟩
    have hrow := h.balance_le r hr hkey
    have hnew := hbalance hreg
    show announced address token s.sent + ((coins address).sum : Int) ≤ received' + r.lastNotifiedBalance
    omega

theorem receive {amount received' : Nat} (h : Covered isValidAddress address token received s)
    (hreceived : received' = received +
      if s.Registered address token then PushEvent.paid address (.receive address' amount) else 0) :
    Covered isValidAddress address token received'
      { s with coins := Function.update s.coins address' (s.coins address' ++ [amount]) } := by
  refine h.setCoins (by omega) fun hreg => ?_
  rw [if_pos hreg] at hreceived
  by_cases haddress : address' = address
  · subst haddress
    rw [PushEvent.paid, if_pos rfl] at hreceived
    rw [Function.update_self, List.sum_append, List.sum_singleton, PushState.balance]
    omega
  · rw [Function.update_of_ne (Ne.symm haddress), PushState.balance]
    omega

theorem spend {left : List Nat} (h : Covered isValidAddress address token received s)
    (hleft : left.sum ≤ (s.coins address').sum) :
    Covered isValidAddress address token received { s with coins := Function.update s.coins address' left } := by
  refine h.setCoins le_rfl fun _ => ?_
  by_cases haddress : address' = address
  · subst haddress
    rw [Function.update_self, PushState.balance]
    omega
  · rw [Function.update_of_ne (Ne.symm haddress), PushState.balance]
    omega

theorem register {args : String × String × String} (h : Covered isValidAddress address token received s)
    (hvalid : isValidAddress args.1 = true) (hempty : s.Registered args.1 args.2.2 ∨ s.balance args.1 = 0) :
    Covered isValidAddress address token received { s with db := s.db.insert args.1 args.2.1 args.2.2 } := by
  -- a new registration starts with nothing announced, and with an empty address
  have hnew : ∀ r : Registration, (args.1, args.2.2) ∉ s.db.rows.map (·.key) → r.key = (args.1, args.2.2) →
      r.key = (address, token) → announced address token s.sent = 0 ∧ s.balance address = 0 := by
    intro r habsent hargs hkey
    have heq := Prod.mk.inj (hargs.symm.trans hkey)
    rw [heq.1, heq.2] at habsent
    refine ⟨h.silent habsent, ?_⟩
    rw [← heq.1]
    refine hempty.resolve_left ?_
    rwa [heq.1, heq.2]
  refine ⟨?_, ?_, ?_, ?_⟩
  · intro r hr
    rcases Registrations.mem_insert hr with ⟨r0, hr0, hkey, -⟩ | ⟨-, hkey, -⟩
    · rw [show r.address = r0.address from congrArg Prod.fst hkey]
      exact h.valid r0 hr0
    · rw [show r.address = args.1 from congrArg Prod.fst hkey]
      exact hvalid
  · intro hreg
    exact h.silent fun hold => hreg (Registrations.keys_insert.2 (.inl hold))
  · intro r hr hkey
    exact h.total_le
  · intro r hr hkey
    show announced address token s.sent + s.balance address ≤ received + r.lastNotifiedBalance
    rcases Registrations.mem_insert hr with ⟨r0, hr0, hsame, hlast⟩ | ⟨habsent, hargs, hlast⟩
    · rw [hlast]
      exact h.balance_le r0 hr0 (hsame.symm.trans hkey)
    · obtain ⟨hannounced, hbalance⟩ := hnew r habsent hargs hkey
      omega

theorem pass (h : Covered isValidAddress address token received s)
    (hshown : ∀ r ∈ s.db.rows, r.lastNotifiedBalance < s.balance r.address →
      shownAmount (s.balance r.address - r.lastNotifiedBalance) ≤ s.balance r.address - r.lastNotifiedBalance) :
    Covered isValidAddress address token received { s with
      db := (checkIncomingPayments (s.view isValidAddress) s.db).1
      sent := s.sent ++ (checkIncomingPayments (s.view isValidAddress) s.db).2 } := by
  have hrows : ∀ {r'}, r' ∈ (checkIncomingPayments (s.view isValidAddress) s.db).1.rows →
      ∃ r ∈ s.db.rows, r' = { r with lastNotifiedBalance := s.balance r.address } := by
    intro r' hr'
    rw [checkIncomingPayments_rows] at hr'
    obtain ⟨r, hr, rfl⟩ := List.mem_map.1 hr'
    refine ⟨r, hr, ?_⟩
    rw [Registration.settled, balance_view, if_pos (h.valid r hr)]
    rfl
  -- what is announced to the token is at most the part of the balance that was not announced yet
  have hpass : ∀ r ∈ s.db.rows, r.key = (address, token) →
      announced address token (checkIncomingPayments (s.view isValidAddress) s.db).2 ≤
        max 0 (s.balance address - r.lastNotifiedBalance) := by
    intro r hr hkey
    rw [announced_pass hr hkey]
    cases hn : r.notification (s.view isValidAddress) with
    | none => exact le_max_left _ _
    | some n =>
      obtain ⟨balance, hbalance, hlt, hamount, -⟩ := notification_eq_some hn
      rw [balance_view, if_pos (h.valid r hr)] at hbalance
      obtain rfl := Option.some.inj hbalance
      have haddress : r.address = address := congrArg Prod.fst hkey
      rw [Option.elim_some, hamount, ← haddress]
      exact (hshown r hr hlt).trans (le_max_right _ _)
  refine ⟨?_, ?_, ?_, ?_⟩
  · intro r' hr'
    obtain ⟨r, hr, rfl⟩ := hrows hr'
    exact h.valid r hr
  · intro hreg
    have habsent : ¬ s.Registered address token := fun hold => hreg (by
      rw [Registered, checkIncomingPayments_rows, List.map_map]
      exact hold)
    rw [announced_append, h.silent habsent, announced_pass_eq_zero habsent, Int.add_zero]
  · intro r' hr' hkey
    obtain ⟨r, hr, rfl⟩ := hrows hr'
    have hnew := hpass r hr hkey
    have hold := h.announced_le r hr hkey
    have hrow := h.balance_le r hr hkey
    rw [announced_append]
    omega
  · intro r' hr' hkey
    obtain ⟨r, hr, rfl⟩ := hrows hr'
    have hnew := hpass r hr hkey
    have hold := h.announced_le r hr hkey
    have hrow := h.balance_le r hr hkey
    have haddress : r.address = address := congrArg Prod.fst hkey
    rw [announced_append]
    show _ + s.balance address ≤ received + s.balance r.address
    rw [haddress]
    omega

/-- **The step lemma**: what is covered stays covered. -/
theorem step {e : PushEvent} {received' : Nat} (h : Covered isValidAddress address token received s)
    (hcareful : s.Careful isValidAddress e) (hstep : s.step isValidAddress e = some s')
    (hreceived : received' = received + if s.Registered address token then e.paid address else 0) :
    Covered isValidAddress address token received' s' := by
  cases e with
  | receive address' amount =>
    cases hstep
    exact h.receive hreceived
  | spend address' left =>
    obtain ⟨hleft, rfl⟩ := step_spend hstep
    obtain rfl : received' = received := by simpa [PushEvent.paid] using hreceived
    exact h.spend hleft
  | register body =>
    obtain rfl : received' = received := by simpa [PushEvent.paid] using hreceived
    rcases step_register hstep with ⟨rfl, -⟩ | ⟨args, hargs, hvalid, rfl⟩
    · exact h
    · exact h.register hvalid (hcareful args (by rw [hargs]; rfl))
  | pass =>
    obtain rfl : received' = received := by simpa [PushEvent.paid] using hreceived
    rw [step_pass hstep]
    exact h.pass hcareful

end Covered

/-! ### Passes that announce nothing -/

def LastNotified (address token : String) (balance : Int) (s : PushState) : Prop :=
  ∃ r ∈ s.db.rows, r.key = (address, token) ∧ r.lastNotifiedBalance = balance

theorem LastNotified.step {balance : Int} {e : PushEvent} (h : LastNotified address token balance s) (hpass : e ≠ .pass)
    (hstep : s.step isValidAddress e = some s') : LastNotified address token balance s' := by
  cases e with
  | receive =>
    cases hstep
    exact h
  | spend =>
    obtain ⟨-, rfl⟩ := step_spend hstep
    exact h
  | register body =>
    rcases step_register hstep with ⟨rfl, -⟩ | ⟨args, -, -, rfl⟩
    · exact h
    · obtain ⟨r, hr, hkey, hlast⟩ := h
      obtain ⟨r', hr', hkey', hlast'⟩ := Registrations.exists_mem_insert hr
      exact ⟨r', hr', hkey'.trans hkey, hlast'.trans hlast⟩
  | pass => exact absurd rfl hpass

theorem LastNotified.run {balance : Int} {events : List PushEvent} (h : LastNotified address token balance s)
    (hpass : .pass ∉ events) (hrun : run (PushState.step isValidAddress) s events = some s') :
    LastNotified address token balance s' := by
  induction events generalizing s with
  | nil =>
    cases hrun
    exact h
  | cons e events ih =>
    obtain ⟨mid, hmid, hrun⟩ := run_cons.1 hrun
    rw [List.mem_cons, not_or] at hpass
    exact ih (h.step (Ne.symm hpass.1) hmid) hpass.2 hrun

theorem lastNotified_of_step {received : Nat} {e : PushEvent} (hvalid : Covered isValidAddress address token received s)
    (hcareful : s.Careful isValidAddress e) (hstep : s.step isValidAddress e = some s')
    (hfirst : e = .pass ∨ ¬ s.Registered address token) (hreg : s'.Registered address token) :
    LastNotified address token (s'.balance address) s' := by
  obtain ⟨r', hr', hkey⟩ := List.mem_map.1 hreg
  refine ⟨r', hr', hkey, ?_⟩
  cases e with
  | receive =>
    cases hstep
    exact absurd hreg (hfirst.resolve_left (by simp))
  | spend =>
    obtain ⟨-, rfl⟩ := step_spend hstep
    exact absurd hreg (hfirst.resolve_left (by simp))
  | register body =>
    have habsent := hfirst.resolve_left (by simp)
    rcases step_register hstep with ⟨rfl, -⟩ | ⟨args, hargs, -, rfl⟩
    · exact absurd hreg habsent
    · rcases Registrations.mem_insert hr' with ⟨r, hr, hsame, -⟩ | ⟨hnew, hargsKey, hlast⟩
      · exact absurd (List.mem_map.2 ⟨r, hr, hsame.symm.trans hkey⟩) habsent
      · have hempty := (hcareful args (by rw [hargs]; rfl)).resolve_left hnew
        have haddress : args.1 = address := congrArg Prod.fst (hargsKey.symm.trans hkey)
        rw [haddress] at hempty
        exact hlast.trans hempty.symm
  | pass =>
    obtain rfl := step_pass hstep
    rw [checkIncomingPayments_rows] at hr'
    obtain ⟨r, hr, rfl⟩ := List.mem_map.1 hr'
    have haddress : r.address = address := congrArg Prod.fst hkey
    rw [Registration.settled, balance_view, if_pos (hvalid.valid r hr), haddress]
    rfl

theorem LastNotified.pass {balance : Int} (h : LastNotified address token balance s) (hle : s.balance address ≤ balance)
    (hstep : s.step isValidAddress .pass = some s') :
    s'.sent.filter (addressedTo address token) = s.sent.filter (addressedTo address token) := by
  obtain ⟨r, hr, hkey, hlast⟩ := h
  rw [step_pass hstep, List.filter_append]
  have hnone : (checkIncomingPayments (s.view isValidAddress) s.db).2.filter (addressedTo address token) = [] := by
    rw [List.filter_eq_nil_iff]
    intro n hn hto
    obtain ⟨r', hr', hnotification⟩ := mem_checkIncomingPayments.1 hn
    have hkey' := (addressedTo_iff_key hnotification).1 hto
    obtain rfl := Registrations.eq_of_key hr' hr (hkey'.trans hkey.symm)
    obtain ⟨current, hcurrent, hlt, -⟩ := notification_eq_some hnotification
    have haddress : r'.address = address := congrArg Prod.fst hkey'
    rw [balance_view, haddress] at hcurrent
    split at hcurrent
    · have := Option.some.inj hcurrent
      omega
    · cases hcurrent
  rw [hnone, List.append_nil]

end PushState

/-! ## Announcements and payments -/

section Main

variable {isValidAddress : String → Bool} {coins : String → List Nat} {events : List PushEvent} {s : PushState}

open PushState

theorem covered_run (address token : String)
    (hcareful : AllSteps (step isValidAddress) (Careful isValidAddress) ⟨coins, {}, []⟩ events)
    (hrun : run (step isValidAddress) ⟨coins, {}, []⟩ events = some s) :
    PushState.Covered isValidAddress address token (receivedSince isValidAddress address token events) s ∧
      (s.Registered address token ↔ events.any (·.registers isValidAddress address token) = true) := by
  refine invariant_of_allSteps (P := fun events s =>
    PushState.Covered isValidAddress address token (receivedSince isValidAddress address token events) s ∧
      (s.Registered address token ↔ events.any (·.registers isValidAddress address token) = true)) ?_ ?_ hcareful hrun
  · refine ⟨⟨?_, fun _ => rfl, ?_, ?_⟩, ?_⟩
    · intro r hr
      cases hr
    · intro r hr
      cases hr
    · intro r hr
      cases hr
    · simp [PushState.Registered]
  · rintro events mid e mid' ⟨hcovered, hreg⟩ hok hstep
    refine ⟨hcovered.step hok hstep ?_, ?_⟩
    · rw [receivedSince_concat]
      simp only [hreg]
    · rw [registered_step hstep, hreg, List.any_append, Bool.or_eq_true, List.any_cons, List.any_nil, Bool.or_false]

theorem announced_le_received (hcareful : AllSteps (step isValidAddress) (Careful isValidAddress) ⟨coins, {}, []⟩ events)
    (hrun : run (step isValidAddress) ⟨coins, {}, []⟩ events = some s) (address token : String) :
    announced address token s.sent ≤ receivedSince isValidAddress address token events ∧
    ∀ before e since s0 s1 s', events = before ++ e :: since →
      run (step isValidAddress) ⟨coins, {}, []⟩ before = some s0 →
      s0.step isValidAddress e = some s1 → (e = .pass ∨ ¬ s0.Registered address token) → s1.Registered address token →
      .pass ∉ since → s.balance address ≤ s1.balance address → s.step isValidAddress .pass = some s' →
      s'.sent.filter (addressedTo address token) = s.sent.filter (addressedTo address token) := by
  refine ⟨(covered_run address token hcareful hrun).1.total_le, ?_⟩
  rintro before e since s0 s1 s' rfl hbefore hstep hfirst hreg hsince hle hpass
  obtain ⟨hcarefulBefore, hcarefulStep⟩ := hcareful.of_append
  have hcovered := (covered_run address token hcarefulBefore hbefore).1
  have hlast := lastNotified_of_step hcovered (hcarefulStep s0 hbefore) hstep hfirst hreg
  obtain ⟨mid, hmid, hrest⟩ := run_append.1 hrun
  obtain rfl := Option.some.inj (hbefore.symm.trans hmid)
  obtain ⟨mid1, hmid1, hrest⟩ := run_cons.1 hrest
  obtain rfl := Option.some.inj (hstep.symm.trans hmid1)
  exact (hlast.run hsince hrest).pass hle hpass

def watchedPayments : List PushEvent :=
  [.register ⟨some "address", some "android", some "token"⟩, .receive "address" 500, .pass,
    .register ⟨some "address", some "ios", some "token"⟩, .spend "address" [250], .pass, .receive "address" 100, .pass]

theorem watchedPayments_announced : ∃ s, run (step fun _ => true) ⟨fun _ => [], {}, []⟩ watchedPayments = some s ∧
    announced "address" "token" s.sent ≤ receivedSince (fun _ => true) "address" "token" watchedPayments := by
  have hruns : (run (step fun _ => true) ⟨fun _ => [], {}, []⟩ watchedPayments).isSome = true := by decide +kernel
  obtain ⟨s, hrun⟩ := Option.isSome_iff_exists.1 hruns
  exact ⟨s, hrun, (announced_le_received (by decide +kernel) hrun "address" "token").1⟩

def lateRegistration : List PushEvent := [.pass, .register ⟨some "address", some "android", some "token"⟩, .pass]

def largePayment : List PushEvent :=
  [.register ⟨some "address", some "android", some "token"⟩, .receive "address" 13421772800000002, .pass]

/-- **What an address holds when it is registered is announced as received by the next pass**, though nothing was paid
since the pass before it; and a large payment is announced with a unit too much. -/
theorem announced_without_payment :
    (run (step fun _ => true) ⟨fun _ => [500], {}, []⟩ lateRegistration).map
      (fun s => announced "address" "token" s.sent) = some 500 ∧
    receivedSince (fun _ => true) "address" "token" lateRegistration = 0 ∧
    (run (step fun _ => true) ⟨fun _ => [], {}, []⟩ largePayment).map (fun s => announced "address" "token" s.sent) =
      some 13421772800000003 ∧
    receivedSince (fun _ => true) "address" "token" largePayment = 13421772800000002 := by
  decide +kernel

end Main

end CodexaCoin.Gateway
