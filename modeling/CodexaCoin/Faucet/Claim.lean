import CodexaCoin.Script.Script
import CodexaCoin.Lib.Process

/-!
# The faucet

`claim` of `faucet/app.py` as a program of atomic steps: the check of the rate limit, RPC calls to the node, statements
on the table of claims and readings of the clock. Requests of any number of clients take their steps in any order and
may die between two of them. The rate limit is the library's: it lets a request pass or refuses it, as it likes.
-/

namespace CodexaCoin.Faucet

open Process

/-! ## Calls, statements and the clock -/

/-- The settings, and how the node reads an address. Times are in seconds. -/
structure Config where
  cooldownHours : ℚ
  scriptOf : String → Option CScript

/-- A request for a payout: what `strip` leaves of the address, and whether the hidden field was filled in. -/
structure Request where
  address : String
  website : Bool := false
  ip : Nat
deriving DecidableEq, Repr

/-- A row of `claims`. -/
structure ClaimRow where
  address : String
  ip : Nat
  txid : Nat
  createdAt : ℚ
deriving DecidableEq, Repr

structure Payout where
  address : String
  txid : Nat
  time : ℚ
deriving DecidableEq, Repr

/-- The clock, the table and the payments of the node. -/
structure State where
  now : ℚ := 0
  claims : List ClaimRow := []
  payouts : List Payout := []

/-- The end of an RPC call: a result, an `RpcError`, or another exception, such as a timeout. -/
inductive Reply (α : Type) where
  | ok (a : α)
  | rpcError
  | exception

inductive Op where
  | hit (ip : Nat)
  | validateAddress (address : String)
  | lastClaim (address : String)
  | time
  | sendToAddress (address : String)
  | stamp
  | insert (row : ClaimRow)
deriving DecidableEq

def Op.Res : Op → Type
  | hit _ => Bool
  | validateAddress _ => Reply Bool
  | lastClaim _ => Option ℚ
  | time => ℚ
  | sendToAddress _ => Reply Nat
  | stamp => ℚ
  | insert _ => Unit

/-- What comes from outside: nothing, a refusal of the rate limit, an error of the node, a payment, or a call whose
answer is lost, paid or not. -/
inductive Answer where
  | none
  | limited
  | error
  | sent (txid : Nat)
  | lost (txid : Option Nat)
deriving DecidableEq

namespace State

variable (s : State)

def pay (address : String) (txid : Nat) : State := { s with payouts := s.payouts ++ [⟨address, txid, s.now⟩] }

/-- The last claim of an address: the first row by `created_at DESC`. -/
def lastClaim (address : String) : Option ℚ := ((s.claims.filter (·.address = address)).map (·.createdAt)).max?

end State

def sem (cfg : Config) : (o : Op) → Answer → State → Option (o.Res × State)
  | .hit _, .none, s => some (false, s)
  | .hit _, .limited, s => some (true, s)
  | .validateAddress address, .none, s => some (.ok (cfg.scriptOf address).isSome, s)
  | .validateAddress _, .error, s => some (.rpcError, s)
  | .validateAddress _, .lost _, s => some (.exception, s)
  | .lastClaim address, _, s => some (s.lastClaim address, s)
  | .time, _, s => some (s.now, s)
  | .sendToAddress address, .sent txid, s =>
    if (cfg.scriptOf address).isSome then some (.ok txid, s.pay address txid) else none
  | .sendToAddress _, .error, s => some (.rpcError, s)
  | .sendToAddress _, .lost Option.none, s => some (.exception, s)
  | .sendToAddress address, .lost (some txid), s =>
    if (cfg.scriptOf address).isSome then some (.exception, s.pay address txid) else none
  | .stamp, _, s => some (s.now, s)
  | .insert row, _, s => some ((), { s with claims := s.claims ++ [row] })
  | _, _, _ => none

/-! ## The handler -/

inductive Refusal where
  | tooManyRequests
  | rejected
  | addressRequired
  | invalidAddress
  | tooSoon (remainingHours : ℚ)
  | payoutFailed
  | internalError
deriving DecidableEq, Repr

abbrev FProg := Prog Op Op.Res Refusal

abbrev hit (ip : Nat) : FProg Bool := Prog.perform (Op.hit ip)

abbrev validateAddress (address : String) : FProg (Reply Bool) := Prog.perform (Op.validateAddress address)

abbrev addressLastClaim (address : String) : FProg (Option ℚ) := Prog.perform (Op.lastClaim address)

abbrev time : FProg ℚ := Prog.perform Op.time

abbrev sendToAddress (address : String) : FProg (Reply Nat) := Prog.perform (Op.sendToAddress address)

def recordClaim (address : String) (ip txid : Nat) : FProg Unit := do
  let createdAt ← (Prog.perform Op.stamp : FProg ℚ)
  (Prog.perform (Op.insert ⟨address, ip, txid, createdAt⟩) : FProg Unit)

def payAndRecord (r : Request) : FProg Unit := do
  match ← sendToAddress r.address with
  | .rpcError => .raise .payoutFailed
  | .exception => .raise .internalError
  | .ok txid => recordClaim r.address r.ip txid

/-- Look up the last claim of the address, and go on if it is long enough ago. -/
def payIfCooledDown (cfg : Config) (r : Request) : FProg Unit := do
  match ← addressLastClaim r.address with
  | none => payAndRecord r
  | some lastClaim =>
    let now ← time
    let elapsedHours := (now - lastClaim) / 3600
    if elapsedHours < cfg.cooldownHours then .raise (.tooSoon (cfg.cooldownHours - elapsedHours)) else payAndRecord r

def claim (cfg : Config) (r : Request) : FProg Unit := do
  let limited ← hit r.ip
  if limited then .raise .tooManyRequests
  else if r.website then .raise .rejected
  else if r.address = "" then .raise .addressRequired
  else
    match ← validateAddress r.address with
    | .exception => .raise .internalError
    | .rpcError => .raise .invalidAddress
    | .ok valid => if valid then payIfCooledDown cfg r else .raise .invalidAddress

/-- The faucet: requests start claims, and between their steps time goes by. -/
def faucet (cfg : Config) : System Op Op.Res Refusal State Answer Request ℚ where
  sem := sem cfg
  start := claim cfg
  ext seconds s := if 0 ≤ seconds then some { s with now := s.now + seconds } else none

abbrev FPool := Pool Op Op.Res Refusal State Request
abbrev FEvent := Event Answer Request ℚ

/-! ## One destination -/

section Destination

variable (cfg : Config) (d : CScript)

def State.payoutsTo (s : State) : List Payout := s.payouts.filter fun p => cfg.scriptOf p.address = some d

def State.claimsTo (s : State) : List ClaimRow := s.claims.filter fun c => cfg.scriptOf c.address = some d

/-- The second payment is long enough after the first. -/
def Apart (p q : Payout) : Prop := cfg.cooldownHours ≤ (q.time - p.time) / 3600

instance : DecidableRel (Apart cfg) := fun _ _ => inferInstanceAs (Decidable (_ ≤ _))

def Spaced (s : State) : Prop := (s.payoutsTo cfg d).Pairwise (Apart cfg)

def HasClaim (s : State) (p : Payout) : Prop := ∃ c ∈ s.claimsTo cfg d, c.address = p.address ∧ p.time ≤ c.createdAt

structure Recorded (s : State) : Prop where
  spaced : Spaced cfg d s
  recorded : ∀ p ∈ s.payoutsTo cfg d, HasClaim cfg d s p

/-- What requests for other destinations leave as it is. -/
structure Undisturbed (s s' : State) : Prop where
  now_le : s.now ≤ s'.now
  payouts : s'.payoutsTo cfg d = s.payoutsTo cfg d
  claims : s'.claimsTo cfg d = s.claimsTo cfg d

/-- Before its payment is recorded a claim knows that payments are far enough apart, and otherwise that all are
recorded. No answer to a payment is lost. -/
def claimSetting : Prog.Setting Op Op.Res State Answer where
  sem := sem cfg
  may o x _ := ∀ address txid, o = .sendToAddress address → x ≠ .lost (some txid)
  pre
    | .stamp, s => Spaced cfg d s
    | .insert _, s => Spaced cfg d s
    | _, s => Recorded cfg d s
  rely := Undisturbed cfg d
  rely_refl _ := ⟨le_refl _, rfl, rfl⟩
  rely_trans h h' := ⟨h.now_le.trans h'.now_le, h'.payouts.trans h.payouts, h'.claims.trans h.claims⟩

variable {cfg d} {s s' : State} {r : Request}

theorem Spaced.stable (h : Spaced cfg d s) (hs : Undisturbed cfg d s s') : Spaced cfg d s' := by
  rw [Spaced, hs.payouts]
  exact h

theorem HasClaim.stable {p : Payout} (h : HasClaim cfg d s p) (hs : Undisturbed cfg d s s') : HasClaim cfg d s' p := by
  rw [HasClaim, hs.claims]
  exact h

theorem Recorded.stable (h : Recorded cfg d s) (hs : Undisturbed cfg d s s') : Recorded cfg d s' := by
  refine ⟨h.spaced.stable hs, fun p hp => ?_⟩
  rw [hs.payouts] at hp
  exact (h.recorded p hp).stable hs

variable (cfg d s) in
def CooledDown : Prop := ∀ p ∈ s.payoutsTo cfg d, cfg.cooldownHours ≤ (s.now - p.time) / 3600

theorem CooledDown.stable (h : CooledDown cfg d s) (hs : Undisturbed cfg d s s') : CooledDown cfg d s' := by
  intro p hp
  rw [hs.payouts] at hp
  have hle := hs.now_le
  exact (h p hp).trans (by gcongr)

theorem HasClaim.le_lastClaim {p : Payout} (h : HasClaim cfg d s p) :
    ∃ last, s.lastClaim p.address = some last ∧ p.time ≤ last := by
  obtain ⟨c, hc, haddress, htime⟩ := h
  have hmem : c.createdAt ∈ (s.claims.filter (·.address = p.address)).map (·.createdAt) :=
    List.mem_map_of_mem (List.mem_filter.2 ⟨(List.mem_filter.1 hc).1, by simpa using haddress⟩)
  cases hlast : s.lastClaim p.address with
  | none =>
    rw [List.max?_eq_none_iff.1 hlast] at hmem
    cases hmem
  | some last => exact ⟨last, rfl, htime.trans ((List.max?_eq_some_iff.1 hlast).2 _ hmem)⟩

variable (hd : cfg.scriptOf r.address = some d)

include hd in
theorem payoutsTo_pay (s : State) (txid : Nat) :
    (s.pay r.address txid).payoutsTo cfg d = s.payoutsTo cfg d ++ [⟨r.address, txid, s.now⟩] := by
  simp [State.payoutsTo, State.pay, hd]

include hd in
theorem Spaced.pay (h : Spaced cfg d s) (hcool : CooledDown cfg d s)
    (txid : Nat) : Spaced cfg d (s.pay r.address txid) := by
  rw [Spaced, payoutsTo_pay hd, List.pairwise_append]
  refine ⟨h, List.pairwise_singleton _ _, fun p hp q hq => ?_⟩
  rw [List.mem_singleton] at hq
  subst hq
  exact hcool p hp

variable (cfg d s) in
/-- All payments to the script are recorded, except for one to an address at a time that has passed. -/
structure Unrecorded (address : String) (time : ℚ) : Prop where
  spaced : Spaced cfg d s
  recorded : ∀ p ∈ s.payoutsTo cfg d, HasClaim cfg d s p ∨ (p.address = address ∧ p.time ≤ time)
  time_le : time ≤ s.now

theorem Unrecorded.stable {address : String} {time : ℚ} (h : Unrecorded cfg d s address time)
    (hs : Undisturbed cfg d s s') :
    Unrecorded cfg d s' address time := by
  refine ⟨h.spaced.stable hs, fun p hp => ?_, h.time_le.trans hs.now_le⟩
  rw [hs.payouts] at hp
  exact (h.recorded p hp).imp (·.stable hs) id

include hd in
theorem Unrecorded.insert {time createdAt : ℚ} {txid : Nat} (h : Unrecorded cfg d s r.address time)
    (htime : time ≤ createdAt) :
    Recorded cfg d { s with claims := s.claims ++ [⟨r.address, r.ip, txid, createdAt⟩] } := by
  have hclaims : State.claimsTo cfg d { s with claims := s.claims ++ [⟨r.address, r.ip, txid, createdAt⟩] } =
      s.claimsTo cfg d ++ [⟨r.address, r.ip, txid, createdAt⟩] := by
    simp [State.claimsTo, hd]
  refine ⟨h.spaced, fun p hp => ?_⟩
  rw [HasClaim, hclaims]
  rcases h.recorded p hp with ⟨c, hc, hrest⟩ | ⟨haddress, hp'⟩
  · exact ⟨c, List.mem_append_left _ hc, hrest⟩
  · exact ⟨_, List.mem_append_right _ (List.mem_singleton_self _), haddress.symm, hp'.trans htime⟩

/-! ## The triple of a claim -/

include hd in
theorem recordClaim_holds (time : ℚ) (txid : Nat) (h : Unrecorded cfg d s r.address time) :
    (recordClaim r.address r.ip txid).Holds (claimSetting cfg d) (fun _ => Recorded cfg d)
      (fun _ => Recorded cfg d) s := by
  refine Prog.Holds.op fun s1 hs1 => ⟨(h.stable hs1).spaced, fun x _ createdAt s2 hsem => ?_⟩
  cases hsem
  have hstamp : time ≤ s1.now := (h.stable hs1).time_le
  refine fun s3 hs3 => ⟨((h.stable hs1).stable hs3).spaced, fun x _ _ s4 hsem => ?_⟩
  cases hsem
  exact fun s5 hs5 => (((h.stable hs1).stable hs3).insert hd hstamp).stable hs5

include hd in
theorem payAndRecord_holds (h : Recorded cfg d s) (hcool : CooledDown cfg d s) :
    (payAndRecord r).Holds (claimSetting cfg d) (fun _ => Recorded cfg d) (fun _ => Recorded cfg d) s := by
  refine Prog.Holds.op fun s1 hs1 => ⟨h.stable hs1, fun x hx reply s2 hsem => ?_⟩
  have hsome : (cfg.scriptOf r.address).isSome = true := by rw [hd]; rfl
  cases x with
  | none => cases hsem
  | limited => cases hsem
  | error =>
    cases hsem
    exact fun s3 hs3 => (h.stable hs1).stable hs3
  | lost txid =>
    cases txid with
    | none =>
      cases hsem
      exact fun s3 hs3 => (h.stable hs1).stable hs3
    | some txid => exact absurd rfl (hx r.address txid rfl)
  | sent txid =>
    simp only [claimSetting, sem, hsome, if_true] at hsem
    cases hsem
    refine recordClaim_holds hd s1.now txid ⟨(h.stable hs1).spaced.pay hd (hcool.stable hs1) txid, ?_, le_refl _⟩
    intro p hp
    rw [payoutsTo_pay hd, List.mem_append, List.mem_singleton] at hp
    rcases hp with hp | rfl
    · exact .inl ((h.stable hs1).recorded p hp)
    · exact .inr ⟨rfl, le_refl _⟩

include hd in
theorem payIfCooledDown_holds (h : Recorded cfg d s) (hspelled : ∀ p ∈ s.payoutsTo cfg d, p.address = r.address) :
    (payIfCooledDown cfg r).Holds (claimSetting cfg d) (fun _ => Recorded cfg d) (fun _ => Recorded cfg d) s := by
  refine Prog.Holds.op fun s1 hs1 => ⟨h.stable hs1, fun x _ last s2 hsem => ?_⟩
  cases hsem
  have hlast : ∀ p ∈ s1.payoutsTo cfg d, ∃ last, s1.lastClaim r.address = some last ∧ p.time ≤ last := by
    intro p hp
    have haddress := hspelled p (hs1.payouts ▸ hp)
    exact haddress ▸ ((h.stable hs1).recorded p hp).le_lastClaim
  cases hclaim : s1.lastClaim r.address with
  | none =>
    refine payAndRecord_holds hd (h.stable hs1) fun p hp => ?_
    obtain ⟨last, hsome, -⟩ := hlast p hp
    rw [hclaim] at hsome
    cases hsome
  | some last =>
    refine Prog.Holds.op fun s3 hs3 => ⟨(h.stable hs1).stable hs3, fun x _ now s4 hsem => ?_⟩
    cases hsem
    refine Prog.Holds.ite (fun _ s5 hs5 => ((h.stable hs1).stable hs3).stable hs5) fun hcool => ?_
    refine payAndRecord_holds hd ((h.stable hs1).stable hs3) fun p hp => ?_
    rw [hs3.payouts] at hp
    obtain ⟨last', hsome, hle⟩ := hlast p hp
    rw [hclaim] at hsome
    cases hsome
    exact (not_lt.1 hcool).trans (by gcongr)

include hd in
/-- **The triple of a claim** among requests for other destinations, if the payments so far were to the same address. -/
theorem claim_holds (h : Recorded cfg d s) (hspelled : ∀ p ∈ s.payoutsTo cfg d, p.address = r.address) :
    (claim cfg r).Holds (claimSetting cfg d) (fun _ => Recorded cfg d) (fun _ => Recorded cfg d) s := by
  have hraise : ∀ {e : Refusal} {s : State}, Recorded cfg d s →
      (Prog.raise e : FProg Unit).Holds (claimSetting cfg d) (fun _ => Recorded cfg d) (fun _ => Recorded cfg d) s :=
    fun h s1 hs1 => h.stable hs1
  refine Prog.Holds.op fun s1 hs1 => ⟨h.stable hs1, fun x _ limited s2 hsem => ?_⟩
  have hs2 : Undisturbed cfg d s s2 := by
    cases x <;> cases hsem <;> exact hs1
  have h2 := h.stable hs2
  refine Prog.Holds.ite (fun _ => hraise h2) fun _ => Prog.Holds.ite (fun _ => hraise h2) fun _ =>
    Prog.Holds.ite (fun _ => hraise h2) fun _ => ?_
  refine Prog.Holds.op fun s3 hs3 => ⟨h2.stable hs3, fun x _ reply s4 hsem => ?_⟩
  have h3 := h2.stable hs3
  cases x with
  | sent txid => cases hsem
  | limited => cases hsem
  | error =>
    cases hsem
    exact hraise h3
  | lost txid =>
    cases hsem
    exact hraise h3
  | none =>
    cases hsem
    refine Prog.Holds.ite (fun _ => payIfCooledDown_holds hd h3 fun p hp => ?_) fun _ => hraise h3
    rw [hs3.payouts, hs2.payouts] at hp
    exact hspelled p hp

end Destination

/-! ## Runs -/

/-- The operations of a claim name its address. -/
def Request.ops (r : Request) : Op → Prop
  | .sendToAddress address => address = r.address
  | .insert row => row.address = r.address
  | _ => True

theorem claim_within (cfg : Config) (r : Request) : (claim cfg r).Within r.ops := by
  have hpay : (payAndRecord r).Within r.ops := by
    refine Prog.Within.op rfl fun reply => ?_
    cases reply with
    | ok txid => exact ⟨trivial, fun _ => ⟨rfl, fun _ => trivial⟩⟩
    | rpcError => trivial
    | exception => trivial
  have hcool : (payIfCooledDown cfg r).Within r.ops := by
    refine Prog.Within.op trivial fun last => ?_
    cases last with
    | none => exact hpay
    | some last => exact Prog.Within.op trivial fun _ => .ite (fun _ => trivial) fun _ => hpay
  refine Prog.Within.op trivial fun _ => .ite (fun _ => trivial) fun _ => .ite (fun _ => trivial) fun _ =>
    .ite (fun _ => trivial) fun _ => Prog.Within.op trivial fun reply => ?_
  cases reply with
  | ok valid => exact .ite (fun _ => hcool) fun _ => trivial
  | rpcError => trivial
  | exception => trivial

def Config.sameScript (cfg : Config) (a b : String) : Bool :=
  (cfg.scriptOf a).isSome && decide (cfg.scriptOf a = cfg.scriptOf b)

def Op.recording : Op → Bool
  | stamp => true
  | insert _ => true
  | _ => false

def paysUnnoticed : Option Op → Answer → Bool
  | some (.sendToAddress _), .lost (some _) => true
  | _, _ => false

/-- Claims for one script come in one at a time, all with the same address; none dies between its payment and its
record, and no answer to a payment is lost. -/
def claimsApart (cfg : Config) (P : FPool) : FEvent → Bool
  | .spawn r => !P.busy (fun u => cfg.sameScript r.address u.address) &&
      P.state.payouts.all fun p => !cfg.sameScript r.address p.address || decide (p.address = r.address)
  | .step i x => !paysUnnoticed (P.next i) x
  | .kill i => !(P.next i).any Op.recording
  | .ext _ => true

section Runs

variable {cfg : Config} {d : CScript}

theorem undisturbed_of_step {r : Request} {o : Op} {x : Answer} {s s' : State} {res : o.Res}
    (hr : cfg.scriptOf r.address ≠ some d)
    (hop : r.ops o) (hsem : sem cfg o x s = some (res, s')) : Undisturbed cfg d s s' := by
  have hpay : ∀ txid, Undisturbed cfg d s (s.pay r.address txid) := fun txid =>
    ⟨le_refl _, by simp [State.payoutsTo, State.pay, hr], rfl⟩
  cases o with
  | hit ip => cases x <;> cases hsem <;> exact ⟨le_refl _, rfl, rfl⟩
  | validateAddress address => cases x <;> cases hsem <;> exact ⟨le_refl _, rfl, rfl⟩
  | lastClaim address => cases hsem; exact ⟨le_refl _, rfl, rfl⟩
  | time => cases hsem; exact ⟨le_refl _, rfl, rfl⟩
  | stamp => cases hsem; exact ⟨le_refl _, rfl, rfl⟩
  | sendToAddress address =>
    obtain rfl : address = r.address := hop
    cases x with
    | none => cases hsem
    | limited => cases hsem
    | error => cases hsem; exact ⟨le_refl _, rfl, rfl⟩
    | sent txid =>
      simp only [sem] at hsem
      split at hsem
      · cases hsem
        exact hpay txid
      · cases hsem
    | lost txid =>
      cases txid with
      | none => cases hsem; exact ⟨le_refl _, rfl, rfl⟩
      | some txid =>
        simp only [sem] at hsem
        split at hsem
        · cases hsem
          exact hpay txid
        · cases hsem
  | insert row =>
    cases hsem
    have hrow : cfg.scriptOf row.address ≠ some d := by
      rw [show row.address = r.address from hop]
      exact hr
    exact ⟨le_refl _, rfl, by simp [State.claimsTo, hrow]⟩

theorem claims_exclusive (cfg : Config) (d : CScript) :
    Exclusive (faucet cfg) (claimsApart cfg) (fun r => decide (cfg.scriptOf r.address = some d)) Request.ops
      (claimSetting cfg d) (Recorded cfg d) where
  sem := rfl
  stable _ _ h hs := h.stable hs
  within := claim_within cfg
  alone P r hA hr := by
    have hr : cfg.scriptOf r.address = some d := of_decide_eq_true hr
    simp only [claimsApart, Bool.and_eq_true, Bool.not_eq_true'] at hA
    have hsame : (fun u : Request => cfg.sameScript r.address u.address) =
        fun u => decide (cfg.scriptOf u.address = some d) := by
      funext u
      simp [Config.sameScript, hr, eq_comm]
    rw [← hsame]
    exact hA.1
  start P r hA hr hJ := by
    have hr : cfg.scriptOf r.address = some d := of_decide_eq_true hr
    simp only [claimsApart, Bool.and_eq_true, List.all_eq_true] at hA
    refine claim_holds hr hJ fun p hp => ?_
    obtain ⟨hp, hscript⟩ := List.mem_filter.1 hp
    have hsame : cfg.sameScript r.address p.address = true := by
      simp [Config.sameScript, hr, of_decide_eq_true hscript]
    have := hA.2 p hp
    rw [hsame] at this
    exact of_decide_eq_true this
  may P i x r p o hA hi _ ho := by
    rintro address txid rfl rfl
    simp only [claimsApart, Pool.next, hi, Option.bind_some, ho, paysUnnoticed] at hA
    cases hA
  others P i x r p o res s' _ _ hr _ hop hsem := by
    have hs := undisturbed_of_step (of_decide_eq_false hr) hop hsem
    exact ⟨fun _ => hs, fun _ hJ => hJ.stable hs⟩
  kill P i r p o hA hi _ ho hpre := by
    simp only [claimsApart, Pool.next, hi, Option.bind_some, ho, Option.any_some, Bool.not_eq_true'] at hA
    cases o with
    | stamp => cases hA
    | insert row => cases hA
    | hit ip => exact hpre
    | validateAddress address => exact hpre
    | lastClaim address => exact hpre
    | time => exact hpre
    | sendToAddress address => exact hpre
  ext P seconds s' _ hext := by
    have hs : Undisturbed cfg d P.state s' := by
      simp only [faucet] at hext
      split at hext
      next hnonneg =>
        cases hext
        exact ⟨le_add_of_nonneg_right hnonneg, rfl, rfl⟩
      · cases hext
    exact ⟨fun _ => hs, fun _ hJ => hJ.stable hs⟩

end Runs

/-- **The cooldown.** In every run in which claims for one script come in one at a time and with one address, and every
payment is recorded, two payments to one script are `COOLDOWN_HOURS` apart. -/
theorem payouts_spaced (cfg : Config) {P : FPool} (h : Reachable (faucet cfg) (claimsApart cfg) {} P) (d : CScript) :
    (P.state.payoutsTo cfg d).Pairwise (Apart cfg) := by
  have hinit : Recorded cfg d ({} : State) := ⟨List.Pairwise.nil, fun p hp => (List.not_mem_nil hp).elim⟩
  refine (h.exclusive (claims_exclusive cfg d) hinit).always (fun s hs => hs.spaced) fun o s hs => ?_
  cases o with
  | stamp => exact hs
  | insert row => exact hs
  | hit ip => exact hs.spaced
  | validateAddress address => exact hs.spaced
  | lastClaim address => exact hs.spaced
  | time => exact hs.spaced
  | sendToAddress address => exact hs.spaced

def sampleConfig : Config where
  cooldownHours := 24
  scriptOf address := if address = "cac1" ∨ address = "CAC1" then some [1] else none

def payingSteps (i : Nat) : List FEvent := [.none, .none, .none, .sent i].map (.step i)

def dailyClaims : List FEvent :=
  .spawn ⟨"cac1", false, 1⟩ :: payingSteps 0 ++ [.step 0 .none, .step 0 .none, .ext 86400, .spawn ⟨"cac1", false, 1⟩] ++
    [.none, .none, .none, .none, .sent 1, .none, .none].map (.step 1)

theorem dailyClaims_spaced :
    ∃ P : FPool, Reachable (faucet sampleConfig) (claimsApart sampleConfig) {} P ∧
      P.state.payouts.map (·.time) = [0, 86400] ∧
      (P.state.payoutsTo sampleConfig [1]).Pairwise (Apart sampleConfig) := by
  have hrun : ∃ P : FPool, Reachable (faucet sampleConfig) (claimsApart sampleConfig) {} P ∧
      P.state.payouts.map (·.time) = [0, 86400] :=
    Reachable.exists_of_run dailyClaims (by decide +kernel)
  obtain ⟨P, hreach, htimes⟩ := hrun
  exact ⟨P, hreach, htimes, payouts_spaced sampleConfig hreach [1]⟩

def racingClaims : List FEvent :=
  [.spawn ⟨"cac1", false, 1⟩, .spawn ⟨"cac1", false, 2⟩] ++ [.none, .none, .none].map (.step 0) ++ payingSteps 1 ++
    [.step 1 .none, .step 1 .none, .step 0 (.sent 0)]

def dyingClaim : List FEvent :=
  .spawn ⟨"cac1", false, 1⟩ :: payingSteps 0 ++ [.kill 0, .spawn ⟨"cac1", false, 2⟩] ++ payingSteps 1

def respelledClaim : List FEvent :=
  .spawn ⟨"cac1", false, 1⟩ :: payingSteps 0 ++ [.step 0 .none, .step 0 .none, .spawn ⟨"CAC1", false, 2⟩] ++ payingSteps 1

theorem payouts_too_close : [racingClaims, dyingClaim, respelledClaim].Forall fun events =>
    ∃ P : FPool, Pool.run (faucet sampleConfig) (fun _ _ => true) { state := {} } events = some P ∧
      ¬(P.state.payoutsTo sampleConfig [1]).Pairwise (Apart sampleConfig) := by
  have hruns : ∀ events ∈ [racingClaims, dyingClaim, respelledClaim],
      (Pool.run (faucet sampleConfig) (fun _ _ => true) { state := {} } events).any (fun P =>
        decide (¬(P.state.payoutsTo sampleConfig [1]).Pairwise (Apart sampleConfig))) = true := by
    decide +kernel
  refine List.forall_iff_forall_mem.2 fun events hevents => ?_
  obtain ⟨P, hP, hclose⟩ := (Option.any_eq_true _ _).1 (hruns events hevents)
  exact ⟨P, hP, of_decide_eq_true hclose⟩

end CodexaCoin.Faucet
