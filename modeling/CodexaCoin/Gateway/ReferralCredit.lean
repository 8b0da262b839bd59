import CodexaCoin.Gateway.Programs

/-!
# Referral credits

A pass of the watcher marks a deposit active and credits the referrer in separate steps. The pass can be killed between
them, and another pass can overtake it.
-/

namespace CodexaCoin.Gateway

open Process Table

/-! ## The credits that should be there -/

variable (cfg : Config)

def ReferralCredit.opened (c : ReferralCredit) : ReferralCredit := { c with withdrawalTxid := none }

def State.openCredits (s : State) : List ReferralCredit := s.db.referralCredits.map ReferralCredit.opened

/-- The credit for a user: for the first activation, if the user was referred and the reward is positive. -/
def dueCredit (users : List User) (log : List Activation) (userId : UserId) : Option ReferralCredit :=
  match (users.find? fun v => decide (v.id = userId)).bind (·.referredBy),
    log.find? fun a => decide (a.userId = userId) with
  | some referrer, some a =>
      if 1 ≤ Referral.rewardSatoshis cfg a.amount then some (Referral.creditRow cfg referrer userId a.depositId a.amount)
      else none
  | _, _ => none

/-- The credits of every user are what is due after some activations. -/
def CreditedFor (log : List Activation) (s : State) : Prop :=
  ∀ userId, s.openCredits.filter (fun c => decide (c.referredUserId = userId)) =
    (dueCredit cfg s.db.users log userId).toList

section

variable {cfg} {users : List User} {log : List Activation} {userId : UserId}

theorem dueCredit_append {a a' : Activation} (ha' : a' ∈ log) (huser : a'.userId = userId) :
    dueCredit cfg users (log ++ [a]) userId = dueCredit cfg users log userId := by
  have hfind : (log ++ [a]).find? (fun a => decide (a.userId = userId)) =
      log.find? fun a => decide (a.userId = userId) := by
    rw [List.find?_append]
    cases hlog : log.find? fun a => decide (a.userId = userId) with
    | some _ => rfl
    | none => exact absurd huser (by simpa using List.find?_eq_none.1 hlog a' ha')
  rw [dueCredit, dueCredit, hfind]

theorem dueCredit_append_of_ne {a : Activation} (huser : a.userId ≠ userId) :
    dueCredit cfg users (log ++ [a]) userId = dueCredit cfg users log userId := by
  have hfind : (log ++ [a]).find? (fun a => decide (a.userId = userId)) =
      log.find? fun a => decide (a.userId = userId) := by
    simp [List.find?_append, huser]
  rw [dueCredit, dueCredit, hfind]

theorem dueCredit_of_no_activation (h : ∀ a ∈ log, a.userId ≠ userId) : dueCredit cfg users log userId = none := by
  have hfind : log.find? (fun a => decide (a.userId = userId)) = none :=
    List.find?_eq_none.2 fun a ha => by simpa using h a ha
  rw [dueCredit, hfind]
  split
  · next h => cases h
  · rfl

theorem dueCredit_users {users' : List User} (hmore : users <+: users')
    (h : ∀ a ∈ log, a.userId ∈ users.map (·.id)) :
    dueCredit cfg users' log userId = dueCredit cfg users log userId := by
  by_cases hlog : ∃ a ∈ log, a.userId = userId
  · obtain ⟨a, ha, rfl⟩ := hlog
    obtain ⟨more, rfl⟩ := hmore
    obtain ⟨v, hv, hid⟩ := List.mem_map.1 (h a ha)
    have hfind : (users ++ more).find? (fun v => decide (v.id = a.userId)) =
        users.find? fun v => decide (v.id = a.userId) := by
      rw [List.find?_append]
      cases husers : users.find? fun v => decide (v.id = a.userId) with
      | some _ => rfl
      | none => exact absurd hid (by simpa using List.find?_eq_none.1 husers v hv)
    rw [dueCredit, dueCredit, hfind]
  · have hnone : ∀ a ∈ log, a.userId ≠ userId := fun a ha heq => hlog ⟨a, ha, heq⟩
    rw [dueCredit_of_no_activation hnone, dueCredit_of_no_activation hnone]

end

/-! ## Users, deposits and activations -/

/-- Deposits belong to users who have signed up, and the funded ones are those that were activated. -/
structure Registered (s : State) : Prop where
  deposits : ∀ d ∈ s.db.stakeDeposits, d.userId ∈ s.db.users.map (·.id)
  referrers : ∀ v ∈ s.db.users, v.referredBy ≠ some 0
  noted : ∀ a ∈ s.activations, ∃ d ∈ s.db.stakeDeposits, d.id = a.depositId ∧ d.userId = a.userId ∧
    d.status ≠ .awaitingFunds
  funded : ∀ d ∈ s.db.stakeDeposits, d.status ≠ .awaitingFunds →
    ∃ a ∈ s.activations, a.depositId = d.id ∧ a.userId = d.userId

section

variable {s s' : State}

theorem Registered.users (h : Registered s) {a : Activation} (ha : a ∈ s.activations) :
    a.userId ∈ s.db.users.map (·.id) := by
  obtain ⟨d, hd, -, huser, -⟩ := h.noted a ha
  exact huser ▸ h.deposits d hd

theorem Registered.insertDeposit (h : Registered s) {v : UserId} (hv : v ∈ s.db.users.map (·.id)) (address : Address) :
    Registered (s.runSql (.insertDeposit v address)).2 := by
  have husers : (s.runSql (.insertDeposit v address)).2.db.users = s.db.users := Db.insertDeposit_users v address
  refine ⟨?_, ?_, ?_, ?_⟩
  · intro d hd
    rw [husers]
    rcases Db.mem_insertDeposit.1 hd with hd | ⟨-, rfl⟩
    · exact h.deposits d hd
    · exact hv
  · rw [husers]
    exact h.referrers
  · intro a ha
    obtain ⟨d, hd, hrest⟩ := h.noted a ha
    exact ⟨d, Db.mem_insertDeposit.2 (.inl hd), hrest⟩
  · intro d hd hst
    rcases Db.mem_insertDeposit.1 hd with hd | ⟨-, rfl⟩
    · exact h.funded d hd hst
    · exact absurd rfl hst

theorem Registered.updateDeposits (h : Registered s) (db' : Db) (husers : db'.users = s.db.users)
    {u : StakeDeposit → StakeDeposit} (hdeposits : db'.stakeDeposits = s.db.stakeDeposits.map u)
    (hu : ∀ d, (u d).id = d.id ∧ (u d).userId = d.userId ∧ ((u d).status = .awaitingFunds ↔ d.status = .awaitingFunds)) :
    Registered { s with db := db' } := by
  refine ⟨?_, ?_, ?_, ?_⟩
  · show ∀ d ∈ db'.stakeDeposits, d.userId ∈ db'.users.map (·.id)
    rw [hdeposits, husers]
    intro d hd
    obtain ⟨d', hd', rfl⟩ := List.mem_map.1 hd
    rw [(hu d').2.1]
    exact h.deposits d' hd'
  · show ∀ v ∈ db'.users, v.referredBy ≠ some 0
    rw [husers]
    exact h.referrers
  · intro a ha
    obtain ⟨d, hd, hid, huser, hst⟩ := h.noted a ha
    refine ⟨u d, hdeposits.symm ▸ List.mem_map_of_mem hd, ?_⟩
    exact ⟨(hu d).1.trans hid, (hu d).2.1.trans huser, fun h => hst ((hu d).2.2.1 h)⟩
  · show ∀ d ∈ db'.stakeDeposits, d.status ≠ .awaitingFunds → _
    rw [hdeposits]
    intro d hd hst
    obtain ⟨d', hd', rfl⟩ := List.mem_map.1 hd
    rw [(hu d').1, (hu d').2.1]
    exact h.funded d' hd' fun h => hst ((hu d').2.2.2 h)

theorem Registered.activateDeposit (h : Registered s) (id : DepositId) (funding : COutPoint) (amount : Int) :
    Registered (s.runSql (.activateDeposit id funding amount)).2 := by
  have hlog : ∀ a, a ∈ (s.runSql (.activateDeposit id funding amount)).2.activations ↔
      a ∈ s.activations ∨ ∃ d ∈ s.db.stakeDeposits, d.id = id ∧ ⟨d.userId, id, amount⟩ = a := by
    intro a
    show a ∈ s.activations ++ _ ↔ _
    simp only [List.mem_append, List.mem_map, List.mem_filter, decide_eq_true_eq, and_assoc]
  refine ⟨?_, h.referrers, ?_, ?_⟩
  · intro d hd
    obtain ⟨d', hd', rfl⟩ := Db.mem_activateDeposit.1 hd
    split
    · exact h.deposits d' hd'
    · exact h.deposits d' hd'
  · intro a ha
    rcases (hlog a).1 ha with ha | ⟨d, hd, hid, rfl⟩
    · obtain ⟨d, hd, hid, huser, hst⟩ := h.noted a ha
      refine ⟨_, Db.mem_activateDeposit.2 ⟨d, hd, rfl⟩, ?_⟩
      split
      · exact ⟨hid, huser, by simp⟩
      · exact ⟨hid, huser, hst⟩
    · refine ⟨_, Db.mem_activateDeposit.2 ⟨d, hd, rfl⟩, ?_⟩
      rw [if_pos hid]
      exact ⟨hid, rfl, by simp⟩
  · intro d hd hst
    obtain ⟨d', hd', rfl⟩ := Db.mem_activateDeposit.1 hd
    split
    · next hid => exact ⟨_, (hlog _).2 (.inr ⟨d', hd', hid, rfl⟩), hid.symm, rfl⟩
    · next hid =>
      rw [if_neg hid] at hst
      obtain ⟨a, ha, hrest⟩ := h.funded d' hd' hst
      exact ⟨a, (hlog a).2 (.inl ha), hrest⟩

theorem Registered.closeDeposits (h : Registered s) (v : UserId) : Registered (s.runSql (.closeDeposits v)).2 := by
  refine h.updateDeposits (s.db.closeDeposits v) rfl rfl fun d => ?_
  dsimp only
  split
  · next hst => exact ⟨rfl, rfl, by simp [(of_decide_eq_true hst).2]⟩
  · exact ⟨rfl, rfl, Iff.rfl⟩

theorem Registered.congr (h : Registered s) (husers : s'.db.users = s.db.users)
    (hdeposits : s'.db.stakeDeposits = s.db.stakeDeposits) (hlog : s'.activations = s.activations) : Registered s' := by
  refine ⟨?_, ?_, ?_, ?_⟩
  · rw [hdeposits, husers]
    exact h.deposits
  · rw [husers]
    exact h.referrers
  · rw [hlog, hdeposits]
    exact h.noted
  · rw [hlog, hdeposits]
    exact h.funded

theorem Registered.signup (h : Registered s) {referredBy : Option UserId}
    (hr : ∀ r ∈ referredBy, r ∈ s.db.users.map (·.id)) : Registered { s with db := s.db.insertUser referredBy } := by
  refine ⟨?_, ?_, h.noted, h.funded⟩
  · intro d hd
    rw [Db.insertUser_users, List.map_append]
    exact List.mem_append_left _ (h.deposits d hd)
  · intro v hv
    rw [Db.insertUser_users, List.mem_append, List.mem_singleton] at hv
    rcases hv with hv | rfl
    · exact h.referrers v hv
    · rintro rfl
      have hzero := hr 0 rfl
      rw [s.db.users_id] at hzero
      simp [autoincrement] at hzero

end

/-! ## What the others leave as it is -/

/-- A step that activates nothing, credits nothing and keeps the users and the deposits that await their funds. -/
structure CreditsKept (s s' : State) : Prop where
  activations : s'.activations = s.activations
  credits : s'.openCredits = s.openCredits
  users : s.db.users <+: s'.db.users
  awaiting : ∀ d ∈ s.db.stakeDeposits, d.status = .awaitingFunds → d ∈ s'.db.stakeDeposits
  registered : Registered s → Registered s'

/-- Every referred user has one credit, for the first funded deposit, if that is worth one. -/
structure Credited (s : State) : Prop where
  registered : Registered s
  credited : CreditedFor cfg s.activations s

def creditSetting : Prog.Setting Op Op.Res State Answer where
  sem := sem
  pre o s := (∀ q, o = .sql q → q.isReferralCheck = false) → Credited cfg s
  rely := CreditsKept
  rely_refl _ := ⟨rfl, rfl, List.prefix_refl _, fun _ hd _ => hd, fun h => h⟩
  rely_trans h h' := ⟨h'.activations.trans h.activations, h'.credits.trans h.credits, h.users.trans h'.users,
    fun d hd hst => h'.awaiting d (h.awaiting d hd hst) hst, fun hr => h'.registered (h.registered hr)⟩

section

variable {cfg} {s s' : State} {log : List Activation} {dep : StakeDeposit}

theorem CreditedFor.stable (h : CreditedFor cfg log s) (hr : Registered s)
    (hlog : ∀ a ∈ log, a ∈ s.activations) (hs : CreditsKept s s') : CreditedFor cfg log s' := by
  intro userId
  rw [hs.credits, h userId, dueCredit_users hs.users fun a ha => hr.users (hlog a ha)]

theorem Credited.stable (h : Credited cfg s) (hs : CreditsKept s s') : Credited cfg s' := by
  refine ⟨hs.registered h.registered, ?_⟩
  rw [hs.activations]
  exact h.credited.stable h.registered (fun _ ha => ha) hs

theorem Credited.pre (h : Credited cfg s) (o : Op) : (creditSetting cfg).pre o s := fun _ => h

/-- A deposit has just been activated, and its user's credit is still to be checked. -/
structure Pending (cfg : Config) (dep : StakeDeposit) (amount : Int) (log : List Activation) (s : State) : Prop where
  registered : Registered s
  activations : s.activations = log ++ [⟨dep.userId, dep.id, amount⟩]
  fresh : ∀ a ∈ log, a.depositId ≠ dep.id
  credited : CreditedFor cfg log s

theorem Pending.stable {amount : Int} (h : Pending cfg dep amount log s)
    (hs : CreditsKept s s') : Pending cfg dep amount log s' := by
  refine ⟨hs.registered h.registered, hs.activations.trans h.activations, h.fresh, ?_⟩
  refine h.credited.stable h.registered (fun a ha => ?_) hs
  rw [h.activations]
  exact List.mem_append_left _ ha

section Check

variable {dep : StakeDeposit} {amount : Int} {log : List Activation} {referrer : UserId}

theorem Pending.done (h : Pending cfg dep amount log s)
    (hdue : dueCredit cfg s.db.users (log ++ [⟨dep.userId, dep.id, amount⟩]) dep.userId =
      dueCredit cfg s.db.users log dep.userId) : Credited cfg s := by
  refine ⟨h.registered, fun userId => ?_⟩
  rw [h.activations, h.credited userId]
  by_cases huser : dep.userId = userId
  · subst huser
    rw [hdue]
  · rw [dueCredit_append_of_ne huser]

theorem Pending.done_of_earlier (h : Pending cfg dep amount log s) {a : Activation} (ha : a ∈ log)
    (huser : a.userId = dep.userId) : Credited cfg s :=
  h.done (dueCredit_append ha huser)

theorem Pending.done_of_credit (h : Pending cfg dep amount log s) {c : ReferralCredit}
    (hc : c ∈ s.db.referralCredits) (huser : c.referredUserId = dep.userId) : Credited cfg s := by
  by_cases hlog : ∃ a ∈ log, a.userId = dep.userId
  · obtain ⟨a, ha, heq⟩ := hlog
    exact h.done_of_earlier ha heq
  · have hnone : dueCredit cfg s.db.users log dep.userId = none :=
      dueCredit_of_no_activation fun a ha heq => hlog ⟨a, ha, heq⟩
    have hmem : c.opened ∈ s.openCredits.filter fun c => decide (c.referredUserId = dep.userId) :=
      List.mem_filter.2 ⟨List.mem_map_of_mem hc, decide_eq_true huser⟩
    rw [h.credited dep.userId, hnone] at hmem
    cases hmem

theorem Pending.done_of_deposit (h : Pending cfg dep amount log s) {d : StakeDeposit} (hd : d ∈ s.db.stakeDeposits)
    (huser : d.userId = dep.userId) (hst : d.status ≠ .awaitingFunds) (hid : d.id ≠ dep.id) : Credited cfg s := by
  obtain ⟨a, ha, hdeposit, hauser⟩ := h.registered.funded d hd hst
  rw [h.activations, List.mem_append, List.mem_singleton] at ha
  rcases ha with ha | rfl
  · exact h.done_of_earlier ha (hauser.trans huser)
  · exact absurd hdeposit.symm hid

theorem Pending.first (h : Pending cfg dep amount log s)
    (hprior : s.db.stakeDeposits.countP (fun d => decide (d.userId = dep.userId ∧ d.status ≠ .awaitingFunds ∧
      d.id ≠ dep.id)) = 0) : ∀ a ∈ log, a.userId ≠ dep.userId := by
  intro a ha huser
  have ha' : a ∈ s.activations := h.activations.symm ▸ List.mem_append_left _ ha
  obtain ⟨d, hd, hid, hduser, hst⟩ := h.registered.noted a ha'
  refine List.countP_eq_zero.1 hprior d hd (decide_eq_true ⟨hduser.trans huser, hst, ?_⟩)
  exact fun heq => h.fresh a ha (hid.symm.trans heq)

theorem dueCredit_first {users : List User} (hfirst : ∀ a ∈ log, a.userId ≠ dep.userId)
    (huser : (users.find? fun v => decide (v.id = dep.userId)).bind (·.referredBy) = some referrer) :
    dueCredit cfg users (log ++ [⟨dep.userId, dep.id, amount⟩]) dep.userId =
      if 1 ≤ Referral.rewardSatoshis cfg amount then some (Referral.creditRow cfg referrer dep.userId dep.id amount)
      else none := by
  have hfind : (log ++ [⟨dep.userId, dep.id, amount⟩] : List Activation).find?
      (fun a => decide (a.userId = dep.userId)) = some ⟨dep.userId, dep.id, amount⟩ := by
    rw [List.find?_append, List.find?_eq_none.2 fun a ha => by simpa using hfirst a ha]
    simp
  rw [dueCredit, huser, hfind]

theorem Pending.insertCredit (h : Pending cfg dep amount log s) (hfirst : ∀ a ∈ log, a.userId ≠ dep.userId)
   
    (huser : (s.db.users.find? fun v => decide (v.id = dep.userId)).bind (·.referredBy) = some referrer)
    (hreward : ¬Referral.rewardSatoshis cfg amount ≤ 0) :
    Credited cfg (s.runSql (.insertCredit (Referral.creditRow cfg referrer dep.userId dep.id amount))).2 := by
  refine ⟨h.registered.congr rfl rfl rfl, fun userId => ?_⟩
  show (List.map _ (s.db.referralCredits ++ [_])).filter _ = (dueCredit cfg s.db.users s.activations userId).toList
  rw [List.map_append, List.filter_append, h.activations]
  refine Eq.trans (congrArg (· ++ _) (h.credited userId)) ?_
  by_cases hu : dep.userId = userId
  · subst hu
    rw [dueCredit_of_no_activation hfirst, dueCredit_first hfirst huser, if_pos (by omega)]
    simp [ReferralCredit.opened, Referral.creditRow]
  · rw [dueCredit_append_of_ne hu]
    simp [ReferralCredit.opened, Referral.creditRow, hu]

theorem pre_check {q : Stmt} (hq : q.isReferralCheck = true) : (creditSetting cfg).pre (.sql q) s := by
  intro h
  rw [h q rfl] at hq
  cases hq

/-- **The check after an activation credits what is due,** and keeps what no credit can break. -/
theorem creditReferralIfEligible_credits {K : State → Prop} (hstable : ∀ s s', K s → CreditsKept s s' → K s')
    (hcredit : ∀ s credit, K s → K (s.runSql (.insertCredit credit)).2) (h : Pending cfg dep amount log s) (hK : K s) :
    (Referral.creditReferralIfEligible cfg dep.userId dep.id amount).Holds (creditSetting cfg)
      (fun _ s' => Credited cfg s' ∧ K s') (fun _ => Credited cfg) s := by
  have hdone : ∀ s, Credited cfg s → K s → (pure () : GProg Unit).Holds (creditSetting cfg)
      (fun _ s' => Credited cfg s' ∧ K s') (fun _ => Credited cfg) s :=
    fun s hs hK s' hrely => ⟨hs.stable hrely, hstable s s' hK hrely⟩
  refine sql_holds rfl fun s1 hs1 => ⟨pre_check rfl, fun _ _ => ?_⟩
  have h1 := h.stable hs1
  have hK1 := hstable s s1 hK hs1
  -- The user's row is read once; later users come after it.
  have huser : ∀ s', CreditsKept s1 s' → ∀ referrer,
      (s1.db.users.find? fun v => decide (v.id = dep.userId)).bind (·.referredBy) = some referrer →
      (s'.db.users.find? fun v => decide (v.id = dep.userId)).bind (·.referredBy) = some referrer := by
    intro s' hs' referrer hr
    obtain ⟨v, hv, hr⟩ := Option.bind_eq_some_iff.1 hr
    rw [hs'.users.find?_eq_some hv]
    exact hr
  split
  · next hnone =>
    refine hdone s1 (h1.done ?_) hK1
    have hnone' : (s1.db.users.find? fun v => decide (v.id = dep.userId)).bind (·.referredBy) = none := hnone
    rw [dueCredit, dueCredit, hnone']
  · next referrer hreferrer =>
    refine .ite (fun hzero => ?_) fun _ => ?_
    · obtain ⟨v, hv, hr⟩ := Option.bind_eq_some_iff.1 hreferrer
      rw [hzero] at hr
      exact absurd hr (h1.registered.referrers v (List.mem_of_find?_eq_some hv))
    refine sql_holds rfl fun s2 hs2 => ⟨pre_check rfl, fun _ _ => ?_⟩
    have h2 := h1.stable hs2
    have hK2 := hstable s1 s2 hK1 hs2
    refine .ite (fun halready => ?_) fun _ => ?_
    · obtain ⟨c, hc, heq⟩ := List.any_eq_true.1 halready
      exact hdone s2 (h2.done_of_credit hc (of_decide_eq_true heq)) hK2
    refine sql_holds rfl fun s3 hs3 => ⟨pre_check rfl, fun _ _ => ?_⟩
    have h3 := h2.stable hs3
    have hK3 := hstable s2 s3 hK2 hs3
    refine .ite (fun hprior => ?_) fun hprior => ?_
    · obtain ⟨d, hd, hp⟩ := List.countP_pos_iff.1 hprior
      obtain ⟨hduser, hst, hid⟩ := of_decide_eq_true hp
      exact hdone s3 (h3.done_of_deposit hd hduser hst hid) hK3
    have hfirst := h3.first (Nat.eq_zero_of_not_pos hprior)
    have hs13 := (creditSetting cfg).rely_trans hs2 hs3
    refine .ite (fun hreward => ?_) fun hreward => ?_
    · refine hdone s3 (h3.done ?_) hK3
      rw [dueCredit_first hfirst (huser s3 hs13 referrer hreferrer), dueCredit_of_no_activation hfirst,
        if_neg (by omega)]
    · refine sql_holds (f := Prog.ret) rfl fun s4 hs4 => ⟨pre_check rfl, fun _ _ => ?_⟩
      have hs14 := (creditSetting cfg).rely_trans hs13 hs4
      refine hdone _ ((h3.stable hs4).insertCredit hfirst (huser s4 hs14 referrer hreferrer) hreward) ?_
      exact hcredit s4 _ (hstable s3 s4 hK3 hs4)

end Check

/-! ## A pass -/

theorem Credited.activateDeposit (h : Credited cfg s) (hdep : dep ∈ s.db.stakeDeposits)
    (hawaiting : dep.status = .awaitingFunds) (funding : COutPoint) (amount : Int) :
    Pending cfg dep amount s.activations (s.runSql (.activateDeposit dep.id funding amount)).2 := by
  refine ⟨h.registered.activateDeposit dep.id funding amount, ?_, ?_, h.credited⟩
  · show s.activations ++ List.map _ (s.db.stakeDeposits.filter fun d => decide (d.id = dep.id)) = _
    rw [filter_key s.db.nodup_deposit_ids hdep]
    rfl
  · intro a ha hid
    obtain ⟨d, hd, hdid, -, hst⟩ := h.registered.noted a ha
    obtain rfl := s.db.deposit_ext hd hdep (hdid.trans hid)
    exact hst hawaiting

theorem markFunded_credits (h : Credited cfg s) (hdep : dep ∈ s.db.stakeDeposits)
    (hawaiting : dep.status = .awaitingFunds) :
    (Staking.markFunded cfg dep).Holds (creditSetting cfg)
      (fun _ s' => Credited cfg s' ∧ ∀ d, d.id ≠ dep.id → (d ∈ s.db.stakeDeposits ∧ d.status = .awaitingFunds) →
        d ∈ s'.db.stakeDeposits ∧ d.status = .awaitingFunds) (fun _ => Credited cfg) s := by
  -- The deposits of the later rounds still await their funds.
  let K := fun s' : State => ∀ d, d.id ≠ dep.id → (d ∈ s.db.stakeDeposits ∧ d.status = .awaitingFunds) →
    d ∈ s'.db.stakeDeposits ∧ d.status = .awaitingFunds
  have hstable : ∀ s1 s2, K s1 → CreditsKept s1 s2 → K s2 :=
    fun s1 s2 hK hs d hid hd => ⟨hs.awaiting d (hK d hid hd).1 hd.2, hd.2⟩
  refine rpc_holds rfl rfl fun s1 hs1 => ?_
  have h1 := h.stable hs1
  have hK1 : K s1 := hstable s s1 (fun _ _ hd => hd) hs1
  refine ⟨h1.pre _, fun _ => h1, fun _ utxos _ _ => ?_⟩
  cases utxos with
  | nil => exact fun s2 hs2 => ⟨h1.stable hs2, hstable s1 s2 hK1 hs2⟩
  | cons u us =>
    refine sql_holds rfl fun s2 hs2 => ?_
    have h2 := h1.stable hs2
    have hK2 := hstable s1 s2 hK1 hs2
    have hdep2 := hs2.awaiting dep (hs1.awaiting dep hdep hawaiting) hawaiting
    refine ⟨h2.pre _, fun _ _ => ?_⟩
    have hpending := h2.activateDeposit hdep2 hawaiting u.outpoint (readSatoshis u.amount)
    refine creditReferralIfEligible_credits hstable (fun _ _ hK => hK) hpending ?_
    exact fun d hid hd => ⟨Db.mem_activateDeposit.2 ⟨d, (hK2 d hid hd).1, (if_neg hid).symm⟩, hd.2⟩

theorem watcherPass_credits (h : Credited cfg s) :
    (Staking.watcherPass cfg).Holds (creditSetting cfg) (fun _ => Credited cfg) (fun _ => Credited cfg) s := by
  have hmark := markFundedDeposits_holds cfg (S := creditSetting cfg)
    (M := fun d s => d ∈ s.db.stakeDeposits ∧ d.status = .awaitingFunds) rfl (fun _ _ => Credited.stable)
    (fun d s s' _ hd hs => ⟨hs.awaiting d hd.1 hd.2, hd.2⟩) (fun o _ _ h => h.pre o) (fun _ _ _ hd hst => ⟨hd, hst⟩)
    (fun dep s hJ hdep => markFunded_credits hJ hdep.1 hdep.2) h
  refine Prog.Holds.bind (hmark.mono (fun _ s1 h1 => ?_) fun _ _ h => h)
  refine attributeRewards_holds cfg (M := fun _ _ => True) rfl (fun _ _ => Credited.stable) (fun _ _ _ _ _ _ => trivial)
    (fun o _ _ h => h.pre o) (fun _ _ _ _ _ => trivial) ?_ h1
  intro dep s2 h2 _
  refine (attributeDeposit_holds cfg rfl (fun _ _ => Credited.stable) (fun o _ h => h.pre o) ?_ h2).mono
    (fun _ _ h => ⟨h, fun _ _ => trivial⟩) fun _ _ h => h
  intro s3 txid gross h3
  refine h3.stable ⟨rfl, ?_, ?_, ?_, fun hr => hr.congr ?_ ?_ rfl⟩
  · exact congrArg (List.map ReferralCredit.opened) (Db.insertReward_referralCredits _)
  · exact (@Db.insertReward_users s3.db _).symm ▸ List.prefix_refl _
  · intro d hd _
    exact (@Db.insertReward_stakeDeposits s3.db _).symm ▸ hd
  · exact Db.insertReward_users _
  · exact Db.insertReward_stakeDeposits _

/-! ## The other requests and the outside -/

def Op.forUsers (s : State) : Op → Bool
  | .sql (.insertDeposit v _) => decide (v ∈ s.db.users.map (·.id))
  | _ => true

theorem CreditsKept.refl (s : State) : CreditsKept s s :=
  ⟨rfl, rfl, List.prefix_refl _, fun _ hd _ => hd, fun h => h⟩

theorem CreditsKept.insertDeposit {v : UserId} (hv : v ∈ s.db.users.map (·.id)) (address : Address) :
    CreditsKept s (s.runSql (.insertDeposit v address)).2 := by
  refine ⟨rfl, ?_, ?_, ?_, fun h => h.insertDeposit hv address⟩
  · exact congrArg (List.map ReferralCredit.opened) (Db.insertDeposit_referralCredits v address)
  · exact (@Db.insertDeposit_users s.db v address).symm ▸ List.prefix_refl _
  · exact fun d hd _ => Db.mem_insertDeposit.2 (.inl hd)

theorem CreditsKept.closeDeposits (v : UserId) : CreditsKept s (s.runSql (.closeDeposits v)).2 := by
  refine ⟨rfl, rfl, List.prefix_refl _, fun d hd hst => ?_, fun h => h.closeDeposits v⟩
  exact Db.mem_closeDeposits.2 ⟨d, hd, (if_neg (by simp [hst])).symm⟩

theorem CreditsKept.markCredits (v : UserId) (txid : Uint256) : CreditsKept s (s.runSql (.markCredits v txid)).2 := by
  refine ⟨rfl, ?_, List.prefix_refl _, fun d hd _ => hd, fun h => h.congr rfl rfl rfl⟩
  exact map_updateWhere fun _ => rfl

theorem CreditsKept.of_step {t : Request} {o : Op} {x : Answer} {r : o.Res} (ht : t ≠ .watcherPass) (hop : t.ops o)
    (hnew : o.forUsers s = true) (hsem : sem o x s = some (r, s')) : CreditsKept s s' := by
  cases o with
  | rpc c =>
    rcases sem_rpc hsem with rfl | ⟨wallet, w, dest, cac, a, tx, -, -, -, -, -, rfl⟩
    · exact .refl s'
    · exact ⟨rfl, rfl, List.prefix_refl _, fun _ hd _ => hd, fun h => h.congr rfl rfl rfl⟩
  | sql q =>
    obtain ⟨-, rfl⟩ := sem_sql hsem
    cases t with
    | watcherPass => exact absurd rfl ht
    | createDeposit v =>
      obtain ⟨address, rfl⟩ := hop
      exact .insertDeposit (of_decide_eq_true hnew) address
    | withdraw v amount toAddress =>
      cases q with
      | closeDeposits w => exact .closeDeposits w
      | selectDeposits _ => exact .refl s
      | sumRewards _ => exact .refl s
      | _ => cases hop
    | referralWithdraw v toAddress =>
      cases q with
      | markCredits w txid => exact .markCredits w txid
      | countReferred _ => exact .refl s
      | sumAvailableCredits _ => exact .refl s
      | sumLifetimeCredits _ => exact .refl s
      | _ => cases hop

theorem CreditsKept.of_ext {e : External} (h : e.apply s = some s') : CreditsKept s s' := by
  cases e with
  | signup referredBy =>
    rw [External.apply] at h
    split at h
    · next hr =>
      cases h
      exact ⟨rfl, rfl, List.prefix_append _ _, fun _ hd _ => hd, fun h => h.signup hr⟩
    · cases h
  | chain txs =>
    cases h
    exact ⟨rfl, rfl, List.prefix_refl _, fun _ hd _ => hd, fun h => h.congr rfl rfl rfl⟩

end

def Request.isWatcherPass (t : Request) : Bool := decide (t = .watcherPass)

/-- A pass starts only when no other one is under way, and none is killed within a referral check. -/
def passesApart : GPool → GEvent → Bool
  | P, .spawn t => !(t.isWatcherPass && P.busy Request.isWatcherPass)
  | P, .step i _ => (P.next i).all (Op.forUsers P.state)
  | P, .kill i => P.procs[i]?.all fun p => !p.1.isWatcherPass || p.2.next.all fun o => match o with
      | .sql q => !q.isReferralCheck
      | .rpc _ => true
  | _, .ext _ => true

theorem passes_exclusive : Exclusive (gateway cfg) passesApart Request.isWatcherPass Request.ops (creditSetting cfg)
    (Credited cfg) where
  sem := rfl
  stable _ _ := Credited.stable
  within := prog_within
  alone P t hA ht := by
    simp only [passesApart, ht, Bool.true_and, Bool.not_eq_true'] at hA
    exact hA
  start P t _ ht hJ := by
    obtain rfl := of_decide_eq_true ht
    exact watcherPass_credits hJ
  may _ _ _ _ _ _ _ _ _ _ := trivial
  others P i x t p o r s' hA hi ht ho hop hsem := by
    simp only [passesApart, Pool.next, hi, Option.bind_some, ho, Option.all_some] at hA
    have hkept := CreditsKept.of_step (of_decide_eq_false ht) hop hA hsem
    exact ⟨fun _ => hkept, fun _ hJ => hJ.stable hkept⟩
  kill P i t p o hA hi ht ho hpre := by
    simp only [passesApart, hi, Option.all_some, ht, Bool.not_true, Bool.false_or, ho] at hA
    refine hpre ?_
    rintro q rfl
    simpa using hA
  ext P e s' _ hext := ⟨fun _ => .of_ext hext, fun _ hJ => hJ.stable (.of_ext hext)⟩

theorem credited_once {P : GPool} (h : Reachable (gateway cfg) passesApart {} P)
    (hdone : P.busy Request.isWatcherPass = false) (userId : UserId) :
    P.state.openCredits.filter (fun c => decide (c.referredUserId = userId)) =
      (dueCredit cfg P.state.db.users P.state.activations userId).toList := by
  have hinit : Credited cfg {} := by
    refine ⟨⟨?_, ?_, ?_, ?_⟩, fun v => ?_⟩
    · exact fun d hd => (List.not_mem_nil hd).elim
    · exact fun v hv => (List.not_mem_nil hv).elim
    · exact fun a ha => (List.not_mem_nil ha).elim
    · exact fun d hd => (List.not_mem_nil hd).elim
    · rw [dueCredit_of_no_activation fun a ha => (List.not_mem_nil ha).elim]
      rfl
  exact ((h.exclusive (passes_exclusive cfg) hinit).of_free hdone).credited userId

def referredSignup : List GEvent :=
  [.ext (.signup none), .ext (.signup (some 1))] ++
    .spawn (.createDeposit 2) :: [.names ["stakingpool"], .address 7, .none, .done].map (.step 0)

def activatingPass (i : Nat) : List GEvent :=
  [.names ["stakingpool"], .none, .utxos [⟨⟨11, 0⟩, 1000⟩], .none].map (.step i)

def restOfPass (i : Nat) : List GEvent :=
  [.names ["stakingpool"], .none, .txout (some ⟨1000, [1]⟩)].map (.step i)

theorem referredSignup_credited :
    ∃ P : GPool, Reachable (gateway {}) passesApart {} P ∧ P.busy Request.isWatcherPass = false ∧
      dueCredit {} P.state.db.users P.state.activations 2 = some (Referral.creditRow {} 1 2 1 1000) ∧
      P.state.openCredits.filter (fun c => decide (c.referredUserId = 2)) =
        (dueCredit {} P.state.db.users P.state.activations 2).toList := by
  have hrun : ∃ P : GPool, Reachable (gateway {}) passesApart {} P ∧ P.busy Request.isWatcherPass = false ∧
      dueCredit {} P.state.db.users P.state.activations 2 = some (Referral.creditRow {} 1 2 1 1000) :=
    Reachable.exists_of_run (referredSignup ++ .spawn .watcherPass :: activatingPass 1 ++
      [.none, .none, .none, .none].map (.step 1) ++ restOfPass 1) (by decide +kernel)
  obtain ⟨P, hreach, hdone, hdue⟩ := hrun
  exact ⟨P, hreach, hdone, hdue, credited_once {} hreach hdone 2⟩

def killedPass : List GEvent :=
  .spawn .watcherPass :: activatingPass 1 ++ .kill 1 :: .spawn .watcherPass ::
    [.names ["stakingpool"], .none].map (.step 2) ++ restOfPass 2

def overlappingPasses : List GEvent :=
  .spawn .watcherPass :: .spawn .watcherPass :: [.names ["stakingpool"], .none].map (.step 2) ++ activatingPass 1 ++
    [.utxos [⟨⟨11, 0⟩, 1000⟩], .none, .none, .none, .none].map (.step 2) ++
    [.none, .none, .none, .none].map (.step 1) ++ restOfPass 1 ++ .step 2 .none :: restOfPass 2

/-- **The credit of a pass that is killed after the activation is lost, and passes that overlap credit twice.** -/
theorem passes_miscredit :
    (∃ P : GPool, Reachable (gateway {}) (fun _ _ => true) {} P ∧ P.busy (fun _ => true) = false ∧
      dueCredit {} P.state.db.users P.state.activations 2 = some (Referral.creditRow {} 1 2 1 1000) ∧
      P.state.openCredits = []) ∧
    ∃ P : GPool, Reachable (gateway {}) (fun _ _ => true) {} P ∧ P.busy (fun _ => true) = false ∧
      dueCredit {} P.state.db.users P.state.activations 2 = some (Referral.creditRow {} 1 2 1 1000) ∧
      P.state.openCredits = [Referral.creditRow {} 1 2 1 1000, Referral.creditRow {} 1 2 1 1000] := by
  refine ⟨Reachable.exists_of_run (referredSignup ++ killedPass) ?_,
    Reachable.exists_of_run (referredSignup ++ overlappingPasses) ?_⟩
  · decide +kernel
  · decide +kernel

end CodexaCoin.Gateway
