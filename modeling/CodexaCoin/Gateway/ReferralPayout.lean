import CodexaCoin.Gateway.Programs

/-!
# What the referral program pays

`withdraw` of `referral.py` sums the open credits of a referrer, pays the sum and marks the open credits, in separate
steps.
-/

namespace CodexaCoin.Gateway

open Process Table

/-! ## Credits are marked with payments -/

/-- A payment of the admin wallet to a referrer with a txid. -/
def State.HasPayout (s : State) (referrer : UserId) (txid : Uint256) : Prop :=
  ∃ p ∈ s.payments, p.wallet = .admin ∧ p.userId = referrer ∧ p.made.txid = txid

def payoutSetting : Prog.Setting Op Op.Res State Answer where
  sem := sem
  pre o s := match o with
    | .sql (.markCredits referrer txid) => s.HasPayout referrer txid
    | .sql (.insertCredit credit) => credit.withdrawalTxid = none
    | _ => True
  rely s s' := ∀ p ∈ s.payments, p ∈ s'.payments
  rely_refl _ _ hp := hp
  rely_trans h h' p hp := h' p (h p hp)

def State.Marked (s : State) : Prop :=
  ∀ c ∈ s.db.referralCredits, ∀ txid, c.withdrawalTxid = some txid → s.HasPayout c.referrerUserId txid

section

variable {cfg : Config} {s s' : State} {A : GPool → GEvent → Bool} {P : GPool}

theorem State.HasPayout.mono {referrer : UserId} {txid : Uint256} (h : s.HasPayout referrer txid)
    (hs : ∀ p ∈ s.payments, p ∈ s'.payments) : s'.HasPayout referrer txid := by
  obtain ⟨p, hp, hrest⟩ := h
  exact ⟨p, hs p hp, hrest⟩

theorem State.Marked.congr (h : s.Marked) (hcredits : s'.db.referralCredits = s.db.referralCredits)
    (hs : ∀ p ∈ s.payments, p ∈ s'.payments) : s'.Marked := by
  intro c hc txid htxid
  exact (h c (hcredits ▸ hc) txid htxid).mono hs

theorem referralWithdraw_marks (referrer : UserId) (toAddress : Address) :
    (Request.prog cfg (.referralWithdraw referrer toAddress)).Holds payoutSetting (fun _ _ => True) (fun _ _ => True)
      s := by
  have hany : ∀ {α : Type} {p : GProg α} {s : State}, (p.Within fun o => o.reads = true) →
      p.Holds payoutSetting (fun _ _ => True) (fun _ _ => True) s := by
    intro α p s hp
    refine .of_within (J := fun _ => True) hp (fun _ _ _ _ => trivial) ?_ trivial
    rintro o s ho -
    refine ⟨?_, fun _ _ _ _ _ => trivial⟩
    cases o with
    | rpc c => trivial
    | sql q => cases q <;> trivial
  refine Prog.Holds.bind (Prog.Holds.mono (Q := fun _ _ => True) ?_ (fun _ _ _ _ _ => trivial) fun _ _ h => h)
  have hstatus : (Referral.statusForUser referrer).Within fun o => o.reads = true :=
    .op rfl fun _ => .op rfl fun _ => .op rfl fun _ => trivial
  refine Prog.Holds.bind ((hany hstatus).mono (fun status s1 _ => ?_) fun _ _ h => h)
  refine Prog.Holds.ite (fun _ _ _ => trivial) fun _ => ?_
  have hensure : (ensureWalletLoaded .admin).Within fun o => o.reads = true :=
    ensureWalletLoaded_within fun c hc => by simp [Op.reads, hc]
  refine Prog.Holds.bind ((hany hensure).mono (fun _ s2 _ => ?_) fun _ _ h => h)
  refine Prog.Holds.op fun s3 _ => ⟨trivial, fun x _ r s4 hsem => ?_⟩
  rcases sem_sendToAddress hsem with ⟨-, e, rfl⟩ | ⟨paid, t, -, rfl, -, -, -, rfl⟩
  · exact Prog.Holds.ite (fun _ _ _ => trivial) fun _ _ _ => trivial
  · refine sql_holds rfl fun s5 hs5 => ⟨?_, fun _ _ _ _ => trivial⟩
    refine ⟨_, hs5 _ (List.mem_append_right _ (List.mem_singleton_self _)), rfl, rfl, rfl⟩

theorem prog_marks (t : Request) :
    (t.prog cfg).Holds payoutSetting (fun _ _ => True) (fun _ _ => True) s := by
  have hother : (∀ v toAddress, t ≠ .referralWithdraw v toAddress) →
      (t.prog cfg).Holds payoutSetting (fun _ _ => True) (fun _ _ => True) s := by
    intro ht
    refine .of_within (J := fun _ => True) (prog_within t) (fun _ _ _ _ => trivial) ?_ trivial
    rintro o s hop -
    refine ⟨?_, fun _ _ _ _ _ => trivial⟩
    cases o with
    | rpc c => trivial
    | sql q =>
      cases q with
      | markCredits referrer txid =>
        cases t with
        | referralWithdraw v toAddress => exact absurd rfl (ht v toAddress)
        | createDeposit v => cases hop.choose_spec
        | watcherPass => cases hop
        | withdraw v amount toAddress => cases hop
      | insertCredit credit =>
        cases t with
        | watcherPass => exact hop
        | createDeposit v => cases hop.choose_spec
        | withdraw v amount toAddress => cases hop
        | referralWithdraw v toAddress => cases hop
      | _ => trivial
  cases t with
  | referralWithdraw v toAddress => exact referralWithdraw_marks v toAddress
  | createDeposit v => exact hother (by simp)
  | watcherPass => exact hother (by simp)
  | withdraw v amount toAddress => exact hother (by simp)

theorem State.Marked.of_step {o : Op} {x : Answer} {r : o.Res} (h : s.Marked) (hpre : payoutSetting.pre o s)
    (hsem : sem o x s = some (r, s')) : (∀ p ∈ s.payments, p ∈ s'.payments) ∧ s'.Marked := by
  cases o with
  | rpc c =>
    rcases sem_rpc hsem with rfl | ⟨wallet, w, dest, cac, a, tx, rfl, -, -, -, -, rfl⟩
    · exact ⟨fun _ hp => hp, h⟩
    · have hmono : ∀ p ∈ s.payments, p ∈ (s.pay ⟨wallet, w, dest, a, tx⟩).payments :=
        fun _ hp => List.mem_append_left _ hp
      exact ⟨hmono, h.congr rfl hmono⟩
  | sql q =>
    obtain ⟨-, rfl⟩ := sem_sql hsem
    refine ⟨fun _ hp => hp, ?_⟩
    cases q with
    | insertCredit credit =>
      intro c hc txid htxid
      rcases List.mem_append.1 hc with hc | hc
      · exact h c hc txid htxid
      · obtain rfl := List.mem_singleton.1 hc
        rw [hpre] at htxid
        cases htxid
    | markCredits referrer txid =>
      intro c hc txid' htxid
      obtain ⟨c', hc', rfl⟩ := mem_updateWhere.1 hc
      split at htxid
      · next hopen =>
        obtain rfl := Option.some.inj htxid
        rw [if_pos hopen]
        exact (of_decide_eq_true hopen).1 ▸ hpre
      · next hopen =>
        rw [if_neg hopen]
        exact h c' hc' txid' htxid
    | insertDeposit v address => exact h.congr (Db.insertDeposit_referralCredits v address) fun _ hp => hp
    | insertReward reward => exact h.congr (Db.insertReward_referralCredits reward) fun _ hp => hp
    | _ => exact h

/-- **In every run, a marked credit was marked with a payment to its referrer.** -/
theorem marked_paid (h : Reachable (gateway cfg) A {} P) : P.state.Marked := by
  refine (h.cooperative (S := payoutSetting) (J := State.Marked) rfl ?_ ?_ ?_ ?_ ?_).1
  · intro c hc
    cases hc
  · exact fun P t _ _ => prog_marks t
  · exact fun _ _ _ _ _ _ => trivial
  · exact fun P i x o r s' _ _ hJ hpre hsem => hJ.of_step hpre hsem
  · intro P e s' _ hJ hext
    have hsame := ext_sameLedger hext
    have hmono : ∀ p ∈ P.state.payments, p ∈ s'.payments := fun p hp => hsame.payments.symm ▸ hp
    exact ⟨hmono, hJ.congr (ext_referralCredits hext) hmono⟩

theorem payments_distinct (h : Reachable (gateway cfg) A {} P) :
    (P.state.payments.map (·.made.txid)).Nodup := by
  refine h.state_invariant (J := fun s => (s.payments.map (·.made.txid)).Nodup) List.nodup_nil ?_ ?_
  · intro o x s r s' hs hsem
    cases o with
    | sql q =>
      obtain ⟨-, rfl⟩ := sem_sql (x := x) hsem
      exact hs
    | rpc c =>
      rcases sem_rpc (x := x) hsem with rfl | ⟨wallet, w, dest, cac, a, tx, rfl, -, -, -, hfresh, rfl⟩
      · exact hs
      · exact nodup_insert hs hfresh
  · intro e s s' hs hext
    rw [(ext_sameLedger hext).payments]
    exact hs

end

/-! ## Withdrawals of a referrer -/

variable (cfg : Config) (referrer : UserId)

def State.creditsOf (s : State) : List ReferralCredit :=
  s.db.referralCredits.filter fun c => decide (c.referrerUserId = referrer)

def State.payoutsTo (s : State) : List Payment :=
  s.payments.filter fun p => decide (p.wallet = .admin ∧ p.userId = referrer)

def markedSum (txid : Uint256) (credits : List ReferralCredit) : Int :=
  sumWhere (fun c => decide (c.withdrawalTxid = some txid)) (·.amountSatoshis) credits

structure PaidOut (s : State) : Prop where
  amounts : ∀ p ∈ s.payoutsTo referrer, p.amount = markedSum p.made.txid (s.creditsOf referrer)
  marked : ∀ c ∈ s.creditsOf referrer, ∀ txid, c.withdrawalTxid = some txid →
    ∃ p ∈ s.payoutsTo referrer, p.made.txid = txid

/-- Nothing happens to the referrer's credits and payments. -/
structure SamePayouts (s s' : State) : Prop where
  credits : s'.creditsOf referrer = s.creditsOf referrer
  payouts : s'.payoutsTo referrer = s.payoutsTo referrer

def payoutsSetting : Prog.Setting Op Op.Res State Answer where
  sem := sem
  may o _ _ := o.paysSmall .admin referrer = true
  pre o s := ∀ p ∈ s.payoutsTo referrer, o = .sql (.markCredits referrer p.made.txid) ∨
    p.amount = markedSum p.made.txid (s.creditsOf referrer)
  rely := SamePayouts referrer
  rely_refl _ := ⟨rfl, rfl⟩
  rely_trans h h' := ⟨h'.credits.trans h.credits, h'.payouts.trans h.payouts⟩

section

variable {cfg referrer} {s s' : State}

theorem PaidOut.congr (h : PaidOut referrer s) (hs : SamePayouts referrer s s') : PaidOut referrer s' := by
  refine ⟨?_, ?_⟩
  · rw [hs.payouts, hs.credits]
    exact h.amounts
  · rw [hs.payouts, hs.credits]
    exact h.marked

theorem PaidOut.pre (h : PaidOut referrer s) (o : Op) : (payoutsSetting referrer).pre o s :=
  fun p hp => .inr (h.amounts p hp)

theorem markedSum_append_open {txid : Uint256} {credits : List ReferralCredit} {c : ReferralCredit}
    (hc : c.withdrawalTxid = none) : markedSum txid (credits ++ [c]) = markedSum txid credits := by
  simp [markedSum, sumWhere_append, sumWhere_cons, hc]

theorem PaidOut.insertCredit (h : PaidOut referrer s) {credit : ReferralCredit} (hopen : credit.withdrawalTxid = none) :
    PaidOut referrer (s.runSql (.insertCredit credit)).2 := by
  have hcredits : (s.runSql (.insertCredit credit)).2.creditsOf referrer = s.creditsOf referrer ∨
      (s.runSql (.insertCredit credit)).2.creditsOf referrer = s.creditsOf referrer ++ [credit] := by
    show (s.db.referralCredits ++ [credit]).filter _ = _ ∨ (s.db.referralCredits ++ [credit]).filter _ = _
    rw [List.filter_append]
    by_cases hr : credit.referrerUserId = referrer
    · exact .inr (congrArg _ (List.filter_cons_of_pos (decide_eq_true hr)))
    · exact .inl (by simp [hr, State.creditsOf])
  rcases hcredits with hsame | hnew
  · exact h.congr ⟨hsame, rfl⟩
  · refine ⟨fun p hp => ?_, fun c hc txid htxid => ?_⟩
    · rw [hnew, markedSum_append_open hopen]
      exact h.amounts p hp
    · rw [hnew, List.mem_append, List.mem_singleton] at hc
      rcases hc with hc | rfl
      · exact h.marked c hc txid htxid
      · rw [hopen] at htxid
        cases htxid

theorem PaidOut.of_mark {p : Payment} (h : PaidOut referrer s) (hp : p.wallet = .admin ∧ p.userId = referrer)
    (hfresh : p.made.txid ∉ s.payments.map (·.made.txid))
    (hamount : p.amount =
      sumWhere (fun c => decide (c.withdrawalTxid = none)) (·.amountSatoshis) (s.creditsOf referrer))
    (hs : SamePayouts referrer (s.pay p) s') :
    PaidOut referrer (s'.runSql (.markCredits referrer p.made.txid)).2 := by
  -- Only the referrer's open credits are marked.
  have hcredits : (s'.runSql (.markCredits referrer p.made.txid)).2.creditsOf referrer =
      updateWhere (fun c => decide (c.withdrawalTxid = none)) (fun c => { c with withdrawalTxid := some p.made.txid })
        (s.creditsOf referrer) := by
    have hsame : s'.creditsOf referrer = s.creditsOf referrer := hs.credits
    rw [← hsame]
    refine (filter_updateWhere ?_).trans (updateWhere_congr fun c hc => ?_)
    · exact fun _ => rfl
    · simp [of_decide_eq_true (List.mem_filter.1 hc).2]
  have hpayouts : (s'.runSql (.markCredits referrer p.made.txid)).2.payoutsTo referrer =
      s.payoutsTo referrer ++ [p] := by
    refine hs.payouts.trans ?_
    show (s.payments ++ [p]).filter _ = _
    rw [List.filter_append]
    exact congrArg _ (List.filter_cons_of_pos (decide_eq_true hp))
  have hold : ∀ q ∈ s.payoutsTo referrer, q.made.txid ≠ p.made.txid := by
    intro q hq heq
    exact hfresh (heq ▸ List.mem_map_of_mem (List.mem_filter.1 hq).1)
  -- No credit was marked with the new txid before.
  have hnone : ∀ c ∈ s.creditsOf referrer, c.withdrawalTxid ≠ some p.made.txid := by
    intro c hc htxid
    obtain ⟨q, hq, heq⟩ := h.marked c hc _ htxid
    exact hold q hq heq
  refine ⟨fun q hq => ?_, fun c hc txid htxid => ?_⟩
  · rw [hcredits, markedSum, sumWhere_updateWhere]
    rw [hpayouts, List.mem_append, List.mem_singleton] at hq
    rcases hq with hq | rfl
    · rw [h.amounts q hq, markedSum]
      refine sumWhere_congr fun c _ => ?_
      cases hc : c.withdrawalTxid with
      | none => simp [Ne.symm (hold q hq)]
      | some t => simp [hc]
    · rw [hamount]
      refine sumWhere_congr fun c hc => ?_
      cases hc' : c.withdrawalTxid with
      | none => simp
      | some t =>
        have hne := hnone c hc
        rw [hc'] at hne
        simp [hc', hne]
  · rw [hcredits] at hc
    rw [hpayouts]
    obtain ⟨c', hc', rfl⟩ := mem_updateWhere.1 hc
    split at htxid
    · exact ⟨p, List.mem_append_right _ (List.mem_singleton_self p), Option.some.inj htxid⟩
    · obtain ⟨q, hq, heq⟩ := h.marked c' hc' txid htxid
      exact ⟨q, List.mem_append_left _ hq, heq⟩

/-- **A withdrawal marks what it has paid,** as long as nothing happens to the referrer's credits. -/
theorem referralWithdraw_holds (toAddress : Address) (h : PaidOut referrer s) :
    (Request.prog cfg (.referralWithdraw referrer toAddress)).Holds (payoutsSetting referrer)
      (fun _ => PaidOut referrer) (fun _ => PaidOut referrer) s := by
  have hraise : ∀ e s, PaidOut referrer s → (Prog.raise e : GProg Uint256).Holds (payoutsSetting referrer)
      (fun _ => PaidOut referrer) (fun _ => PaidOut referrer) s :=
    fun _ _ hs _ hrely => hs.congr hrely
  refine Prog.Holds.bind (Prog.Holds.mono (Q := fun _ => PaidOut referrer) ?_ (fun _ s hs s' => hs.congr)
    fun _ _ h => h)
  -- The sum that is read stays the sum of the open credits.
  let J := fun (amount : Int) (s : State) => PaidOut referrer s ∧ amount =
    sumWhere (fun c => decide (c.withdrawalTxid = none)) (·.amountSatoshis) (s.creditsOf referrer)
  have hstable : ∀ amount s s', J amount s → SamePayouts referrer s s' → J amount s' :=
    fun amount s s' hs hrely => ⟨hs.1.congr hrely, by rw [hrely.credits]; exact hs.2⟩
  have hstatus : (Referral.statusForUser referrer).Holds (payoutsSetting referrer)
      (fun status s => J status.availableSatoshis s) (fun _ => PaidOut referrer) s := by
    refine sql_holds rfl fun s1 hs1 => ⟨(h.congr hs1).pre _, fun _ _ => ?_⟩
    refine sql_holds rfl fun s2 hs2 => ⟨((h.congr hs1).congr hs2).pre _, fun _ _ => ?_⟩
    have hread : J (s2.runSql (.sumAvailableCredits referrer)).1 s2 := by
      refine ⟨(h.congr hs1).congr hs2, ?_⟩
      rw [State.creditsOf, sumWhere_filter]
      refine sumWhere_congr fun c _ => ?_
      simp
    refine sql_holds rfl fun s3 hs3 => ⟨(hstable _ s2 s3 hread hs3).1.pre _, fun _ _ s4 hs4 => ?_⟩
    exact hstable _ s3 s4 (hstable _ s2 s3 hread hs3) hs4
  refine Prog.Holds.bind (hstatus.mono (fun status s1 h1 => ?_) fun _ _ h => h)
  refine Prog.Holds.ite (fun _ => hraise _ s1 h1.1) fun _ => ?_
  have hensure := ensureWalletLoaded_holds (S := payoutsSetting referrer) .admin rfl (hstable status.availableSatoshis)
    (fun o s _ hs => hs.1.pre o) h1
  refine Prog.Holds.bind (hensure.mono (fun _ s2 h2 => ?_) fun _ _ h => h.1)
  refine Prog.Holds.op fun s3 hs3 => ?_
  obtain ⟨hpaid, hamount⟩ := hstable _ s2 s3 h2 hs3
  refine ⟨hpaid.pre _, fun x hmay r s4 hsem => ?_⟩
  rcases sem_sendToAddress hsem with ⟨rfl, e, rfl⟩ | ⟨paid, t, -, rfl, hread, hpos, hfresh, rfl⟩
  · exact Prog.Holds.ite (fun _ => hraise _ s4 hpaid) fun _ => hraise _ s4 hpaid
  · refine sql_holds rfl fun s5 hs5 => ⟨?_, fun _ _ s6 hs6 => ?_⟩
    · -- All other payments are matched.
      intro q hq
      rw [hs5.payouts] at hq
      rw [hs5.credits]
      obtain ⟨hq, hp⟩ := List.mem_filter.1 hq
      rcases List.mem_append.1 hq with hq | hq
      · exact .inr (hpaid.amounts q (List.mem_filter.2 ⟨hq, hp⟩))
      · obtain rfl := List.mem_singleton.1 hq
        exact .inl rfl
    · have hsent := (Op.paysSmall.amount_eq hmay hread hpos).trans hamount
      exact (hpaid.of_mark ⟨rfl, rfl⟩ hfresh hsent hs5).congr hs6

end

/-- The request is a referral withdrawal of the referrer. -/
def Request.isReferralWithdrawOf : Request → Bool
  | .referralWithdraw v _ => decide (v = referrer)
  | _ => false

/-- A withdrawal of the referrer starts only when no other one is under way, none is killed, none is of 2²⁶ coins or more,
and no credit for the referrer comes in during one. -/
def payoutsApart : GPool → GEvent → Bool
  | P, .spawn t => !(t.isReferralWithdrawOf referrer && P.busy (Request.isReferralWithdrawOf referrer))
  | P, .step i _ => (P.next i).all fun o => o.paysSmall .admin referrer && match o with
      | .sql (.insertCredit credit) =>
          !(decide (credit.referrerUserId = referrer) && P.busy (Request.isReferralWithdrawOf referrer))
      | _ => true
  | P, .kill i => P.procs[i]?.all fun p => !p.1.isReferralWithdrawOf referrer
  | _, .ext _ => true

section

variable {cfg referrer} {s s' : State}

theorem SamePayouts.of_step {t : Request} {o : Op} {x : Answer} {r : o.Res} (ht : t.isReferralWithdrawOf referrer = false)
    (hop : t.ops o) (hcredit : ∀ credit, o = .sql (.insertCredit credit) → credit.referrerUserId ≠ referrer)
    (hsem : sem o x s = some (r, s')) : SamePayouts referrer s s' := by
  cases o with
  | rpc c =>
    rcases sem_rpc hsem with rfl | ⟨wallet, w, dest, cac, a, tx, rfl, -, -, -, -, rfl⟩
    · exact ⟨rfl, rfl⟩
    · refine ⟨rfl, ?_⟩
      show (s.payments ++ [_]).filter _ = _
      rw [List.filter_append, List.filter_cons_of_neg, List.filter_nil, List.append_nil]
      · rfl
      · rw [decide_eq_true_eq]
        rintro ⟨hwallet, hw⟩
        cases t with
        | createDeposit v => cases hop
        | watcherPass => cases hop
        | withdraw v amount toAddress =>
          cases hop rfl
          cases hwallet
        | referralWithdraw v toAddress =>
          obtain ⟨a', heq⟩ := hop rfl
          cases heq
          exact of_decide_eq_false ht hw
  | sql q =>
    obtain ⟨-, rfl⟩ := sem_sql hsem
    refine ⟨?_, rfl⟩
    cases q with
    | insertCredit credit =>
      show (s.db.referralCredits ++ [credit]).filter _ = _
      rw [List.filter_append, List.filter_cons_of_neg, List.filter_nil, List.append_nil]
      · rfl
      · rw [decide_eq_true_eq]
        exact hcredit credit rfl
    | markCredits v txid =>
      cases t with
      | referralWithdraw w toAddress =>
        cases hop
        refine (filter_updateWhere ?_).trans (updateWhere_eq_self fun c hc => ?_)
        · exact fun _ => rfl
        · have hr := of_decide_eq_true (List.mem_filter.1 hc).2
          rw [decide_eq_false_iff_not]
          rintro ⟨hv, -⟩
          exact of_decide_eq_false ht (hv.symm.trans hr)
      | createDeposit v => cases hop.choose_spec
      | watcherPass => cases hop
      | withdraw v amount toAddress => cases hop
    | insertDeposit v address => exact congrArg (List.filter _) (Db.insertDeposit_referralCredits v address)
    | insertReward reward => exact congrArg (List.filter _) (Db.insertReward_referralCredits reward)
    | _ => rfl

theorem payouts_exclusive : Exclusive (gateway cfg) (payoutsApart referrer) (Request.isReferralWithdrawOf referrer)
    Request.ops (payoutsSetting referrer) (PaidOut referrer) where
  sem := rfl
  stable _ _ h hs := h.congr hs
  within := prog_within
  alone P t hA ht := by
    simp only [payoutsApart, ht, Bool.true_and, Bool.not_eq_true'] at hA
    exact hA
  start P t _ ht hJ := by
    cases t with
    | referralWithdraw v toAddress =>
      obtain rfl := of_decide_eq_true ht
      exact @referralWithdraw_holds cfg v P.state toAddress hJ
    | createDeposit v => cases ht
    | watcherPass => cases ht
    | withdraw v amount toAddress => cases ht
  may P i x t p o hA hi _ ho := by
    simp only [payoutsApart, Pool.next, hi, Option.bind_some, ho, Option.all_some, Bool.and_eq_true] at hA
    exact hA.1
  others P i x t p o r s' hA hi ht ho hop hsem := by
    simp only [payoutsApart, Pool.next, hi, Option.bind_some, ho, Option.all_some, Bool.and_eq_true] at hA
    replace hA := hA.2
    by_cases hcredit : ∃ credit, o = .sql (.insertCredit credit) ∧ credit.referrerUserId = referrer
    · -- A new credit for the referrer, while no withdrawal is under way.
      obtain ⟨credit, rfl, hr⟩ := hcredit
      simp only [hr, decide_true, Bool.true_and, Bool.not_eq_true'] at hA
      refine ⟨fun hbusy => ?_, fun _ hJ => ?_⟩
      · rw [hbusy] at hA
        cases hA
      · obtain ⟨-, rfl⟩ := sem_sql (x := x) hsem
        refine hJ.insertCredit ?_
        cases t with
        | watcherPass => exact hop
        | createDeposit v => cases hop.choose_spec
        | withdraw v amount toAddress => cases hop
        | referralWithdraw v toAddress => cases hop
    · have hrely := SamePayouts.of_step ht hop (fun credit ho hr => hcredit ⟨credit, ho, hr⟩) hsem
      exact ⟨fun _ => hrely, fun _ hJ => hJ.congr hrely⟩
  kill P i t p o hA hi ht _ _ := by
    simp only [payoutsApart, hi, Option.all_some, ht] at hA
    cases hA
  ext P e s' _ hext := by
    have hrely : SamePayouts referrer P.state s' :=
      ⟨congrArg (List.filter _) (ext_referralCredits hext), congrArg (List.filter _) (ext_sameLedger hext).payments⟩
    exact ⟨fun _ => hrely, fun _ hJ => hJ.congr hrely⟩

theorem markedSum_creditsOf {p : Payment} (hmarked : s.Marked) (hdistinct : (s.payments.map (·.made.txid)).Nodup)
    (hp : p ∈ s.payments) (hreferrer : p.userId = referrer) :
    markedSum p.made.txid (s.creditsOf referrer) = markedSum p.made.txid s.db.referralCredits := by
  rw [markedSum, markedSum, State.creditsOf, sumWhere_filter]
  refine sumWhere_congr fun c hc => ?_
  by_cases htxid : c.withdrawalTxid = some p.made.txid
  · obtain ⟨q, hq, -, hq', heq⟩ := hmarked c hc _ htxid
    obtain rfl := List.inj_on_of_nodup_map hdistinct hq hp heq
    simp [← hq', hreferrer]
  · simp [htxid]

theorem PaidOut.total (h : PaidOut referrer s) (hdistinct : (s.payments.map (·.made.txid)).Nodup) :
    s.paid .admin referrer = sumWhere (fun c => decide (c.referrerUserId = referrer ∧ c.withdrawalTxid ≠ none))
      (·.amountSatoshis) s.db.referralCredits := by
  have hkeys : ((s.payoutsTo referrer).map fun p => some p.made.txid).Nodup := by
    have hsub : ((s.payoutsTo referrer).map (·.made.txid)).Nodup := hdistinct.sublist (List.filter_sublist.map _)
    simpa [List.map_map, Function.comp_def] using List.Nodup.map (fun _ _ h => Option.some.inj h) hsub
  calc s.paid .admin referrer
      = sumWhere (fun _ => true) (·.amount) (s.payoutsTo referrer) := by
        rw [State.payoutsTo, sumWhere_filter]
        refine sumWhere_congr fun p _ => ?_
        simp
    _ = sumWhere (fun _ => true) (fun p => markedSum p.made.txid (s.creditsOf referrer)) (s.payoutsTo referrer) := by
        refine sumWhere_congr fun p hp => ?_
        rw [h.amounts p hp]
    _ = sumWhere (fun c => (s.payoutsTo referrer).any fun p => decide (c.withdrawalTxid = some p.made.txid) && true)
          (·.amountSatoshis) (s.creditsOf referrer) := sumWhere_join hkeys
    _ = sumWhere (fun c => decide (c.withdrawalTxid ≠ none)) (·.amountSatoshis) (s.creditsOf referrer) := by
        refine sumWhere_congr fun c hc => ?_
        cases htxid : c.withdrawalTxid with
        | none => simp
        | some txid =>
          obtain ⟨p, hp, rfl⟩ := h.marked c hc txid htxid
          have hany : ((s.payoutsTo referrer).any fun q => decide (some p.made.txid = some q.made.txid) && true) =
              true := List.any_eq_true.2 ⟨p, hp, by simp⟩
          rw [if_pos hany, if_pos (by simp)]
    _ = _ := by
        rw [State.creditsOf, sumWhere_filter]
        refine sumWhere_congr fun c _ => ?_
        simp

end

theorem referral_payouts {P : GPool} (h : Reachable (gateway cfg) (payoutsApart referrer) {} P) :
    (∀ p ∈ P.state.payments, p.wallet = .admin → p.userId = referrer →
      (∃ i, P.next i = some (.sql (.markCredits referrer p.made.txid))) ∨
        p.amount = markedSum p.made.txid P.state.db.referralCredits) ∧
    (P.busy (Request.isReferralWithdrawOf referrer) = false → P.state.paid .admin referrer =
      sumWhere (fun c => decide (c.referrerUserId = referrer ∧ c.withdrawalTxid ≠ none)) (·.amountSatoshis)
        P.state.db.referralCredits) ∧
    ∀ c ∈ P.state.db.referralCredits, c.referrerUserId = referrer → ∀ txid, c.withdrawalTxid = some txid →
      P.state.HasPayout referrer txid := by
  have hmarked := marked_paid h
  have hdistinct := payments_distinct h
  have hinit : PaidOut referrer ({} : State) :=
    ⟨fun p hp => (List.not_mem_nil hp).elim, fun c hc => (List.not_mem_nil hc).elim⟩
  have hrun := h.exclusive payouts_exclusive hinit
  refine ⟨fun p hp hwallet hreferrer => ?_, fun hfree => (hrun.of_free hfree).total hdistinct, ?_⟩
  · have hmem : p ∈ P.state.payoutsTo referrer := List.mem_filter.2 ⟨hp, decide_eq_true ⟨hwallet, hreferrer⟩⟩
    rw [← markedSum_creditsOf hmarked hdistinct hp hreferrer]
    rcases hrun with ⟨-, hJ⟩ | ⟨i, t, q, hi, -, hlive, hholds, -⟩
    · exact .inr (hJ.amounts p hmem)
    · obtain ⟨o, ho⟩ := Prog.next_of_live hlive
      rcases hholds.pre_of_next ho p hmem with rfl | hamount
      · exact .inl ⟨i, by rw [Pool.next, hi]; exact ho⟩
      · exact .inr hamount
  · rintro c hc rfl txid htxid
    exact hmarked c hc txid htxid

/-! ## Two runs -/

/-- Users 2 and 3 sign up with the code of user 1, each creates a deposit, and the deposit of user 2 is funded with 1000
satoshis. -/
def sampleReferral : List GEvent :=
  [.ext (.signup none), .ext (.signup (some 1)), .ext (.signup (some 1))] ++
    .spawn (.createDeposit 2) :: [.names ["stakingpool"], .address 7, .none, .done].map (.step 0) ++
    .spawn (.createDeposit 3) :: [.names ["stakingpool"], .address 8, .none, .done].map (.step 1) ++
    .spawn .watcherPass :: [.names ["stakingpool"], .none, .utxos [⟨⟨11, 0⟩, 1000⟩], .none, .none, .none, .none, .none,
      .utxos [], .names ["stakingpool"], .none, .txout (some ⟨1000, [1]⟩)].map (.step 2)

def samplePayout : List GEvent :=
  .spawn (.referralWithdraw 1 9) :: [.none, .none, .none, .names ["adminwallet"],
    .sent ⟨21, { vin := [], vout := [] }⟩, .none].map (.step 3)

theorem samplePayout_matches :
    ∃ P : GPool, Reachable (gateway {}) (payoutsApart 1) {} P ∧
      P.busy (Request.isReferralWithdrawOf 1) = false ∧ P.state.paid .admin 1 = 100 ∧
      P.state.paid .admin 1 =
        sumWhere (fun c => decide (c.referrerUserId = 1 ∧ c.withdrawalTxid ≠ none)) (·.amountSatoshis)
          P.state.db.referralCredits := by
  have hrun : ∃ P : GPool, Reachable (gateway {}) (payoutsApart 1) {} P ∧
      P.busy (Request.isReferralWithdrawOf 1) = false ∧ P.state.paid .admin 1 = 100 :=
    Reachable.exists_of_run (sampleReferral ++ samplePayout) (by decide +kernel)
  obtain ⟨P, hreach, hfree, hpaid⟩ := hrun
  exact ⟨P, hreach, hfree, hpaid, (referral_payouts {} 1 hreach).2.1 hfree⟩

def overtakenPayout : List GEvent :=
  .spawn (.referralWithdraw 1 9) :: [.none, .none, .none].map (.step 3) ++
    .spawn .watcherPass :: [.names ["stakingpool"], .none, .utxos [⟨⟨12, 0⟩, 500⟩], .none, .none, .none, .none, .none,
      .names ["stakingpool"], .none, .txout (some ⟨1000, [1]⟩), .txout (some ⟨500, [1]⟩)].map (.step 4) ++
    [.names ["adminwallet"], .sent ⟨21, { vin := [], vout := [] }⟩, .none].map (.step 3)

/-- **A credit that comes in between the sum and the mark is marked and never paid.** -/
theorem credit_marked_unpaid :
    ∃ P : GPool, Reachable (gateway {}) (fun _ _ => true) {} P ∧ P.busy (fun _ => true) = false ∧
      P.state.paid .admin 1 <
        sumWhere (fun c => decide (c.referrerUserId = 1 ∧ c.withdrawalTxid ≠ none)) (·.amountSatoshis)
          P.state.db.referralCredits := by
  refine Reachable.exists_of_run (sampleReferral ++ overtakenPayout) ?_
  decide +kernel

end CodexaCoin.Gateway
