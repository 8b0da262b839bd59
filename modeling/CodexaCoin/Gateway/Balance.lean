import CodexaCoin.Gateway.Withdraw

/-!
# The balance that the staking pool reports

What is paid to a user and what `status_for_user` reports, in runs whose requests do not overlap.
-/

namespace CodexaCoin.Gateway

open Process Table

/-! ## The reported balance -/

/-- A program that makes only statements, on a database that nobody else changes. -/
def evalSql {α : Type} : GProg α → Db → Option α
  | .ret a, _ => some a
  | .op (.sql q) k, db => evalSql (k (q.exec db).1) (q.exec db).2
  | _, _ => none

variable (cfg : Config) (userId : UserId)

theorem evalSql_rewardsTotal {α : Type} (ids : List DepositId) (f : Int → GProg α) (db : Db) :
    evalSql (Staking.rewardsTotal ids >>= f) db =
      evalSql (f (sumWhere (fun r => decide (r.depositId ∈ ids)) (·.netRewardSatoshis) db.stakeRewards)) db := by
  cases ids with
  | nil =>
    have hzero : sumWhere (fun r => decide (r.depositId ∈ ([] : List DepositId))) (·.netRewardSatoshis)
        db.stakeRewards = 0 :=
      sumWhere_eq_zero fun r _ h => by simp at h
    rw [hzero]
    rfl
  | cons id ids => rfl

theorem Staking.statusForUser_eval (db : Db) :
    ∃ status, evalSql (Staking.statusForUser cfg userId) db = some status ∧
      status.delegatedAmount + status.accruedRewards = db.holdings (fun v => decide (v = userId)) .active := by
  refine ⟨_, evalSql_rewardsTotal _ _ db, ?_⟩
  rw [← db.sum_activeOf]
  exact db.report_eq (db.nodup_activeOf userId)

/-! ## Runs without overlap -/

/-- Requests come in only when none is under way, and none is killed. -/
def requestsApart : GPool → GEvent → Bool
  | P, .spawn _ => !P.busy fun _ => true
  | _, .kill _ => false
  | _, _ => true

variable (sel : UserId → Bool)

/-- A payment of the pool to one of the users is asked for with the whole of what the user's active deposits are worth,
and with less than 2²⁶ coins. -/
def Op.paysAll (s : State) : Op → Bool
  | .rpc (.sendToAddress .pool v _ amountCac) =>
      !sel v || decide (amountCac = inCoins (s.holding v .active) ∧ amountCac < 67108864)
  | _ => true

/-- Requests do not overlap, and the users withdraw their whole balances, of less than 2²⁶ coins. -/
def fullWithdrawals (P : GPool) (e : GEvent) : Bool :=
  requestsApart P e && match e with
    | .step i _ => (P.next i).all (Op.paysAll sel P.state)
    | _ => true

def balanceSetting : Prog.Setting Op Op.Res State Answer where
  sem := sem
  may o _ s := o.paysAll sel s = true
  rely := SameLedger
  rely_refl := .refl
  rely_trans := .trans

/-- Rewards are recorded for funded deposits only, and what was paid is what the withdrawn deposits are worth. -/
structure Balanced (s : State) : Prop where
  rewarded : ∀ r ∈ s.db.stakeRewards, ∃ d ∈ s.db.stakeDeposits, d.id = r.depositId ∧ d.status ≠ .awaitingFunds
  paid : s.paidTo .pool sel = s.db.holdings sel .withdrawn

section

variable {cfg sel} {s s' : State} {d : StakeDeposit} {p : Payment}

theorem Balanced.congr (h : Balanced sel s) (hs : SameLedger s s') : Balanced sel s' := by
  refine ⟨?_, ?_⟩
  · rw [hs.rewards, hs.deposits]
    exact h.rewarded
  · rw [State.paidTo, hs.payments, Db.holdings_congr hs.deposits hs.rewards]
    exact h.paid

theorem Balanced.insertDeposit (h : Balanced sel s) (v : UserId) (address : Address) :
    Balanced sel (s.runSql (.insertDeposit v address)).2 := by
  refine ⟨?_, h.paid.trans (Db.holdings_insertDeposit (by simp)).symm⟩
  intro r hr
  have hr' : r ∈ s.db.stakeRewards := @Db.insertDeposit_stakeRewards s.db v address ▸ hr
  obtain ⟨d, hd, hfunded⟩ := h.rewarded r hr'
  exact ⟨d, Db.mem_insertDeposit.2 (.inl hd), hfunded⟩

theorem Balanced.activateDeposit (h : Balanced sel s) (funding : COutPoint) (amount : Int)
    (hd : d ∈ s.db.stakeDeposits) (hawaiting : d.status = .awaitingFunds) :
    Balanced sel (s.runSql (.activateDeposit d.id funding amount)).2 := by
  refine ⟨?_, ?_⟩
  · intro r hr
    obtain ⟨d', hd', hid, hfunded⟩ := h.rewarded r hr
    refine ⟨_, Db.mem_activateDeposit.2 ⟨d', hd', rfl⟩, ?_⟩
    split
    · exact ⟨hid, by simp⟩
    · exact ⟨hid, hfunded⟩
  · show s.paidTo .pool sel = (s.db.activateDeposit d.id funding amount).holdings sel .withdrawn
    rw [Db.holdings_activateDeposit funding amount hd hawaiting (by simp), if_neg (by simp), Int.add_zero]
    exact h.paid

theorem Balanced.insertReward {reward : StakeReward} (h : Balanced sel s)
    (hd : d ∈ s.db.stakeDeposits) (hactive : d.status = .active) (hid : reward.depositId = d.id) :
    Balanced sel (s.runSql (.insertReward reward)).2 := by
  rcases s.db.insertReward_cases reward with heq | ⟨hnew, hrewards⟩
  · have hsame : SameLedger s (s.runSql (.insertReward reward)).2 :=
      ⟨congrArg Db.stakeDeposits heq, congrArg Db.stakeRewards heq, rfl⟩
    exact h.congr hsame
  · refine ⟨?_, ?_⟩
    · show ∀ r ∈ (s.db.insertReward reward).stakeRewards, ∃ d ∈ (s.db.insertReward reward).stakeDeposits, _
      rw [hrewards, Db.insertReward_stakeDeposits]
      intro r hr
      rcases List.mem_append.1 hr with hr | hr
      · exact h.rewarded r hr
      · obtain rfl := List.mem_singleton.1 hr
        exact ⟨d, hd, hid.symm, by simp [hactive]⟩
    · show s.paidTo .pool sel = (s.db.insertReward reward).holdings sel .withdrawn
      rw [Db.holdings_insertReward hd hid hnew, if_neg (by simp [hactive]), Int.add_zero]
      exact h.paid

theorem Balanced.payOther (h : Balanced sel s) (hp : p.wallet = .pool → sel p.userId = false) :
    Balanced sel (s.pay p) := by
  refine ⟨h.rewarded, ?_⟩
  rw [State.paidTo_pay, if_neg, Int.add_zero]
  · exact h.paid
  · rintro ⟨hwallet, hsel⟩
    rw [hp hwallet] at hsel
    cases hsel

theorem Balanced.payAll (h : Balanced sel s) (hwallet : p.wallet = .pool)
    (hall : sel p.userId = true → p.amount = s.holding p.userId .active) (hs : SameLedger (s.pay p) s') :
    Balanced sel (s'.runSql (.closeDeposits p.userId)).2 := by
  refine ⟨?_, ?_⟩
  · intro r hr
    have hr' : r ∈ s.db.stakeRewards := hs.rewards ▸ hr
    obtain ⟨d, hd, hid, hfunded⟩ := h.rewarded r hr'
    have hd' : d ∈ s'.db.stakeDeposits := hs.deposits.symm ▸ hd
    refine ⟨_, Db.mem_closeDeposits.2 ⟨d, hd', rfl⟩, ?_⟩
    split
    · exact ⟨hid, by simp⟩
    · exact ⟨hid, hfunded⟩
  · have hpaid : (s'.runSql (.closeDeposits p.userId)).2.paidTo .pool sel = (s.pay p).paidTo .pool sel := by
      rw [State.paidTo, State.paidTo, State.runSql_payments, hs.payments]
    show _ = (s'.db.closeDeposits p.userId).holdings sel .withdrawn
    rw [hpaid, State.paidTo_pay, Db.holdings_closeDeposits_withdrawn, Db.holdings_congr hs.deposits hs.rewards,
      Db.holdings_congr hs.deposits hs.rewards, h.paid]
    refine congrArg _ ?_
    cases hsel : sel p.userId with
    | true =>
      rw [if_pos ⟨hwallet, rfl⟩, hall hsel]
      refine sumWhere_congr fun d _ => ?_
      by_cases hu : d.userId = p.userId
      · simp [hu, hsel]
      · simp [hu]
    | false =>
      rw [if_neg (by simp)]
      refine (sumWhere_eq_zero fun d _ hd => ?_).symm
      simp only [Bool.and_eq_true, decide_eq_true_eq] at hd
      rw [hd.1.2, hsel] at hd
      cases hd.1.1

/-! ## The triples of the requests -/

theorem markFunded_balanced {dep : StakeDeposit} (h : Balanced sel s) (hdep : dep ∈ s.db.stakeDeposits)
    (hawaiting : dep.status = .awaitingFunds) :
    (Staking.markFunded cfg dep).Holds (balanceSetting sel)
      (fun _ s' => Balanced sel s' ∧ ∀ d, d.id ≠ dep.id → (d ∈ s.db.stakeDeposits ∧ d.status = .awaitingFunds) →
        d ∈ s'.db.stakeDeposits ∧ d.status = .awaitingFunds) (fun _ => Balanced sel) s := by
  -- What the round keeps, after any number of its steps.
  let J := fun s' : State => Balanced sel s' ∧ ∀ d, d.id ≠ dep.id → (d ∈ s.db.stakeDeposits ∧ d.status = .awaitingFunds) →
    d ∈ s'.db.stakeDeposits ∧ d.status = .awaitingFunds
  have hstable : ∀ s1 s2, J s1 → SameLedger s1 s2 → J s2 := by
    intro s1 s2 hJ hs
    refine ⟨hJ.1.congr hs, fun d hid hd => ?_⟩
    rw [hs.deposits]
    exact hJ.2 d hid hd
  refine rpc_holds rfl rfl fun s1 hs1 => ⟨trivial, fun _ => h.congr hs1, fun _ utxos _ _ => ?_⟩
  have hJ1 : J s1 := hstable s s1 ⟨h, fun _ _ hd => hd⟩ hs1
  cases utxos with
  | nil => exact fun s2 hs2 => hstable s1 s2 hJ1 hs2
  | cons u us =>
    refine sql_holds rfl fun s2 hs2 => ⟨trivial, fun _ _ => ?_⟩
    have hJ2 := hstable s1 s2 hJ1 hs2
    have hdep2 : dep ∈ s2.db.stakeDeposits := by
      rw [hs2.deposits, hs1.deposits]
      exact hdep
    have hJ3 : J (s2.runSql (.activateDeposit dep.id u.outpoint (readSatoshis u.amount))).2 := by
      refine ⟨hJ2.1.activateDeposit u.outpoint (readSatoshis u.amount) hdep2 hawaiting, fun d hid hd => ⟨?_, hd.2⟩⟩
      exact Db.mem_activateDeposit.2 ⟨d, (hJ2.2 d hid hd).1, (if_neg hid).symm⟩
    refine (creditReferralIfEligible_holds cfg rfl hstable (fun _ _ _ _ => trivial) ?_ hJ3).mono (fun _ _ hJ => hJ)
      fun _ _ hJ => hJ.1
    exact fun s4 credit hJ4 => hstable s4 _ hJ4 ⟨rfl, rfl, rfl⟩

theorem watcherPass_balanced (h : Balanced sel s) :
    (Staking.watcherPass cfg).Holds (balanceSetting sel) (fun _ => Balanced sel) (fun _ => Balanced sel) s := by
  have hmark := markFundedDeposits_holds cfg (S := balanceSetting sel)
    (M := fun d s => d ∈ s.db.stakeDeposits ∧ d.status = .awaitingFunds) rfl (fun _ _ => Balanced.congr)
    (fun d s s' _ hd hs => ⟨hs.deposits.symm ▸ hd.1, hd.2⟩) (fun _ _ _ _ => trivial) (fun _ _ _ hd hst => ⟨hd, hst⟩)
    (fun dep s hJ hdep => markFunded_balanced hJ hdep.1 hdep.2) h
  refine Prog.Holds.bind (hmark.mono (fun _ s1 h1 => ?_) fun _ _ h => h)
  refine attributeRewards_holds cfg (M := fun d s => d ∈ s.db.stakeDeposits ∧ d.status = .active) rfl
    (fun _ _ => Balanced.congr) (fun d s s' _ hd hs => ⟨hs.deposits.symm ▸ hd.1, hd.2⟩) (fun _ _ _ _ => trivial)
    (fun _ _ _ hd hst => ⟨hd, hst⟩) ?_ h1
  intro dep s2 h2 hdep
  -- Rewards change no deposit, so the round keeps all that is known of the deposits.
  refine (attributeDeposit_holds cfg (J := fun s' => Balanced sel s' ∧ s'.db.stakeDeposits = s2.db.stakeDeposits) rfl
    ?_ (fun _ _ _ => trivial) ?_ ⟨h2, rfl⟩).mono ?_ fun _ _ hs => hs.1
  · exact fun s3 s4 h3 hs => ⟨h3.1.congr hs, hs.deposits.trans h3.2⟩
  · intro s3 txid gross h3
    refine ⟨h3.1.insertReward (h3.2.symm ▸ hdep.1) hdep.2 rfl, ?_⟩
    exact (Db.insertReward_stakeDeposits _).trans h3.2
  · rintro _ s3 ⟨h3, hdeposits⟩
    exact ⟨h3, fun d hd => ⟨hdeposits.symm ▸ hd.1, hd.2⟩⟩

theorem withdraw_balanced {v : UserId} {amount : Int} {toAddress : Address} (h : Balanced sel s) :
    (Request.prog cfg (.withdraw v amount toAddress)).Holds (balanceSetting sel) (fun _ => Balanced sel)
      (fun _ => Balanced sel) s := by
  have hraise : ∀ e s, Balanced sel s → (Prog.raise e : GProg Uint256).Holds (balanceSetting sel)
      (fun _ => Balanced sel) (fun _ => Balanced sel) s :=
    fun _ _ hs _ hrely => hs.congr hrely
  refine Prog.Holds.bind (Prog.Holds.mono (Q := fun _ => Balanced sel) ?_ (fun _ s hs s' => hs.congr) fun _ _ h => h)
  have hstatus := reads_holds (S := balanceSetting sel) (p := Staking.statusForUser cfg v) rfl
    (statusForUser_within rfl fun _ => rfl) (fun _ _ => Balanced.congr) (fun _ _ _ _ => trivial) h
  refine Prog.Holds.bind (hstatus.mono (fun status s1 h1 => ?_) fun _ _ h => h)
  refine Prog.Holds.ite (fun _ => hraise _ s1 h1) fun _ => ?_
  have hensure := ensureWalletLoaded_holds (S := balanceSetting sel) .pool rfl (fun _ _ => Balanced.congr)
    (fun _ _ _ _ => trivial) h1
  refine Prog.Holds.bind (hensure.mono (fun _ s2 h2 => ?_) fun _ _ h => h)
  refine Prog.Holds.op fun s3 hs3 => ⟨trivial, fun x hmay r s4 hsem => ?_⟩
  have h3 := h2.congr hs3
  rcases sem_sendToAddress hsem with ⟨rfl, e, rfl⟩ | ⟨paid, t, -, rfl, hread, hpos, -, rfl⟩
  · exact Prog.Holds.ite (fun _ => hraise _ s4 h3) fun _ => hraise _ s4 h3
  · refine sql_holds rfl fun s5 hs5 => ⟨trivial, fun _ _ s6 hs6 => ?_⟩
    have hall : sel v = true → paid = s3.holding v .active := by
      intro hv
      have hasked : inCoins amount = inCoins (s3.holding v .active) ∧ inCoins amount < 67108864 := by
        simpa [balanceSetting, Op.paysAll, hv] using hmay
      rw [hasked.1] at hread hasked
      exact eq_of_amountFromValue (lt_of_inCoins_lt hasked.2) hread hpos
    exact (h3.payAll (p := { wallet := .pool, userId := v, toAddress, amount := paid, made := t }) rfl hall hs5).congr hs6

theorem Balanced.of_step {t : Request} {o : Op} {x : Answer} {r : o.Res} (h : Balanced sel s)
    (ht : t ≠ .watcherPass ∧ ∀ v amount toAddress, t ≠ .withdraw v amount toAddress) (hop : t.ops o)
    (hsem : sem o x s = some (r, s')) : Balanced sel s' := by
  cases t with
  | watcherPass => exact absurd rfl ht.1
  | withdraw v amount toAddress => exact absurd rfl (ht.2 v amount toAddress)
  | createDeposit v =>
    cases o with
    | sql q =>
      obtain ⟨address, rfl⟩ := hop
      obtain ⟨-, rfl⟩ := sem_sql hsem
      exact h.insertDeposit v address
    | rpc c =>
      have hc : c.isSend = false := hop
      rw [sem_of_reads (by simp [Op.reads, hc]) hsem]
      exact h
  | referralWithdraw v toAddress =>
    cases o with
    | sql q =>
      obtain ⟨-, rfl⟩ := sem_sql hsem
      cases q with
      | markCredits referrer txid => exact h.congr ⟨rfl, rfl, rfl⟩
      | countReferred _ => exact h
      | sumAvailableCredits _ => exact h
      | sumLifetimeCredits _ => exact h
      | _ => cases hop
    | rpc c =>
      rcases sem_rpc hsem with rfl | ⟨wallet, w, dest, cac, a, tx, rfl, -, -, -, -, rfl⟩
      · exact h
      · obtain ⟨a', heq⟩ := hop rfl
        cases heq
        exact h.payOther fun hwallet => by cases hwallet

theorem prog_balanced (t : Request) (h : Balanced sel s) :
    (t.prog cfg).Holds (balanceSetting sel) (fun _ => Balanced sel) (fun _ => Balanced sel) s := by
  have hother : (t ≠ .watcherPass ∧ ∀ v amount toAddress, t ≠ .withdraw v amount toAddress) →
      (t.prog cfg).Holds (balanceSetting sel) (fun _ => Balanced sel) (fun _ => Balanced sel) s := by
    intro ht
    refine .of_within (prog_within t) (fun _ _ => Balanced.congr) ?_ h
    exact fun o s hop hJ => ⟨trivial, fun x _ r s' hsem => hJ.of_step ht hop hsem⟩
  cases t with
  | watcherPass => exact watcherPass_balanced h
  | withdraw v amount toAddress => exact withdraw_balanced h
  | createDeposit v => exact hother ⟨by simp, by simp⟩
  | referralWithdraw v toAddress => exact hother ⟨by simp, by simp⟩

theorem requests_exclusive : Exclusive (gateway cfg) (fullWithdrawals sel) (fun _ => true) Request.ops
    (balanceSetting sel) (Balanced sel) where
  sem := rfl
  stable _ _ := Balanced.congr
  within := prog_within
  alone P t hA _ := by simpa [fullWithdrawals, requestsApart] using hA
  start P t _ _ hJ := prog_balanced t hJ
  may P i x t p o hA hi _ ho := by
    simp only [fullWithdrawals, requestsApart, Bool.true_and, Pool.next, hi, Option.bind_some, ho, Option.all_some] at hA
    exact hA
  others P i x t p o r s' _ _ ht := by cases ht
  kill P i t p o hA := by simp [fullWithdrawals, requestsApart] at hA
  ext P e s' _ hext := ⟨fun _ => ext_sameLedger hext, fun _ hJ => hJ.congr (ext_sameLedger hext)⟩

theorem Balanced.of_reachable {P : GPool} (h : Reachable (gateway cfg) (fullWithdrawals sel) {} P)
    (hidle : P.busy (fun _ => true) = false) : Balanced sel P.state := by
  refine (h.exclusive requests_exclusive ⟨fun r hr => ?_, rfl⟩).of_free hidle
  exact (List.not_mem_nil hr).elim

end

theorem reported_balance {P : GPool} (h : Reachable (gateway cfg) (fullWithdrawals fun v => decide (v = userId)) {} P)
    (hidle : P.busy (fun _ => true) = false) :
    ∃ status, evalSql (Staking.statusForUser cfg userId) P.state.db = some status ∧
      P.state.paid .pool userId + status.delegatedAmount + status.accruedRewards =
        P.state.db.fundedAmounts userId + P.state.db.creditedRewards fun d => decide (d.userId = userId) := by
  have hJ := Balanced.of_reachable h hidle
  obtain ⟨status, heval, hstatus⟩ := Staking.statusForUser_eval cfg userId P.state.db
  refine ⟨status, heval, ?_⟩
  have hall : P.state.db.creditedRewards (fun d => decide (d.userId = userId)) =
      P.state.db.creditedRewards fun d => decide (d.userId = userId ∧ d.status ≠ .awaitingFunds) := by
    refine sumWhere_congr fun r hr => ?_
    obtain ⟨d0, hd0, hid0, hfunded⟩ := hJ.rewarded r hr
    have hany : (P.state.db.stakeDeposits.any fun d => decide (r.depositId = d.id) && decide (d.userId = userId)) =
        P.state.db.stakeDeposits.any fun d =>
          decide (r.depositId = d.id) && decide (d.userId = userId ∧ d.status ≠ .awaitingFunds) := by
      rw [Bool.eq_iff_iff, List.any_eq_true, List.any_eq_true]
      constructor
      · rintro ⟨d, hd, hp⟩
        simp only [Bool.and_eq_true, decide_eq_true_eq] at hp
        obtain rfl := P.state.db.deposit_ext hd hd0 (hp.1.symm.trans hid0.symm)
        exact ⟨d, hd, by simp [hp.1, hp.2, hfunded]⟩
      · rintro ⟨d, hd, hp⟩
        simp only [Bool.and_eq_true, decide_eq_true_eq] at hp
        exact ⟨d, hd, by simp [hp.1, hp.2.1]⟩
    rw [hany]
  rw [hall, Db.fundedAmounts_add_creditedRewards, Int.add_assoc, hstatus, State.paid, hJ.paid, Int.add_comm]

theorem sampleWithdrawal_balance :
    ∃ P : GPool, Reachable (gateway {}) (fullWithdrawals fun v => decide (v = 1)) {} P ∧
      P.busy (fun _ => true) = false ∧ P.state.paid .pool 1 = 500 ∧
      ∃ status, evalSql (Staking.statusForUser {} 1) P.state.db = some status ∧
        P.state.paid .pool 1 + status.delegatedAmount + status.accruedRewards =
          P.state.db.fundedAmounts 1 + P.state.db.creditedRewards fun d => decide (d.userId = 1) := by
  have hrun : ∃ P : GPool, Reachable (gateway {}) (fullWithdrawals fun v => decide (v = 1)) {} P ∧
      P.busy (fun _ => true) = false ∧ P.state.paid .pool 1 = 500 :=
    Reachable.exists_of_run (sampleFunding ++ sampleWithdrawal) (by decide +kernel)
  obtain ⟨P, hreach, hidle, hpaid⟩ := hrun
  exact ⟨P, hreach, hidle, hpaid, reported_balance {} 1 hreach hidle⟩

def partialWithdrawal : List GEvent := withdrawalOf 200

scoped instance decidableExistsSome {α : Type} (o : Option α) (p : α → Prop) [DecidablePred p] :
    Decidable (∃ a, o = some a ∧ p a) :=
  decidable_of_iff (o.any fun a => decide (p a)) (by simp [Option.any_eq_true])

/-- **The rest of a withdrawal that asks for less than the balance is lost**: all deposits are closed, and nothing is
reported any more. And a withdrawal of the whole of a large balance pays a satoshi more than it. -/
theorem partial_withdrawal_loses :
    (∃ P : GPool, Reachable (gateway {}) requestsApart {} P ∧ P.busy (fun _ => true) = false ∧
      ∃ status, evalSql (Staking.statusForUser {} 1) P.state.db = some status ∧
        P.state.paid .pool 1 + status.delegatedAmount + status.accruedRewards = 200 ∧
        P.state.db.fundedAmounts 1 + P.state.db.creditedRewards (fun d => decide (d.userId = 1)) = 500) ∧
    ∃ P : GPool, Reachable (gateway {}) requestsApart {} P ∧ P.busy (fun _ => true) = false ∧
      ∃ status, evalSql (Staking.statusForUser {} 1) P.state.db = some status ∧
        P.state.paid .pool 1 + status.delegatedAmount + status.accruedRewards = 13421772800000003 ∧
        P.state.db.fundedAmounts 1 + P.state.db.creditedRewards (fun d => decide (d.userId = 1)) = 13421772800000002 := by
  refine ⟨Reachable.exists_of_run (sampleFunding ++ partialWithdrawal) ?_,
    Reachable.exists_of_run (fundingOf 13421772800000002 ++ withdrawalOf 13421772800000002) ?_⟩
  · decide +kernel
  · decide +kernel

end CodexaCoin.Gateway
