import CodexaCoin.Gateway.Programs

/-!
# What the staking pool pays to a user

`withdraw` reads the balance, pays and closes the deposits in separate steps, while passes of the watcher and requests of
other users go on.
-/

namespace CodexaCoin.Gateway

open Process Table

/-! ## Amounts that are not negative -/

/-- No recorded amount and no recorded net reward is negative. -/
structure Db.Nonneg (db : Db) : Prop where
  amounts : ∀ d ∈ db.stakeDeposits, 0 ≤ d.amountSatoshis.getD 0
  rewards : ∀ r ∈ db.stakeRewards, 0 ≤ r.netRewardSatoshis

section Nonneg

variable {db : Db}

theorem Db.Nonneg.worth (h : db.Nonneg) {d : StakeDeposit} (hd : d ∈ db.stakeDeposits) : 0 ≤ db.worth d :=
  Int.add_nonneg (h.amounts d hd) (sumWhere_nonneg fun r hr _ => h.rewards r hr)

theorem Db.Nonneg.congr {db' : Db} (h : db.Nonneg) (hdeposits : db'.stakeDeposits = db.stakeDeposits)
    (hrewards : db'.stakeRewards = db.stakeRewards) : db'.Nonneg :=
  ⟨hdeposits ▸ h.amounts, hrewards ▸ h.rewards⟩

theorem Db.Nonneg.insertDeposit (h : db.Nonneg) (userId : UserId) (address : Address) :
    (db.insertDeposit userId address).2.Nonneg := by
  rcases db.insertDeposit_cases userId address with heq | ⟨db', heq, -, hdeposits, -, hrewards, -⟩
  · rw [heq]
    exact h
  · rw [heq]
    refine ⟨fun d hd => ?_, hrewards ▸ h.rewards⟩
    rw [hdeposits, List.mem_append, List.mem_singleton] at hd
    rcases hd with hd | rfl
    · exact h.amounts d hd
    · exact le_refl _

theorem Db.Nonneg.activateDeposit (h : db.Nonneg) {id : DepositId} {funding : COutPoint} {amount : Int}
    (hamount : 0 ≤ amount) : (db.activateDeposit id funding amount).Nonneg := by
  refine ⟨fun d hd => ?_, h.rewards⟩
  obtain ⟨d', hd', rfl⟩ := Db.mem_activateDeposit.1 hd
  split
  · exact hamount
  · exact h.amounts d' hd'

theorem Db.Nonneg.closeDeposits (h : db.Nonneg) (userId : UserId) : (db.closeDeposits userId).Nonneg := by
  refine ⟨fun d hd => ?_, h.rewards⟩
  obtain ⟨d', hd', rfl⟩ := Db.mem_closeDeposits.1 hd
  split
  · exact h.amounts d' hd'
  · exact h.amounts d' hd'

theorem Db.Nonneg.insertReward (h : db.Nonneg) {reward : StakeReward} (hnet : 0 ≤ reward.netRewardSatoshis) :
    (db.insertReward reward).Nonneg := by
  refine ⟨by simpa using h.amounts, fun r hr => ?_⟩
  rcases db.insertReward_cases reward with heq | ⟨-, hrewards⟩
  · rw [heq] at hr
    exact h.rewards r hr
  · rw [hrewards, List.mem_append, List.mem_singleton] at hr
    rcases hr with hr | rfl
    · exact h.rewards r hr
    · exact hnet

end Nonneg

/-! ## What the others leave as it is -/

variable (cfg : Config) (userId : UserId)

abbrev State.holding (s : State) (status : DepositStatus) : Int :=
  s.db.holdings (fun v => decide (v = userId)) status

/-- A step that pays the user nothing, closes none of the user's deposits and takes nothing from them. -/
structure Undisturbed (s s' : State) : Prop where
  nonneg : s'.db.Nonneg
  paid : s'.paid .pool userId = s.paid .pool userId
  withdrawn : s.holding userId .withdrawn ≤ s'.holding userId .withdrawn
  active : s.holding userId .active ≤ s'.holding userId .active
  kept : ∀ d ∈ s.db.stakeDeposits, d.userId = userId → d.status = .active → d ∈ s'.db.stakeDeposits

section Undisturbed

variable {userId} {s s' : State}

theorem Undisturbed.refl (h : s.db.Nonneg) : Undisturbed userId s s :=
  ⟨h, rfl, le_refl _, le_refl _, fun _ hd _ _ => hd⟩

theorem Undisturbed.trans {s'' : State} (h : Undisturbed userId s s') (h' : Undisturbed userId s' s'') :
    Undisturbed userId s s'' := by
  refine ⟨h'.nonneg, h'.paid.trans h.paid, h.withdrawn.trans h'.withdrawn, h.active.trans h'.active, ?_⟩
  intro d hd hu hst
  exact h'.kept d (h.kept d hd hu hst) hu hst

theorem Undisturbed.of_eq (h : s.db.Nonneg) (hdeposits : s'.db.stakeDeposits = s.db.stakeDeposits)
    (hrewards : s'.db.stakeRewards = s.db.stakeRewards) (hpaid : s'.paid .pool userId = s.paid .pool userId) :
    Undisturbed userId s s' := by
  refine ⟨h.congr hdeposits hrewards, hpaid, ?_, ?_, ?_⟩
  · exact le_of_eq (Db.holdings_congr hdeposits hrewards).symm
  · exact le_of_eq (Db.holdings_congr hdeposits hrewards).symm
  · intro d hd _ _
    rwa [hdeposits]

theorem Undisturbed.insertDeposit (h : s.db.Nonneg) (v : UserId) (address : Address) :
    Undisturbed userId s (s.runSql (.insertDeposit v address)).2 := by
  refine ⟨h.insertDeposit v address, rfl, ?_, ?_, ?_⟩
  · exact le_of_eq (Db.holdings_insertDeposit (by simp)).symm
  · exact le_of_eq (Db.holdings_insertDeposit (by simp)).symm
  · intro d hd _ _
    show d ∈ (s.db.insertDeposit v address).2.stakeDeposits
    rcases s.db.insertDeposit_cases v address with heq | ⟨db', heq, -, hdeposits, -⟩
    · rwa [heq]
    · rw [heq, hdeposits]
      exact List.mem_append_left _ hd

theorem Undisturbed.activateDeposit (h : s.db.Nonneg) {id : DepositId} {funding : COutPoint} {amount : Int}
    (hamount : 0 ≤ amount) (hawaiting : ∀ d ∈ s.db.stakeDeposits, d.id = id → d.status = .awaitingFunds) :
    Undisturbed userId s (s.runSql (.activateDeposit id funding amount)).2 := by
  have hholding : ∀ status, status ≠ .awaitingFunds →
      s.holding userId status ≤ (s.db.activateDeposit id funding amount).holdings
        (fun v => decide (v = userId)) status := by
    intro status hstatus
    by_cases hid : ∃ d ∈ s.db.stakeDeposits, d.id = id
    · obtain ⟨d, hd, rfl⟩ := hid
      rw [State.holding, Db.holdings_activateDeposit funding amount hd (hawaiting d hd rfl) hstatus]
      have hrewards : 0 ≤ s.db.rewardsOf d.id := sumWhere_nonneg fun r hr _ => h.rewards r hr
      split <;> omega
    · -- No row has the id, so the update changes nothing.
      have hsame : (s.db.activateDeposit id funding amount).stakeDeposits = s.db.stakeDeposits := by
        refine (List.map_congr_left fun d hd => ?_).trans (List.map_id _)
        exact if_neg fun hp => hid ⟨d, hd, of_decide_eq_true hp⟩
      exact le_of_eq (Db.holdings_congr hsame rfl).symm
  refine ⟨h.activateDeposit hamount, rfl, hholding _ (by simp), hholding _ (by simp), ?_⟩
  intro d hd _ hst
  refine Db.mem_activateDeposit.2 ⟨d, hd, ?_⟩
  rw [if_neg]
  intro hid
  rw [hawaiting d hd hid] at hst
  cases hst

theorem Undisturbed.insertReward (h : s.db.Nonneg) {reward : StakeReward} (hnet : 0 ≤ reward.netRewardSatoshis) :
    Undisturbed userId s (s.runSql (.insertReward reward)).2 :=
  ⟨h.insertReward hnet, rfl, Db.holdings_le_insertReward hnet, Db.holdings_le_insertReward hnet, by
    intro d hd _ _
    show d ∈ (s.db.insertReward reward).stakeDeposits
    rwa [Db.insertReward_stakeDeposits]⟩

theorem Undisturbed.closeDeposits (h : s.db.Nonneg) {v : UserId} (hv : v ≠ userId) :
    Undisturbed userId s (s.runSql (.closeDeposits v)).2 := by
  refine ⟨h.closeDeposits v, rfl, ?_, ?_, ?_⟩
  · show _ ≤ (s.db.closeDeposits v).holdings _ .withdrawn
    rw [Db.holdings_closeDeposits_withdrawn]
    have hnonneg : 0 ≤ s.db.holdings (fun w => decide (w = userId) && decide (w = v)) .active :=
      sumWhere_nonneg fun d hd _ => h.worth hd
    exact Int.le_add_of_nonneg_right hnonneg
  · show _ ≤ (s.db.closeDeposits v).holdings _ .active
    rw [Db.holdings_closeDeposits_active]
    refine le_of_eq (sumWhere_congr fun d _ => ?_)
    by_cases hu : d.userId = userId
    · simp [hu, Ne.symm hv]
    · simp [hu]
  · intro d hd hu _
    refine Db.mem_closeDeposits.2 ⟨d, hd, ?_⟩
    rw [if_neg]
    rintro ⟨hv', -⟩
    exact hv (hv'.symm.trans hu)

end Undisturbed

/-! ## Runs in which a user's withdrawals do not overlap -/

def Request.isWithdrawOf : Request → Bool
  | .withdraw v _ _ => decide (v = userId)
  | _ => false

/-- A deposit is marked active only while it awaits its funds, with an amount that is not negative, and no net reward is
negative. -/
def Op.sane (s : State) : Op → Bool
  | .sql (.activateDeposit id _ amount) =>
      decide (0 ≤ amount) && s.db.stakeDeposits.all fun d => decide (d.id = id → d.status = .awaitingFunds)
  | .sql (.insertReward reward) => decide (0 ≤ reward.netRewardSatoshis)
  | _ => true

/-- A withdrawal of the user starts only when no other one is under way, none is killed, and none is of 2²⁶ coins or
more. -/
def withdrawalsApart : GPool → GEvent → Bool
  | P, .spawn t => !(t.isWithdrawOf userId && P.busy (Request.isWithdrawOf userId))
  | P, .step i _ => (P.next i).all fun o => o.sane P.state && o.paysSmall .pool userId
  | P, .kill i => P.procs[i]?.all fun p => !p.1.isWithdrawOf userId
  | _, .ext _ => true

section

variable {cfg userId} {s s' : State}

theorem Undisturbed.of_step {t : Request} {o : Op} {x : Answer} {r : o.Res} (h : s.db.Nonneg)
    (ht : t.isWithdrawOf userId = false) (hop : t.ops o) (hsane : o.sane s = true)
    (hsem : sem o x s = some (r, s')) : Undisturbed userId s s' := by
  cases o with
  | rpc c =>
    rcases sem_rpc hsem with rfl | ⟨wallet, v, toAddress, amountCac, amount, tx, rfl, -, -, -, -, rfl⟩
    · exact .refl h
    · refine .of_eq h rfl rfl ?_
      rw [State.paid, State.paidTo_pay, if_neg, Int.add_zero]
      rintro ⟨hwallet, hv⟩
      cases t with
      | createDeposit w => cases hop
      | watcherPass => cases hop
      | withdraw w a dest =>
        cases hop rfl
        exact of_decide_eq_false ht (of_decide_eq_true hv)
      | referralWithdraw w dest =>
        obtain ⟨a, heq⟩ := hop rfl
        cases heq
        cases hwallet
  | sql q =>
    obtain ⟨rfl, rfl⟩ := sem_sql hsem
    cases q with
    | insertDeposit v address => exact .insertDeposit h v address
    | activateDeposit id funding amount =>
      simp only [Op.sane, Bool.and_eq_true, decide_eq_true_eq, List.all_eq_true] at hsane
      exact .activateDeposit h hsane.1 hsane.2
    | insertReward reward => exact .insertReward h (of_decide_eq_true hsane)
    | closeDeposits v =>
      cases t with
      | withdraw w a dest =>
        cases hop
        exact .closeDeposits h (of_decide_eq_false ht)
      | createDeposit w => cases hop.choose_spec
      | watcherPass => cases hop
      | referralWithdraw w dest => cases hop
    | insertCredit credit => exact .of_eq h rfl rfl rfl
    | markCredits referrer txid => exact .of_eq h rfl rfl rfl
    | _ =>
      rw [State.runSql_of_query s rfl]
      exact .refl h

end

/-! ## The triple of a withdrawal -/

def withdrawSetting : Prog.Setting Op Op.Res State Answer where
  sem := sem
  may o _ _ := o.paysSmall .pool userId = true
  pre _ s := s.db.Nonneg ∧ s.paid .pool userId ≤ s.holding userId .withdrawn + s.holding userId .active
  rely s s' := s.db.Nonneg → Undisturbed userId s s'
  rely_refl _ h := .refl h
  rely_trans h h' hn := (h hn).trans (h' (h hn).nonneg)

/-- What was paid is covered by the deposits that are withdrawn. -/
structure Covered (s : State) : Prop where
  nonneg : s.db.Nonneg
  covered : s.paid .pool userId ≤ s.holding userId .withdrawn

section

variable {cfg userId} {s s' : State}

theorem active_nonneg (h : s.db.Nonneg) : 0 ≤ s.holding userId .active :=
  sumWhere_nonneg fun _ hd _ => h.worth hd

theorem Covered.pre (h : Covered userId s) (o : Op) : (withdrawSetting userId).pre o s :=
  ⟨h.nonneg, h.covered.trans (Int.le_add_of_nonneg_right (active_nonneg h.nonneg))⟩

theorem Covered.stable (h : Covered userId s) (hs : (withdrawSetting userId).rely s s') : Covered userId s' := by
  have hu := hs h.nonneg
  refine ⟨hu.nonneg, ?_⟩
  rw [hu.paid]
  exact h.covered.trans hu.withdrawn

theorem Covered.of_close {o : Op} (h : (withdrawSetting userId).pre o s) :
    Covered userId (s.runSql (.closeDeposits userId)).2 := by
  refine ⟨h.1.closeDeposits userId, h.2.trans (le_of_eq ?_)⟩
  show _ = (s.db.closeDeposits userId).holdings _ .withdrawn
  rw [Db.holdings_closeDeposits_withdrawn]
  refine congrArg _ (sumWhere_congr fun d _ => ?_)
  simp

theorem reported_le (hs : Undisturbed userId s s') :
    ((s.db.activeOf userId).map fun d => d.amountSatoshis.getD 0).sum +
      sumWhere (fun r => decide (r.depositId ∈ (s.db.activeOf userId).map (·.id))) (·.netRewardSatoshis)
        s'.db.stakeRewards ≤ s'.holding userId .active := by
  have hids := s.db.nodup_activeOf userId
  rw [s'.db.report_eq hids]
  have hall : ((s.db.activeOf userId).map s'.db.worth).sum =
      sumWhere (fun _ => true) s'.db.worth (s.db.activeOf userId) := by
    rw [sumWhere, List.filter_true]
  rw [hall]
  refine sumWhere_le_of_subset hids.of_map ?_ fun d hd _ => hs.nonneg.worth hd
  intro d hd _
  obtain ⟨hd, hu, hst⟩ := s.db.mem_activeOf.1 hd
  exact ⟨hs.kept d hd hu hst, by simp [hu, hst]⟩

theorem statusForUser_holds (h : Covered userId s) :
    (Staking.statusForUser cfg userId).Holds (withdrawSetting userId)
      (fun status s => Covered userId s ∧ status.delegatedAmount + status.accruedRewards ≤ s.holding userId .active)
      (fun _ => Covered userId) s := by
  -- What has been read stays covered, whatever the others do.
  have hstable : ∀ (reported : Int) (s s' : State), Covered userId s ∧ reported ≤ s.holding userId .active →
      (withdrawSetting userId).rely s s' → Covered userId s' ∧ reported ≤ s'.holding userId .active :=
    fun _ _ _ hs hrely => ⟨hs.1.stable hrely, hs.2.trans (hrely hs.1.nonneg).active⟩
  refine sql_holds rfl fun s1 h1 => ?_
  have hc1 := h.stable h1
  refine ⟨hc1.pre _, fun _ _ => ?_⟩
  refine Prog.Holds.bind ?_
  have hread := fun s2 (h2 : (withdrawSetting userId).rely s1 s2) => reported_le (h2 hc1.nonneg)
  refine Prog.Holds.ite (fun hempty => ?_) fun _ => ?_
  · -- No deposit is active, and no rewards are asked for.
    intro s2 h2 s3 h3
    rw [List.isEmpty_iff, List.map_eq_nil_iff] at hempty
    refine hstable _ s2 s3 ⟨hc1.stable h2, ?_⟩ h3
    simpa [hempty] using active_nonneg (h2 hc1.nonneg).nonneg
  · refine sql_holds (f := Prog.ret) rfl fun s2 h2 => ⟨(hc1.stable h2).pre _, fun _ _ s3 h3 s4 h4 => ?_⟩
    have hc2 := hc1.stable h2
    exact hstable _ s3 s4 (hstable _ s2 s3 ⟨hc2, hread s2 h2⟩ h3) h4

/-- **A withdrawal leaves what was paid covered,** as long as the others leave the user undisturbed. -/
theorem withdraw_holds (amount : Int) (toAddress : Address) (h : Covered userId s) :
    (Request.prog cfg (.withdraw userId amount toAddress)).Holds (withdrawSetting userId)
      (fun _ => Covered userId) (fun _ => Covered userId) s := by
  have hraise : ∀ e s, Covered userId s → (Prog.raise e : GProg Uint256).Holds (withdrawSetting userId)
      (fun _ => Covered userId) (fun _ => Covered userId) s :=
    fun _ _ hs _ hrely => hs.stable hrely
  refine Prog.Holds.bind (Prog.Holds.mono (Q := fun _ => Covered userId) ?_ (fun _ s hs s' => hs.stable) fun _ _ h => h)
  refine Prog.Holds.bind ((statusForUser_holds h).mono (fun status s1 h1 => ?_) fun _ _ h => h)
  refine Prog.Holds.ite (fun _ => hraise _ s1 h1.1) fun hle => ?_
  -- The amount stays below what is active until the deposits are closed.
  let J := fun s => Covered userId s ∧ amount ≤ s.holding userId .active
  have hstable : ∀ s s', J s → (withdrawSetting userId).rely s s' → J s' :=
    fun s s' hs hrely => ⟨hs.1.stable hrely, hs.2.trans (hrely hs.1.nonneg).active⟩
  have hensure := ensureWalletLoaded_holds .pool (J := J) rfl hstable (fun o s _ hs => hs.1.pre o)
    ⟨h1.1, (not_lt.1 hle).trans h1.2⟩
  refine Prog.Holds.bind (hensure.mono (fun _ s2 h2 => ?_) fun _ _ h => h.1)
  refine Prog.Holds.op fun s3 hs3 => ?_
  obtain ⟨hc3, ha3⟩ := hstable s2 s3 h2 hs3
  refine ⟨hc3.pre _, fun x hmay r s4 hsem => ?_⟩
  rcases sem_sendToAddress hsem with ⟨rfl, e, rfl⟩ | ⟨paid, t, -, rfl, hread, hpos, -, rfl⟩
  · exact Prog.Holds.ite (fun _ => hraise _ s4 hc3) fun _ => hraise _ s4 hc3
  · -- The payment is covered by what is active, and once the deposits are closed, by what is withdrawn.
    refine sql_holds rfl fun s5 hs5 => ?_
    have hu := hs5 hc3.nonneg
    have hpre : (withdrawSetting userId).pre (.sql (.closeDeposits userId)) s5 := by
      refine ⟨hu.nonneg, ?_⟩
      have hpaid : s5.paid .pool userId = s3.paid .pool userId + amount := by
        rw [hu.paid, State.paid, State.paidTo_pay, if_pos ⟨rfl, decide_eq_true rfl⟩]
        exact congrArg _ (Op.paysSmall.amount_eq hmay hread hpos)
      have hcovered := hc3.covered
      have hwithdrawn : s3.holding userId .withdrawn ≤ s5.holding userId .withdrawn := hu.withdrawn
      have hactive : s3.holding userId .active ≤ s5.holding userId .active := hu.active
      omega
    exact ⟨hpre, fun _ _ s6 hs6 => (Covered.of_close hpre).stable hs6⟩

theorem withdrawals_exclusive : Exclusive (gateway cfg) (withdrawalsApart userId) (Request.isWithdrawOf userId)
    Request.ops (withdrawSetting userId) (Covered userId) where
  sem := rfl
  stable _ _ h hs := h.stable hs
  within := prog_within
  alone P t hA ht := by
    simp only [withdrawalsApart, ht, Bool.true_and, Bool.not_eq_true'] at hA
    exact hA
  start P t _ ht hJ := by
    cases t with
    | withdraw v amount toAddress =>
      obtain rfl := of_decide_eq_true ht
      exact withdraw_holds amount toAddress hJ
    | createDeposit v => cases ht
    | watcherPass => cases ht
    | referralWithdraw v toAddress => cases ht
  may P i x t p o hA hi _ ho := by
    simp only [withdrawalsApart, Pool.next, hi, Option.bind_some, ho, Option.all_some, Bool.and_eq_true] at hA
    exact hA.2
  others P i x t p o r s' hA hi ht ho hop hsem := by
    simp only [withdrawalsApart, Pool.next, hi, Option.bind_some, ho, Option.all_some, Bool.and_eq_true] at hA
    have hsane := hA.1
    have hrely : (withdrawSetting userId).rely P.state s' := fun hn => .of_step hn ht hop hsane hsem
    exact ⟨fun _ => hrely, fun _ hJ => hJ.stable hrely⟩
  kill P i t p o hA hi ht _ _ := by
    simp only [withdrawalsApart, hi, Option.all_some, ht] at hA
    cases hA
  ext P e s' _ hext := by
    have hsame := ext_sameLedger hext
    have hrely : (withdrawSetting userId).rely P.state s' := by
      refine fun hn => .of_eq hn hsame.deposits hsame.rewards ?_
      rw [State.paid, State.paid, State.paidTo, State.paidTo, hsame.payments]
    exact ⟨fun _ => hrely, fun _ hJ => hJ.stable hrely⟩

end

theorem withdraw_no_overpayment {P : GPool} (h : Reachable (gateway cfg) (withdrawalsApart userId) {} P) :
    P.state.paid .pool userId ≤ P.state.db.fundedAmounts userId +
      P.state.db.creditedRewards (fun d => decide (d.userId = userId ∧ d.status ≠ .awaitingFunds)) := by
  have hinit : Covered userId ({} : State) :=
    ⟨⟨fun d hd => (List.not_mem_nil hd).elim, fun r hr => (List.not_mem_nil hr).elim⟩, le_refl _⟩
  have hbound := (h.exclusive withdrawals_exclusive hinit).always (fun s hs => hs.pre (.sql .selectActive))
    fun _ _ hs => hs
  rw [Db.fundedAmounts_add_creditedRewards, Int.add_comm]
  exact hbound.2

/-! ## Two runs -/

def sampleWallets : Answer := .names ["stakingpool", "adminwallet"]

/-- A deposit of user 1 that is funded with an amount. -/
def fundingOf (amount : Int) : List GEvent :=
  .spawn (.createDeposit 1) :: [sampleWallets, .address 7, .none, .done].map (.step 0) ++
    .spawn .watcherPass :: [sampleWallets, .none, .utxos [⟨⟨11, 0⟩, amount⟩], .none, .none, sampleWallets, .none,
      .txout (some ⟨amount, [1]⟩)].map (.step 1)

def sampleFunding : List GEvent := fundingOf 500

def samplePayment (txid : Uint256) : Answer := .sent ⟨txid, { vin := [], vout := [] }⟩

def withdrawalOf (amount : Int) : List GEvent :=
  .spawn (.withdraw 1 amount 9) :: [.none, .none, sampleWallets, samplePayment 12, .none].map (.step 2)

def sampleWithdrawal : List GEvent := withdrawalOf 500

theorem sampleWithdrawal_no_overpayment :
    ∃ P : GPool, Reachable (gateway {}) (withdrawalsApart 1) {} P ∧ P.state.paid .pool 1 = 500 ∧
      P.state.paid .pool 1 ≤ P.state.db.fundedAmounts 1 +
        P.state.db.creditedRewards (fun d => decide (d.userId = 1 ∧ d.status ≠ .awaitingFunds)) := by
  have hrun : ∃ P : GPool, Reachable (gateway {}) (withdrawalsApart 1) {} P ∧ P.state.paid .pool 1 = 500 :=
    Reachable.exists_of_run (sampleFunding ++ sampleWithdrawal) (by decide +kernel)
  obtain ⟨P, hreach, hpaid⟩ := hrun
  exact ⟨P, hreach, hpaid, withdraw_no_overpayment {} 1 hreach⟩

def overlappingWithdrawals : List GEvent :=
  .spawn (.withdraw 1 500 9) :: [.none, .none, sampleWallets].map (.step 2) ++
    .spawn (.withdraw 1 500 9) :: [.none, .none, sampleWallets, samplePayment 12, .none].map (.step 3) ++
    [samplePayment 13, .none].map (.step 2)

/-- **Two withdrawals that overlap pay the same deposit twice, and a single one of a large amount can pay a satoshi more
than was deposited.** -/
theorem overlapping_withdrawals_overpay :
    (∃ P : GPool, Reachable (gateway {}) (fun _ _ => true) {} P ∧
      P.state.db.fundedAmounts 1 +
        P.state.db.creditedRewards (fun d => decide (d.userId = 1 ∧ d.status ≠ .awaitingFunds)) = 500 ∧
      P.state.paid .pool 1 = 1000) ∧
    ∃ P : GPool, Reachable (gateway {}) (fun _ _ => true) {} P ∧
      P.state.db.fundedAmounts 1 +
        P.state.db.creditedRewards (fun d => decide (d.userId = 1 ∧ d.status ≠ .awaitingFunds)) = 13421772800000002 ∧
      P.state.paid .pool 1 = 13421772800000003 := by
  refine ⟨Reachable.exists_of_run (sampleFunding ++ overlappingWithdrawals) ?_,
    Reachable.exists_of_run (fundingOf 13421772800000002 ++ withdrawalOf 13421772800000002) ?_⟩
  · decide +kernel
  · decide +kernel

end CodexaCoin.Gateway
