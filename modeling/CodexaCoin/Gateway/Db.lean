import CodexaCoin.Primitives
import CodexaCoin.Lib.Table

/-!
# The database of the gateway

The tables of `db.py` that the staking pool and the referral program use, and the SQL statements of `staking.py` and
`referral.py` on them. The `PRIMARY KEY AUTOINCREMENT` and `UNIQUE` constraints are fields of `Db`, so every statement
keeps them.
-/

namespace CodexaCoin.Gateway

open Table

/-! ## Tables -/

abbrev UserId := Nat

abbrev DepositId := Nat

abbrev Address := Nat

/-- The `status` of a deposit. -/
inductive DepositStatus where
  | awaitingFunds
  | active
  | withdrawn
deriving DecidableEq, Repr

/-- A row of `users`. -/
structure User where
  id : UserId
  referredBy : Option UserId
deriving DecidableEq, Repr

/-- A row of `stake_deposits`; `funding` is the pair of `funding_txid` and `funding_vout`. -/
structure StakeDeposit where
  id : DepositId
  userId : UserId
  depositAddress : Address
  funding : Option COutPoint := none
  amountSatoshis : Option Int := none
  status : DepositStatus := .awaitingFunds
deriving DecidableEq, Repr

/-- A row of `stake_rewards`. -/
structure StakeReward where
  depositId : DepositId
  coinstakeTxid : Uint256
  grossRewardSatoshis : Int
  poolFeeSatoshis : Int
  netRewardSatoshis : Int
deriving DecidableEq, Repr

/-- A row of `referral_credits`; `withdrawalTxid` stands for `withdrawn_at` too, since the two are set together. -/
structure ReferralCredit where
  referrerUserId : UserId
  referredUserId : UserId
  sourceDepositId : DepositId
  amountSatoshis : Int
  withdrawalTxid : Option Uint256 := none
deriving DecidableEq, Repr

def autoincrement (n : Nat) : List Nat := (List.range n).map (· + 1)

structure Db where
  users : List User := []
  stakeDeposits : List StakeDeposit := []
  stakeRewards : List StakeReward := []
  referralCredits : List ReferralCredit := []
  users_id : users.map (·.id) = autoincrement users.length := by rfl
  deposits_id : stakeDeposits.map (·.id) = autoincrement stakeDeposits.length := by rfl
  depositAddress_unique : (stakeDeposits.map (·.depositAddress)).Nodup := by decide
  coinstakeTxid_unique : (stakeRewards.map (·.coinstakeTxid)).Nodup := by decide

theorem autoincrement_succ (n : Nat) : autoincrement (n + 1) = autoincrement n ++ [n + 1] := by
  simp [autoincrement, List.range_succ]

theorem nodup_autoincrement (n : Nat) : (autoincrement n).Nodup :=
  List.nodup_range.map (add_left_injective 1)

namespace Db

variable (db : Db) {d d' : StakeDeposit}

theorem nodup_deposit_ids : (db.stakeDeposits.map (·.id)).Nodup :=
  db.deposits_id ▸ nodup_autoincrement _

theorem deposit_ext (hd : d ∈ db.stakeDeposits) (hd' : d' ∈ db.stakeDeposits)
    (h : d.id = d'.id) : d = d' :=
  List.inj_on_of_nodup_map db.nodup_deposit_ids hd hd' h

theorem deposit_ext_address (hd : d ∈ db.stakeDeposits) (hd' : d' ∈ db.stakeDeposits)
    (h : d.depositAddress = d'.depositAddress) : d = d' :=
  List.inj_on_of_nodup_map db.depositAddress_unique hd hd' h

/-! ## Statements that write -/

/-- `INSERT INTO users`, with the id that the row gets. -/
def insertUser (referredBy : Option UserId) : Db where
  users := db.users ++ [{ id := db.users.length + 1, referredBy }]
  stakeDeposits := db.stakeDeposits
  stakeRewards := db.stakeRewards
  referralCredits := db.referralCredits
  users_id := by simp [db.users_id, autoincrement_succ]
  deposits_id := db.deposits_id
  depositAddress_unique := db.depositAddress_unique
  coinstakeTxid_unique := db.coinstakeTxid_unique

/-- The table `stake_deposits` after an update of columns other than `id` and `deposit_address`. -/
def updateDeposits (p : StakeDeposit → Bool) (u : StakeDeposit → StakeDeposit) (hid : ∀ d, (u d).id = d.id)
    (haddress : ∀ d, (u d).depositAddress = d.depositAddress) : Db where
  users := db.users
  stakeDeposits := updateWhere p u db.stakeDeposits
  stakeRewards := db.stakeRewards
  referralCredits := db.referralCredits
  users_id := db.users_id
  deposits_id := by rw [map_updateWhere hid, length_updateWhere, db.deposits_id]
  depositAddress_unique := by rw [map_updateWhere haddress]; exact db.depositAddress_unique
  coinstakeTxid_unique := db.coinstakeTxid_unique

/-- `INSERT INTO stake_deposits`: the id of the row, or nothing where the address is already there. -/
def insertDeposit (userId : UserId) (address : Address) : Option DepositId × Db :=
  if h : address ∈ db.stakeDeposits.map (·.depositAddress) then (none, db)
  else (some (db.stakeDeposits.length + 1),
    { users := db.users
      stakeDeposits := db.stakeDeposits ++ [{ id := db.stakeDeposits.length + 1, userId, depositAddress := address }]
      stakeRewards := db.stakeRewards
      referralCredits := db.referralCredits
      users_id := db.users_id
      deposits_id := by simp [db.deposits_id, autoincrement_succ]
      depositAddress_unique := nodup_insert db.depositAddress_unique h
      coinstakeTxid_unique := db.coinstakeTxid_unique })

/-- `UPDATE stake_deposits SET status='active', … WHERE id=?`, whatever the status was. -/
def activateDeposit (id : DepositId) (funding : COutPoint) (amount : Int) : Db :=
  db.updateDeposits (fun d => decide (d.id = id))
    (fun d => { d with status := .active, funding := some funding, amountSatoshis := some amount })
    (fun _ => rfl) (fun _ => rfl)

/-- `UPDATE stake_deposits SET status='withdrawn' WHERE user_id=? AND status='active'`. -/
def closeDeposits (userId : UserId) : Db :=
  db.updateDeposits (fun d => decide (d.userId = userId ∧ d.status = .active))
    (fun d => { d with status := .withdrawn }) (fun _ => rfl) (fun _ => rfl)

/-- `INSERT OR IGNORE INTO stake_rewards`. -/
def insertReward (reward : StakeReward) : Db :=
  if h : reward.coinstakeTxid ∈ db.stakeRewards.map (·.coinstakeTxid) then db
  else
    { users := db.users
      stakeDeposits := db.stakeDeposits
      stakeRewards := db.stakeRewards ++ [reward]
      referralCredits := db.referralCredits
      users_id := db.users_id
      deposits_id := db.deposits_id
      depositAddress_unique := db.depositAddress_unique
      coinstakeTxid_unique := nodup_insert db.coinstakeTxid_unique h }

/-- The database with another table `referral_credits`. -/
def withCredits (credits : List ReferralCredit) : Db where
  users := db.users
  stakeDeposits := db.stakeDeposits
  stakeRewards := db.stakeRewards
  referralCredits := credits
  users_id := db.users_id
  deposits_id := db.deposits_id
  depositAddress_unique := db.depositAddress_unique
  coinstakeTxid_unique := db.coinstakeTxid_unique

/-- `INSERT INTO referral_credits`. -/
def insertCredit (credit : ReferralCredit) : Db :=
  db.withCredits (db.referralCredits ++ [credit])

/-- `UPDATE referral_credits SET withdrawn_at=?, withdrawal_txid=? WHERE referrer_user_id=? AND withdrawn_at IS NULL`. -/
def markCredits (referrer : UserId) (txid : Uint256) : Db :=
  db.withCredits (updateWhere (fun c => decide (c.referrerUserId = referrer ∧ c.withdrawalTxid = none))
    (fun c => { c with withdrawalTxid := some txid }) db.referralCredits)

end Db

/-! ## The statements of the programs -/

/-- The SQL statements of `staking.py` and `referral.py`. -/
inductive Stmt where
  | insertDeposit (userId : UserId) (address : Address)
  | selectAwaiting
  | activateDeposit (id : DepositId) (funding : COutPoint) (amount : Int)
  | selectActive
  | selectReward (txid : Uint256)
  | insertReward (reward : StakeReward)
  | selectDeposits (userId : UserId)
  | sumRewards (ids : List DepositId)
  | closeDeposits (userId : UserId)
  | selectUser (userId : UserId)
  | selectCredit (referred : UserId)
  | countPriorDeposits (userId : UserId) (id : DepositId)
  | insertCredit (credit : ReferralCredit)
  | countReferred (referrer : UserId)
  | sumAvailableCredits (referrer : UserId)
  | sumLifetimeCredits (referrer : UserId)
  | markCredits (referrer : UserId) (txid : Uint256)

namespace Stmt

def Result : Stmt → Type
  | insertDeposit .. => Option DepositId
  | selectAwaiting => List StakeDeposit
  | activateDeposit .. => Unit
  | selectActive => List StakeDeposit
  | selectReward _ => Bool
  | insertReward _ => Unit
  | selectDeposits _ => List StakeDeposit
  | sumRewards _ => Int
  | closeDeposits _ => Unit
  | selectUser _ => Option User
  | selectCredit _ => Bool
  | countPriorDeposits .. => Nat
  | insertCredit _ => Unit
  | countReferred _ => Nat
  | sumAvailableCredits _ => Int
  | sumLifetimeCredits _ => Int
  | markCredits .. => Unit

/-- One statement: its result and the database after it. -/
def exec : (q : Stmt) → Db → q.Result × Db
  | insertDeposit userId address, db => db.insertDeposit userId address
  | selectAwaiting, db => (db.stakeDeposits.filter fun d => decide (d.status = .awaitingFunds), db)
  | activateDeposit id funding amount, db => ((), db.activateDeposit id funding amount)
  | selectActive, db => (db.stakeDeposits.filter fun d => decide (d.status = .active), db)
  | selectReward txid, db => (db.stakeRewards.any fun r => decide (r.coinstakeTxid = txid), db)
  | insertReward reward, db => ((), db.insertReward reward)
  | selectDeposits userId, db => (db.stakeDeposits.filter fun d => decide (d.userId = userId), db)
  | sumRewards ids, db => (sumWhere (fun r => decide (r.depositId ∈ ids)) (·.netRewardSatoshis) db.stakeRewards, db)
  | closeDeposits userId, db => ((), db.closeDeposits userId)
  | selectUser userId, db => (db.users.find? fun u => decide (u.id = userId), db)
  | selectCredit referred, db => (db.referralCredits.any fun c => decide (c.referredUserId = referred), db)
  | countPriorDeposits userId id, db =>
      (db.stakeDeposits.countP fun d => decide (d.userId = userId ∧ d.status ≠ .awaitingFunds ∧ d.id ≠ id), db)
  | insertCredit credit, db => ((), db.insertCredit credit)
  | countReferred referrer, db => (db.users.countP fun u => decide (u.referredBy = some referrer), db)
  | sumAvailableCredits referrer, db =>
      (sumWhere (fun c => decide (c.referrerUserId = referrer ∧ c.withdrawalTxid = none)) (·.amountSatoshis)
        db.referralCredits, db)
  | sumLifetimeCredits referrer, db =>
      (sumWhere (fun c => decide (c.referrerUserId = referrer)) (·.amountSatoshis) db.referralCredits, db)
  | markCredits referrer txid, db => ((), db.markCredits referrer txid)

def writes : Stmt → Bool
  | insertDeposit .. | activateDeposit .. | insertReward _ | closeDeposits _ | insertCredit _ | markCredits .. => true
  | _ => false

end Stmt

/-! ## What the deposits are worth -/

namespace Db

variable (db : Db)

def rewardsOf (id : DepositId) : Int :=
  sumWhere (fun r => decide (r.depositId = id)) (·.netRewardSatoshis) db.stakeRewards

def worth (d : StakeDeposit) : Int :=
  d.amountSatoshis.getD 0 + db.rewardsOf d.id

/-- What deposits of a status are worth, principal and net rewards together. -/
def holdings (sel : UserId → Bool) (status : DepositStatus) : Int :=
  sumWhere (fun d => sel d.userId && decide (d.status = status)) db.worth db.stakeDeposits

/-- A user's active deposits, as `status_for_user` reads them. -/
def activeOf (userId : UserId) : List StakeDeposit :=
  (db.stakeDeposits.filter fun d => decide (d.userId = userId)).filter fun d => decide (d.status = .active)

theorem mem_activeOf {userId : UserId} {d : StakeDeposit} :
    d ∈ db.activeOf userId ↔ d ∈ db.stakeDeposits ∧ d.userId = userId ∧ d.status = .active := by
  simp only [activeOf, List.mem_filter, decide_eq_true_eq, and_assoc]

theorem nodup_activeOf (userId : UserId) : ((db.activeOf userId).map (·.id)).Nodup :=
  db.nodup_deposit_ids.sublist ((List.filter_sublist.trans List.filter_sublist).map _)

theorem sum_activeOf (userId : UserId) :
    ((db.activeOf userId).map db.worth).sum = db.holdings (fun v => decide (v = userId)) .active := by
  rw [activeOf, List.filter_filter, holdings, sumWhere]
  simp only [Bool.and_comm]

def fundedAmounts (userId : UserId) : Int :=
  sumWhere (fun d => decide (d.userId = userId ∧ d.status ≠ .awaitingFunds)) (·.amountSatoshis.getD 0) db.stakeDeposits

/-- The net rewards recorded for the deposits that meet a condition. -/
def creditedRewards (p : StakeDeposit → Bool) : Int :=
  sumWhere (fun r => db.stakeDeposits.any fun d => decide (r.depositId = d.id) && p d) (·.netRewardSatoshis)
    db.stakeRewards

theorem fundedAmounts_add_creditedRewards (userId : UserId) :
    db.fundedAmounts userId + db.creditedRewards (fun d => decide (d.userId = userId ∧ d.status ≠ .awaitingFunds)) =
      db.holdings (fun v => decide (v = userId)) .active + db.holdings (fun v => decide (v = userId)) .withdrawn := by
  rw [creditedRewards, ← sumWhere_join db.nodup_deposit_ids, fundedAmounts]
  have hworth := sumWhere_add (l := db.stakeDeposits)
    (p := fun d => decide (d.userId = userId ∧ d.status ≠ .awaitingFunds)) (f := (·.amountSatoshis.getD 0))
    (q := fun d => decide (d.userId = userId ∧ d.status ≠ .awaitingFunds)) (g := fun d => db.rewardsOf d.id)
    (t := fun d => decide (d.userId = userId ∧ d.status ≠ .awaitingFunds)) (k := db.worth) ?_
  · refine hworth.trans (Eq.symm ?_)
    refine sumWhere_add fun d _ => ?_
    by_cases hu : d.userId = userId <;> cases hst : d.status <;> simp [hu]
  · intro d _
    split <;> simp [worth]

theorem report_eq {deposits : List StakeDeposit} (hids : (deposits.map (·.id)).Nodup) :
    (deposits.map fun d => d.amountSatoshis.getD 0).sum +
      sumWhere (fun r => decide (r.depositId ∈ deposits.map (·.id))) (·.netRewardSatoshis) db.stakeRewards =
        (deposits.map db.worth).sum := by
  have hjoin : sumWhere (fun r => decide (r.depositId ∈ deposits.map (·.id))) (·.netRewardSatoshis) db.stakeRewards =
      (deposits.map fun d => db.rewardsOf d.id).sum := by
    have hall : (deposits.map fun d => db.rewardsOf d.id).sum =
        sumWhere (fun _ => true) (fun d => db.rewardsOf d.id) deposits := by
      rw [sumWhere, List.filter_true]
    rw [hall]
    refine Eq.trans (sumWhere_congr fun r _ => ?_) (sumWhere_join hids).symm
    have hmem : decide (r.depositId ∈ deposits.map (·.id)) =
        deposits.any fun d => decide (r.depositId = d.id) && true := by
      rw [Bool.eq_iff_iff, decide_eq_true_eq, List.mem_map, List.any_eq_true]
      constructor
      · rintro ⟨d, hd, heq⟩
        exact ⟨d, hd, by simp [heq]⟩
      · rintro ⟨d, hd, heq⟩
        exact ⟨d, hd, by simpa [eq_comm] using heq⟩
    rw [hmem]
  rw [hjoin, ← List.sum_map_add]
  rfl

section

variable {db} {sel : UserId → Bool} {status : DepositStatus} {d : StakeDeposit}

@[simp] theorem insertUser_users (referredBy : Option UserId) :
    (db.insertUser referredBy).users = db.users ++ [{ id := db.users.length + 1, referredBy }] := rfl

theorem holdings_congr {db' : Db} (hdeposits : db'.stakeDeposits = db.stakeDeposits)
    (hrewards : db'.stakeRewards = db.stakeRewards) : db'.holdings sel status = db.holdings sel status := by
  have hworth : db'.worth = db.worth := by
    funext d
    rw [worth, worth, rewardsOf, rewardsOf, hrewards]
  rw [holdings, holdings, hdeposits, hworth]

/-! ### New deposits -/

theorem insertDeposit_cases (db : Db) (userId : UserId) (address : Address) :
    db.insertDeposit userId address = (none, db) ∨
    ∃ db', db.insertDeposit userId address = (some (db.stakeDeposits.length + 1), db') ∧
      address ∉ db.stakeDeposits.map (·.depositAddress) ∧
      db'.stakeDeposits = db.stakeDeposits ++
        [{ id := db.stakeDeposits.length + 1, userId, depositAddress := address }] ∧
      db'.users = db.users ∧ db'.stakeRewards = db.stakeRewards ∧ db'.referralCredits = db.referralCredits := by
  rw [insertDeposit]
  split
  · exact .inl rfl
  · next hfresh => exact .inr ⟨_, rfl, hfresh, rfl, rfl, rfl, rfl⟩

@[simp] theorem insertDeposit_users (userId : UserId) (address : Address) :
    (db.insertDeposit userId address).2.users = db.users := by
  rw [insertDeposit]
  split <;> rfl

@[simp] theorem insertDeposit_stakeRewards (userId : UserId) (address : Address) :
    (db.insertDeposit userId address).2.stakeRewards = db.stakeRewards := by
  rw [insertDeposit]
  split <;> rfl

@[simp] theorem insertDeposit_referralCredits (userId : UserId) (address : Address) :
    (db.insertDeposit userId address).2.referralCredits = db.referralCredits := by
  rw [insertDeposit]
  split <;> rfl

theorem mem_insertDeposit {userId : UserId} {address : Address} :
    d ∈ (db.insertDeposit userId address).2.stakeDeposits ↔
      d ∈ db.stakeDeposits ∨ (address ∉ db.stakeDeposits.map (·.depositAddress) ∧
        d = { id := db.stakeDeposits.length + 1, userId, depositAddress := address }) := by
  rw [insertDeposit]
  split
  · next h => simp [h]
  · next h => simp [h]

theorem holdings_insertDeposit {userId : UserId} {address : Address} (h : status ≠ .awaitingFunds) :
    (db.insertDeposit userId address).2.holdings sel status = db.holdings sel status := by
  rcases insertDeposit_cases db userId address with heq | ⟨db', heq, -, hdeposits, -, hrewards, -⟩
  · rw [heq]
  · have hworth : db'.worth = db.worth := by
      funext d
      rw [worth, worth, rewardsOf, rewardsOf, hrewards]
    rw [heq, holdings, holdings, hdeposits, hworth, sumWhere_append]
    simp [sumWhere_cons, Ne.symm h]

/-! ### Activation -/

theorem mem_activateDeposit {id : DepositId} {funding : COutPoint} {amount : Int} :
    d ∈ (db.activateDeposit id funding amount).stakeDeposits ↔
      ∃ d' ∈ db.stakeDeposits, d = if d'.id = id
        then { d' with status := .active, funding := some funding, amountSatoshis := some amount } else d' := by
  show d ∈ updateWhere _ _ _ ↔ _
  simp only [mem_updateWhere, decide_eq_true_eq]

theorem holdings_activateDeposit (funding : COutPoint) (amount : Int) (hd : d ∈ db.stakeDeposits)
    (hawaiting : d.status = .awaitingFunds) (h : status ≠ .awaitingFunds) :
    (db.activateDeposit d.id funding amount).holdings sel status =
      db.holdings sel status +
        if sel d.userId = true ∧ status = .active then amount + db.rewardsOf d.id else 0 := by
  have hsingle : sumWhere (fun d' => decide (d'.id = d.id ∧ sel d'.userId = true ∧ status = .active))
      (fun d' => amount + db.rewardsOf d'.id) db.stakeDeposits =
        if sel d.userId = true ∧ status = .active then amount + db.rewardsOf d.id else 0 := by
    rw [sumWhere_eq_single db.nodup_deposit_ids hd]
    · simp
    · intro d' _ hp
      exact (of_decide_eq_true hp).1
  rw [← hsingle]
  show sumWhere _ _ (updateWhere _ _ _) = _
  rw [sumWhere_updateWhere, holdings]
  symm
  refine sumWhere_add fun d' hd' => ?_
  by_cases hid : d'.id = d.id
  · obtain rfl := db.deposit_ext hd' hd hid
    rw [hawaiting]
    cases hsel : sel d'.userId <;> cases status <;> simp_all [worth, rewardsOf, activateDeposit, updateDeposits]
  · simp [hid, worth, rewardsOf, activateDeposit, updateDeposits]

/-! ### Rewards -/

theorem insertReward_cases (db : Db) (reward : StakeReward) :
    db.insertReward reward = db ∨
    (reward.coinstakeTxid ∉ db.stakeRewards.map (·.coinstakeTxid) ∧
      (db.insertReward reward).stakeRewards = db.stakeRewards ++ [reward]) := by
  rw [insertReward]
  split
  · exact .inl rfl
  · next h => exact .inr ⟨h, rfl⟩

@[simp] theorem insertReward_stakeDeposits (reward : StakeReward) :
    (db.insertReward reward).stakeDeposits = db.stakeDeposits := by
  rw [insertReward]
  split <;> rfl

@[simp] theorem insertReward_users (reward : StakeReward) : (db.insertReward reward).users = db.users := by
  rw [insertReward]
  split <;> rfl

@[simp] theorem insertReward_referralCredits (reward : StakeReward) :
    (db.insertReward reward).referralCredits = db.referralCredits := by
  rw [insertReward]
  split <;> rfl

theorem mem_insertReward {reward r : StakeReward} (h : r ∈ (db.insertReward reward).stakeRewards) :
    r ∈ db.stakeRewards ∨ r = reward := by
  rcases insertReward_cases db reward with heq | ⟨-, heq⟩
  · exact .inl (heq ▸ h)
  · rwa [heq, List.mem_append, List.mem_singleton] at h

theorem subset_insertReward (reward : StakeReward) : db.stakeRewards ⊆ (db.insertReward reward).stakeRewards := by
  rcases insertReward_cases db reward with heq | ⟨-, heq⟩
  · rw [heq]
    exact fun _ h => h
  · rw [heq]
    exact List.subset_append_left _ _

theorem mem_txids_insertReward (reward : StakeReward) :
    reward.coinstakeTxid ∈ (db.insertReward reward).stakeRewards.map (·.coinstakeTxid) := by
  by_cases h : reward.coinstakeTxid ∈ db.stakeRewards.map (·.coinstakeTxid)
  · rwa [insertReward, dif_pos h]
  · rw [insertReward, dif_neg h]
    exact List.mem_map_of_mem (List.mem_append_right _ (List.mem_singleton_self reward))

theorem holdings_insertReward {reward : StakeReward} (hd : d ∈ db.stakeDeposits)
    (hid : reward.depositId = d.id) (hnew : reward.coinstakeTxid ∉ db.stakeRewards.map (·.coinstakeTxid)) :
    (db.insertReward reward).holdings sel status =
      db.holdings sel status + if sel d.userId = true ∧ d.status = status then reward.netRewardSatoshis else 0 := by
  have hrewards : (db.insertReward reward).stakeRewards = db.stakeRewards ++ [reward] := by
    rcases insertReward_cases db reward with heq | ⟨-, heq⟩
    · rw [insertReward, dif_neg hnew]
    · exact heq
  have hsingle : sumWhere (fun d' => decide (d'.id = d.id ∧ sel d'.userId = true ∧ d'.status = status))
      (fun _ => reward.netRewardSatoshis) db.stakeDeposits =
        if sel d.userId = true ∧ d.status = status then reward.netRewardSatoshis else 0 := by
    rw [sumWhere_eq_single db.nodup_deposit_ids hd]
    · simp
    · intro d' _ hp
      exact (of_decide_eq_true hp).1
  rw [← hsingle, holdings, holdings, insertReward_stakeDeposits]
  symm
  refine sumWhere_add fun d' _ => ?_
  have hof : (db.insertReward reward).worth d' =
      db.worth d' + if d'.id = d.id then reward.netRewardSatoshis else 0 := by
    rw [worth, worth, rewardsOf, rewardsOf, hrewards, sumWhere_append]
    simp [sumWhere_cons, hid, eq_comm, Int.add_assoc]
  rw [hof]
  by_cases hid' : d'.id = d.id <;> cases hsel : sel d'.userId <;> by_cases hst : d'.status = status <;>
    simp [hid', hst]

theorem holdings_le_insertReward {reward : StakeReward} (hnet : 0 ≤ reward.netRewardSatoshis) :
    db.holdings sel status ≤ (db.insertReward reward).holdings sel status := by
  rcases insertReward_cases db reward with heq | ⟨-, hrewards⟩
  · rw [heq]
  · rw [holdings, holdings, insertReward_stakeDeposits]
    refine sumWhere_mono fun d _ => ?_
    have hof : db.worth d ≤ (db.insertReward reward).worth d := by
      rw [worth, worth, rewardsOf, rewardsOf, hrewards, sumWhere_append, sumWhere_cons, sumWhere_nil]
      split <;> omega
    split
    · exact hof
    · exact le_refl _

/-! ### Closing -/

theorem mem_closeDeposits {userId : UserId} :
    d ∈ (db.closeDeposits userId).stakeDeposits ↔
      ∃ d' ∈ db.stakeDeposits, d = if d'.userId = userId ∧ d'.status = .active
        then { d' with status := .withdrawn } else d' := by
  show d ∈ updateWhere _ _ _ ↔ _
  simp only [mem_updateWhere, decide_eq_true_eq]

theorem holdings_closeDeposits_withdrawn (userId : UserId) :
    (db.closeDeposits userId).holdings sel .withdrawn =
      db.holdings sel .withdrawn + db.holdings (fun v => sel v && decide (v = userId)) .active := by
  show sumWhere _ _ (updateWhere _ _ _) = _
  rw [sumWhere_updateWhere, holdings, holdings]
  symm
  refine sumWhere_add fun d _ => ?_
  by_cases hu : d.userId = userId <;> cases hsel : sel d.userId <;> cases hst : d.status <;>
    simp_all [worth, rewardsOf, closeDeposits, updateDeposits]

theorem holdings_closeDeposits_active (userId : UserId) :
    (db.closeDeposits userId).holdings sel .active = db.holdings (fun v => sel v && decide (v ≠ userId)) .active := by
  show sumWhere _ _ (updateWhere _ _ _) = _
  rw [sumWhere_updateWhere, holdings]
  refine sumWhere_congr fun d _ => ?_
  by_cases hu : d.userId = userId <;> cases hsel : sel d.userId <;> cases hst : d.status <;>
    simp_all [worth, rewardsOf, closeDeposits, updateDeposits]

end

end Db

end CodexaCoin.Gateway
