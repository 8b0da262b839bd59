import CodexaCoin.Gateway.Rpc

/-!
# The programs of the gateway

`staking.py` and `referral.py` as programs of atomic steps, and the gateway as the system of their requests. The push
notifications of `_notify_user` write nothing that these programs read and are left out. An exception that escapes from
them ends the pass where it stands, as a kill does.
-/

namespace CodexaCoin.Gateway

open Process

/-- The exceptions of the programs: those of `staking.py`, `referral.py` and `rpc.py`, a violated `UNIQUE` constraint and
a list index out of range. -/
inductive Error where
  | staking (code message : String)
  | referral (code message : String)
  | rpc (e : RpcError)
  | integrity
  | index
deriving DecidableEq

abbrev GProg (α : Type) := Prog Op Op.Res Error α

def sql (q : Stmt) : GProg q.Result := Prog.perform (Op.sql q)

def tryRpc (c : Call) : GProg (Except RpcError c.Reply) := Prog.perform (Op.rpc c)

/-- `rpc.call`. -/
def rpc (c : Call) : GProg c.Reply := do
  match ← tryRpc c with
  | .ok r => pure r
  | .error e => .raise (.rpc e)

/-- The settings that are read from the environment, with their defaults. -/
structure Config where
  /-- `GATEWAY_POOL_FEE_BP` -/
  poolFeeBp : Int := 500
  /-- `GATEWAY_REFERRAL_REWARD_BP` -/
  referralRewardBp : Int := 1000
  /-- `GATEWAY_STAKE_REWARD_ANNUAL_BP` -/
  stakeRewardAnnualBp : Int := 1368

variable (cfg : Config) {e : External}

/-- `ensure_pool_wallet_loaded` and `ensure_admin_wallet_loaded`. -/
def ensureWalletLoaded (wallet : Wallet) : GProg Unit := do
  let loaded : List String ← rpc .listWallets
  if wallet.name ∈ loaded then pure ()
  else
    match ← tryRpc (.loadWallet wallet) with
    | .ok _ => pure ()
    | .error e => do
      let onDisk : List String ← rpc .listWalletDir
      if wallet.name ∈ onDisk then
        .raise (.rpc ⟨e.code, "Wallet '" ++ wallet.name ++ "' exists on disk but failed to load: " ++ e.message⟩)
      else rpc (.createWallet wallet)

/-! ## The referral program -/

namespace Referral

def rewardSatoshis (amount : Int) : Int := amount * cfg.referralRewardBp / 10000

/-- The row of `referral_credits` for a deposit. -/
def creditRow (referrer userId : UserId) (depositId : DepositId) (amount : Int) : ReferralCredit :=
  { referrerUserId := referrer, referredUserId := userId, sourceDepositId := depositId,
    amountSatoshis := rewardSatoshis cfg amount }

def creditReferralIfEligible (userId : UserId) (depositId : DepositId) (amount : Int) : GProg Unit := do
  let user : Option User ← sql (.selectUser userId)
  match user.bind (·.referredBy) with
  | none => pure ()
  | some referrer =>
    -- An id is truthy unless it is zero.
    if referrer = 0 then pure ()
    else do
      let alreadyCredited : Bool ← sql (.selectCredit userId)
      if alreadyCredited then pure ()
      else do
        let priorDeposits : Nat ← sql (.countPriorDeposits userId depositId)
        if priorDeposits > 0 then pure ()
        else if rewardSatoshis cfg amount ≤ 0 then pure ()
        else sql (.insertCredit (creditRow cfg referrer userId depositId amount))

/-- What `status_for_user` reports, without the referral code. -/
structure Status where
  referredCount : Nat
  availableSatoshis : Int
  lifetimeSatoshis : Int

def statusForUser (userId : UserId) : GProg Status := do
  let referredCount : Nat ← sql (.countReferred userId)
  let available : Int ← sql (.sumAvailableCredits userId)
  let lifetime : Int ← sql (.sumLifetimeCredits userId)
  pure { referredCount, availableSatoshis := available, lifetimeSatoshis := lifetime }

def withdraw (userId : UserId) (toAddress : Address) : GProg Uint256 := do
  let status ← statusForUser userId
  let amount := status.availableSatoshis
  if amount ≤ 0 then .raise (.referral "invalid-address" "No referral credit available to withdraw")
  else do
    ensureWalletLoaded .admin
    let amountCac := inCoins amount
    match ← tryRpc (.sendToAddress .admin userId toAddress amountCac) with
    | .error e =>
      if e.code = -6 then
        .raise (.referral "not-found" ("The admin wallet doesn't have enough confirmed funds right now -- try again " ++
          "shortly, or contact the project."))
      else .raise (.referral "invalid-address" ("Withdrawal failed: " ++ e.message))
    | .ok txid => do
      sql (.markCredits userId txid)
      pure txid

end Referral

/-! ## The staking pool -/

namespace Staking

def createDeposit (userId : UserId) : GProg Address := do
  ensureWalletLoaded .pool
  let address : Address ← rpc .getNewAddress
  match (← sql (.insertDeposit userId address) : Option DepositId) with
  | none => .raise .integrity
  | some id => do
    rpc (.setLabel address id)
    pure address

/-- The round of `_mark_funded_deposits` for one deposit: of the outputs at its address, only the first is looked at. -/
def markFunded (dep : StakeDeposit) : GProg Unit := do
  let utxos : List Utxo ← rpc (.listUnspent dep.depositAddress)
  match utxos with
  | [] => pure ()
  | u :: _ => do
    let amountSat := readSatoshis u.amount
    sql (.activateDeposit dep.id u.outpoint amountSat)
    Referral.creditReferralIfEligible cfg dep.userId dep.id amountSat

def markFundedDeposits : GProg Unit := do
  ensureWalletLoaded .pool
  let pending : List StakeDeposit ← sql .selectAwaiting
  pending.forM (markFunded cfg)

/-- `_is_coinstake`. The verbose form of a transaction has a `coinbase` in its first input exactly if it is a coinbase; a
double is zero only if the amount is. -/
def isCoinstake (tx : CTransaction) : Bool :=
  match tx.vin, tx.vout with
  | _ :: _, out0 :: _ :: _ => !tx.isCoinBase && decide (out0.nValue = 0) && out0.scriptPubKey.isEmpty
  | _, _ => false

def spends (tx : CTransaction) (o : COutPoint) : Bool := tx.vin.any fun vin => decide (vin.prevout = o)

/-- The loop over the inputs of a coinstake that adds up what they spend. -/
def sumInputs (inTotal : Int) : List CTxIn → GProg Int
  | [] => pure inTotal
  | vin :: rest => do
    let prevtx : CTransaction ← rpc (.getRawTransaction vin.prevout.hash)
    match prevtx.vout[vin.prevout.n]? with
    | none => .raise .index
    | some out => sumInputs (inTotal + readSatoshis out.nValue) rest

def poolFee (gross : Int) : Int := gross * cfg.poolFeeBp / 10000

/-- The row of `stake_rewards` for a coinstake with a gross reward. -/
def rewardRow (depositId : DepositId) (txid : Uint256) (gross : Int) : StakeReward :=
  { depositId, coinstakeTxid := txid, grossRewardSatoshis := gross, poolFeeSatoshis := poolFee cfg gross,
    netRewardSatoshis := gross - poolFee cfg gross }

/-- The round of `_attribute_rewards` for one transaction of a deposit's history. -/
def creditCoinstake (dep : StakeDeposit) (funding : COutPoint) (txid : Uint256) : GProg Unit := do
  let already : Bool ← sql (.selectReward txid)
  if already then pure ()
  else
    match ← tryRpc (.getRawTransaction txid) with
    | .error _ => pure ()
    | .ok (tx : CTransaction) =>
      if isCoinstake tx && spends tx funding then do
        let inTotal ← sumInputs 0 tx.vin
        let outTotal := (tx.vout.map fun o => readSatoshis o.nValue).sum
        let gross := outTotal - inTotal
        sql (.insertReward (rewardRow cfg dep.id txid gross))
      else pure ()

/-- The round of `_attribute_rewards` for one deposit. -/
def attributeDeposit (dep : StakeDeposit) : GProg Unit :=
  match dep.funding with
  -- An active deposit has its funding output; `gettxout` of a null would raise, which is caught.
  | none => pure ()
  | some funding => do
    match ← tryRpc (.getTxOut funding) with
    | .error _ => pure ()
    | .ok (stillUnspent : Option CTxOut) =>
      match stillUnspent with
      | some _ => pure ()
      | none => do
        let history : List Uint256 ← rpc (.listTransactions dep.id)
        history.forM (creditCoinstake cfg dep funding)

def attributeRewards : GProg Unit := do
  ensureWalletLoaded .pool
  let active : List StakeDeposit ← sql .selectActive
  active.forM (attributeDeposit cfg)

def watcherPass : GProg Unit := do
  markFundedDeposits cfg
  attributeRewards cfg

/-- What `status_for_user` reports. -/
structure Status where
  delegatedAmount : Int
  accruedRewards : Int
  effectiveMonthlyRateBp : Int
  poolFeeBp : Int
  canWithdraw : Bool

def rewardsTotal (activeDepositIds : List DepositId) : GProg Int :=
  if activeDepositIds.isEmpty then pure 0 else sql (.sumRewards activeDepositIds)

def statusForUser (userId : UserId) : GProg Status := do
  let deposits : List StakeDeposit ← sql (.selectDeposits userId)
  let active := deposits.filter fun d => decide (d.status = .active)
  let rewards ← rewardsTotal (active.map (·.id))
  let delegated := (active.map fun d => d.amountSatoshis.getD 0).sum
  pure { delegatedAmount := delegated, accruedRewards := rewards,
         effectiveMonthlyRateBp := cfg.stakeRewardAnnualBp / 12, poolFeeBp := cfg.poolFeeBp,
         canWithdraw := decide (0 < delegated) || decide (0 < rewards) }

def withdraw (userId : UserId) (amount : Int) (toAddress : Address) : GProg Uint256 := do
  let status ← statusForUser cfg userId
  let available := status.delegatedAmount + status.accruedRewards
  if amount > available then
    .raise (.staking "invalid-address"
      ("Requested " ++ toString amount ++ " exceeds available balance " ++ toString available))
  else do
    ensureWalletLoaded .pool
    let amountCac := inCoins amount
    match ← tryRpc (.sendToAddress .pool userId toAddress amountCac) with
    | .error e =>
      if e.code = -6 then
        .raise (.staking "not-found"
          "Funds are still maturing on-chain and aren't spendable yet -- try again shortly.")
      else .raise (.staking "invalid-address" ("Withdrawal failed: " ++ e.message))
    | .ok txid => do
      sql (.closeDeposits userId)
      pure txid

end Staking

/-! ## Requests -/

/-- What the gateway is asked to do: the handlers of `app.py` that write, and the timer's `watcher.py`. -/
inductive Request where
  | createDeposit (userId : UserId)
  | watcherPass
  | withdraw (userId : UserId) (amount : Int) (toAddress : Address)
  | referralWithdraw (userId : UserId) (toAddress : Address)
deriving DecidableEq

def Request.prog : Request → GProg Unit
  | createDeposit userId => do
    let _ ← Staking.createDeposit userId
    pure ()
  | watcherPass => Staking.watcherPass cfg
  | withdraw userId amount toAddress => do
    let _ ← Staking.withdraw cfg userId amount toAddress
    pure ()
  | referralWithdraw userId toAddress => do
    let _ ← Referral.withdraw userId toAddress
    pure ()

/-- What happens outside: a user signs up, perhaps with the code of another user, or the node's chain changes. -/
inductive External where
  | signup (referredBy : Option UserId)
  | chain (txs : List WalletTx)
deriving DecidableEq

def External.apply : External → State → Option State
  | signup referredBy, s =>
      if ∀ r ∈ referredBy, r ∈ s.db.users.map (·.id) then some { s with db := s.db.insertUser referredBy } else none
  | chain txs, s => some { s with chain := txs, stale := s.chain.filter (fun t => decide (t ∉ txs)) ++ s.stale }

/-- The requests, with the sign-ups of users and the changes of the node's chain as outside events. -/
def gateway : System Op Op.Res Error State Answer Request External where
  sem := sem
  start := Request.prog cfg
  ext := External.apply

theorem signup_eq {referredBy : Option UserId} {s s' : State} (h : (External.signup referredBy).apply s = some s') :
    s' = { s with db := s.db.insertUser referredBy } := by
  rw [External.apply] at h
  split at h
  · exact (Option.some.inj h).symm
  · cases h

/-- Nothing happens to the staking tables and the payments. -/
structure SameLedger (s s' : State) : Prop where
  deposits : s'.db.stakeDeposits = s.db.stakeDeposits
  rewards : s'.db.stakeRewards = s.db.stakeRewards
  payments : s'.payments = s.payments

theorem SameLedger.refl (s : State) : SameLedger s s := ⟨rfl, rfl, rfl⟩

theorem SameLedger.trans {s s' s'' : State} (h : SameLedger s s') (h' : SameLedger s' s'') : SameLedger s s'' :=
  ⟨h'.deposits.trans h.deposits, h'.rewards.trans h.rewards, h'.payments.trans h.payments⟩

theorem ext_sameLedger {s s' : State} (h : e.apply s = some s') : SameLedger s s' := by
  cases e with
  | signup referredBy =>
    obtain rfl := signup_eq h
    exact ⟨rfl, rfl, rfl⟩
  | chain txs =>
    cases h
    exact ⟨rfl, rfl, rfl⟩

theorem ext_referralCredits {s s' : State} (h : e.apply s = some s') :
    s'.db.referralCredits = s.db.referralCredits := by
  cases e with
  | signup referredBy =>
    obtain rfl := signup_eq h
    rfl
  | chain txs =>
    cases h
    rfl

abbrev GPool := Pool Op Op.Res Error State Request

abbrev GEvent := Event Answer Request External

/-! ## The steps of each request -/

def Call.isSend : Call → Bool
  | sendToAddress .. => true
  | _ => false

def Op.reads : Op → Bool
  | sql q => !q.writes
  | rpc c => !c.isSend

/-- A payment of the wallet to the user is asked for with less than 2²⁶ coins. -/
def Op.paysSmall (wallet : Wallet) (userId : UserId) : Op → Bool
  | rpc (.sendToAddress w v _ amountCac) => decide (w = wallet → v = userId → amountCac < 67108864)
  | _ => true

/-- The statement is one of `credit_referral_if_eligible`. -/
def Stmt.isReferralCheck : Stmt → Bool
  | selectUser _ | selectCredit _ | countPriorDeposits .. => true
  | insertCredit credit => credit.withdrawalTxid.isNone
  | _ => false

theorem Op.paysSmall.amount_eq {wallet : Wallet} {userId : UserId} {toAddress : Address} {amount paid : Int}
    (h : (Op.rpc (.sendToAddress wallet userId toAddress (inCoins amount))).paysSmall wallet userId = true)
    (hread : amountFromValue (inCoins amount) = some paid) (hpos : 0 < paid) : paid = amount :=
  eq_of_amountFromValue (lt_of_inCoins_lt (of_decide_eq_true h rfl rfl)) hread hpos

/-- The steps that a request can take. -/
def Request.ops : Request → Op → Prop
  | createDeposit userId, .sql q => ∃ address, q = .insertDeposit userId address
  | watcherPass, .sql q =>
      match q with
      | .selectAwaiting | .activateDeposit .. | .selectUser _ | .selectCredit _ | .countPriorDeposits ..
      | .selectActive | .selectReward _ | .insertReward _ => True
      | .insertCredit credit => credit.withdrawalTxid = none
      | _ => False
  | withdraw userId _ _, .sql q =>
      match q with
      | .selectDeposits _ | .sumRewards _ => True
      | .closeDeposits v => v = userId
      | _ => False
  | referralWithdraw userId _, .sql q =>
      match q with
      | .countReferred _ | .sumAvailableCredits _ | .sumLifetimeCredits _ => True
      | .markCredits v _ => v = userId
      | _ => False
  | withdraw userId amount toAddress, .rpc c =>
      c.isSend = true → c = .sendToAddress .pool userId toAddress (inCoins amount)
  | referralWithdraw userId toAddress, .rpc c =>
      c.isSend = true → ∃ amount, c = .sendToAddress .admin userId toAddress (inCoins amount)
  | _, .rpc c => c.isSend = false

section Within

variable {cfg} {S : Op → Prop} {c : Call} {userId : UserId} {amount : Int} {toAddress : Address}

theorem rpc_within (h : S (.rpc c)) : (rpc c).Within S := by
  refine .op h fun r => ?_
  cases r <;> trivial

theorem rpc_bind_within {α : Type} {f : c.Reply → GProg α} (h : S (.rpc c)) (hf : ∀ r, (f r).Within S) :
    (rpc c >>= f).Within S :=
  (rpc_within h).bind hf

theorem ensureWalletLoaded_within {wallet : Wallet} (h : ∀ c : Call, c.isSend = false → S (.rpc c)) :
    (ensureWalletLoaded wallet).Within S := by
  refine rpc_bind_within (h _ rfl) fun loaded => .ite (fun _ => trivial) fun _ => .op (h _ rfl) fun r => ?_
  cases r with
  | ok _ => trivial
  | error e =>
    exact rpc_bind_within (h _ rfl) fun onDisk => .ite (fun _ => trivial) fun _ => rpc_within (h _ rfl)

theorem createDeposit_within :
    (Staking.createDeposit userId).Within (Request.createDeposit userId).ops := by
  refine (ensureWalletLoaded_within fun _ h => h).bind fun _ => ?_
  refine rpc_bind_within rfl fun address => ?_
  refine .op ⟨address, rfl⟩ fun id => ?_
  cases id with
  | none => trivial
  | some id => exact rpc_bind_within rfl fun _ => trivial

theorem creditReferralIfEligible_within {id : DepositId}
    (h : ∀ q : Stmt, q.isReferralCheck = true → S (.sql q)) :
    (Referral.creditReferralIfEligible cfg userId id amount).Within S := by
  refine .op (h _ rfl) fun user => ?_
  split
  · trivial
  · refine .ite (fun _ => trivial) fun _ => .op (h _ rfl) fun alreadyCredited => ?_
    refine .ite (fun _ => trivial) fun _ => .op (h _ rfl) fun priorDeposits => ?_
    exact .ite (fun _ => trivial) fun _ => .ite (fun _ => trivial) fun _ => ⟨h _ rfl, fun _ => trivial⟩

theorem markFunded_within {dep : StakeDeposit} : (Staking.markFunded cfg dep).Within Request.watcherPass.ops := by
  refine rpc_bind_within rfl fun utxos => ?_
  cases utxos with
  | nil => trivial
  | cons u _ =>
    refine .op trivial fun _ => creditReferralIfEligible_within fun q hq => ?_
    cases q with
    | insertCredit credit => exact Option.isNone_iff_eq_none.1 hq
    | selectUser _ => trivial
    | selectCredit _ => trivial
    | countPriorDeposits _ _ => trivial
    | _ => cases hq

theorem sumInputs_within {inTotal : Int} {vin : List CTxIn} (h : ∀ c : Call, c.isSend = false → S (.rpc c)) :
    (Staking.sumInputs inTotal vin).Within S := by
  induction vin generalizing inTotal with
  | nil => trivial
  | cons txin rest ih =>
    refine rpc_bind_within (h _ rfl) fun prevtx => ?_
    split
    · trivial
    · exact ih

section Attribution

variable {dep : StakeDeposit} (hrpc : ∀ c : Call, c.isSend = false → S (.rpc c))
  (hselect : ∀ txid, S (.sql (.selectReward txid)))
  (hinsert : ∀ txid gross, S (.sql (.insertReward (Staking.rewardRow cfg dep.id txid gross))))
include hrpc hselect hinsert

theorem creditCoinstake_within {funding : COutPoint} {txid : Uint256} :
    (Staking.creditCoinstake cfg dep funding txid).Within S := by
  refine .op (hselect txid) fun already => .ite (fun _ => trivial) fun _ => .op (hrpc _ rfl) fun r => ?_
  cases r with
  | error _ => trivial
  | ok tx =>
    refine .ite (fun _ => (sumInputs_within hrpc).bind fun _ => ?_) fun _ => trivial
    exact ⟨hinsert _ _, fun _ => trivial⟩

theorem attributeDeposit_within : (Staking.attributeDeposit cfg dep).Within S := by
  rw [Staking.attributeDeposit]
  split
  · trivial
  · refine .op (hrpc _ rfl) fun r => ?_
    cases r with
    | error _ => trivial
    | ok stillUnspent =>
      cases stillUnspent with
      | some _ => trivial
      | none =>
        refine rpc_bind_within (hrpc _ rfl) fun history => .forM fun txid _ => ?_
        exact creditCoinstake_within hrpc hselect hinsert

end Attribution

theorem watcherPass_within : (Staking.watcherPass cfg).Within Request.watcherPass.ops := by
  have hmark : (Staking.markFundedDeposits cfg).Within Request.watcherPass.ops := by
    refine (ensureWalletLoaded_within fun _ h => h).bind fun _ => ?_
    exact .op trivial fun pending => .forM fun dep _ => markFunded_within
  refine hmark.bind fun _ => ?_
  refine (ensureWalletLoaded_within fun _ h => h).bind fun _ => ?_
  refine .op trivial fun active => .forM fun dep _ => ?_
  exact attributeDeposit_within (fun _ h => h) (fun _ => trivial) fun _ _ => trivial

theorem statusForUser_within (hselect : S (.sql (.selectDeposits userId)))
    (hsum : ∀ ids, S (.sql (.sumRewards ids))) : (Staking.statusForUser cfg userId).Within S := by
  refine .op hselect fun deposits => ?_
  refine Prog.Within.bind ?_ fun _ => trivial
  exact .ite (fun _ => trivial) fun _ => ⟨hsum _, fun _ => trivial⟩

theorem withdraw_within :
    (Staking.withdraw cfg userId amount toAddress).Within (Request.withdraw userId amount toAddress).ops := by
  have hensure : (ensureWalletLoaded .pool).Within (Request.withdraw userId amount toAddress).ops := by
    refine ensureWalletLoaded_within fun c h hc => ?_
    rw [h] at hc
    cases hc
  refine (statusForUser_within trivial fun _ => trivial).bind fun status => .ite (fun _ => trivial) fun _ => ?_
  refine hensure.bind fun _ => .op (fun _ => rfl) fun r => ?_
  cases r with
  | error e => exact .ite (fun _ => trivial) fun _ => trivial
  | ok txid => exact .op rfl fun _ => trivial

theorem referralWithdraw_within :
    (Referral.withdraw userId toAddress).Within (Request.referralWithdraw userId toAddress).ops := by
  have hensure : (ensureWalletLoaded .admin).Within (Request.referralWithdraw userId toAddress).ops := by
    refine ensureWalletLoaded_within fun c h hc => ?_
    rw [h] at hc
    cases hc
  have hstatus : (Referral.statusForUser userId).Within (Request.referralWithdraw userId toAddress).ops :=
    .op trivial fun _ => .op trivial fun _ => .op trivial fun _ => trivial
  refine hstatus.bind fun status => .ite (fun _ => trivial) fun _ => ?_
  refine hensure.bind fun _ => .op (fun _ => ⟨_, rfl⟩) fun r => ?_
  cases r with
  | error e => exact .ite (fun _ => trivial) fun _ => trivial
  | ok txid => exact .op rfl fun _ => trivial

/-- **Each request takes its own steps only.** -/
theorem prog_within (t : Request) : (t.prog cfg).Within t.ops := by
  cases t with
  | createDeposit userId => exact createDeposit_within.bind fun _ => trivial
  | watcherPass => exact watcherPass_within
  | withdraw userId amount toAddress => exact withdraw_within.bind fun _ => trivial
  | referralWithdraw userId toAddress => exact referralWithdraw_within.bind fun _ => trivial

end Within

/-! ## Rules for the steps -/

section Holds

variable {α : Type} {S : Prog.Setting Op Op.Res State Answer} {Q : α → State → Prop} {E : Error → State → Prop}
  {s : State} {c : Call} {J : State → Prop}

theorem sql_holds {q : Stmt} {f : q.Result → GProg α} (hsem : S.sem = sem)
    (h : ∀ s', S.rely s s' → S.pre (.sql q) s' ∧ ∀ x, S.may (.sql q) x s' →
      (f (s'.runSql q).1).Holds S Q E (s'.runSql q).2) :
    (sql q >>= f).Holds S Q E s := by
  refine .op fun s' hs => ⟨(h s' hs).1, fun x hx r s'' hr => ?_⟩
  rw [hsem] at hr
  obtain ⟨rfl, rfl⟩ := sem_sql hr
  exact (h s' hs).2 x hx

theorem tryRpc_holds {f : Except RpcError c.Reply → GProg α} (hsem : S.sem = sem) (hc : c.isSend = false)
    (h : ∀ s', S.rely s s' → S.pre (.rpc c) s' ∧ ∀ x r, S.may (.rpc c) x s' → sem (.rpc c) x s' = some (r, s') →
      (f r).Holds S Q E s') :
    (tryRpc c >>= f).Holds S Q E s := by
  refine .op fun s' hs => ⟨(h s' hs).1, fun x hx r s'' hr => ?_⟩
  rw [hsem] at hr
  rcases sem_rpc hr with rfl | ⟨wallet, userId, toAddress, amountCac, amount, t, rfl, -⟩
  · exact (h s'' hs).2 x r hx hr
  · cases hc

theorem rpc_holds {f : c.Reply → GProg α} (hsem : S.sem = sem) (hc : c.isSend = false)
    (h : ∀ s', S.rely s s' → S.pre (.rpc c) s' ∧ (∀ e, E (.rpc e) s') ∧
      ∀ x r, S.may (.rpc c) x s' → sem (.rpc c) x s' = some (.ok r, s') → (f r).Holds S Q E s') :
    (rpc c >>= f).Holds S Q E s := by
  refine tryRpc_holds hsem hc fun s' hs => ⟨(h s' hs).1, fun x r hx hr => ?_⟩
  cases r with
  | ok r => exact (h s' hs).2.2 x r hx hr
  | error e => exact fun s'' hs' => (h s'' (S.rely_trans hs hs')).2.1 e

theorem sem_of_reads {o : Op} {x : Answer} {r : o.Res} {s' : State} (ho : o.reads = true)
    (h : sem o x s = some (r, s')) : s' = s := by
  cases o with
  | sql q =>
    obtain ⟨-, rfl⟩ := sem_sql h
    exact State.runSql_of_query s (by simpa [Op.reads] using ho)
  | rpc c =>
    rcases sem_rpc h with rfl | ⟨wallet, userId, toAddress, amountCac, amount, t, rfl, -⟩
    · rfl
    · cases ho

theorem reads_holds {p : GProg α} (hsem : S.sem = sem) (hp : p.Within fun o => o.reads = true)
    (hstable : ∀ s s', J s → S.rely s s' → J s') (hpre : ∀ o s, o.reads = true → J s → S.pre o s) (h : J s) :
    p.Holds S (fun _ => J) (fun _ => J) s := by
  refine .of_within hp hstable ?_ h
  intro o s ho hJ
  refine ⟨hpre o s ho hJ, fun x _ r s' hr => ?_⟩
  rw [hsem] at hr
  rwa [sem_of_reads ho hr]

theorem ensureWalletLoaded_holds (wallet : Wallet) (hsem : S.sem = sem)
    (hstable : ∀ s s', J s → S.rely s s' → J s') (hpre : ∀ o s, o.reads = true → J s → S.pre o s) (h : J s) :
    (ensureWalletLoaded wallet).Holds S (fun _ => J) (fun _ => J) s :=
  reads_holds hsem (ensureWalletLoaded_within fun c hc => by simp [Op.reads, hc]) hstable hpre h

theorem creditReferralIfEligible_holds {userId : UserId} {id : DepositId} {amount : Int}
    (hsem : S.sem = sem) (hstable : ∀ s s', J s → S.rely s s' → J s')
    (hpre : ∀ q s, Stmt.isReferralCheck q = true → J s → S.pre (.sql q) s)
    (hcredit : ∀ s credit, J s → J (s.runSql (.insertCredit credit)).2) (h : J s) :
    (Referral.creditReferralIfEligible cfg userId id amount).Holds S (fun _ => J) (fun _ => J) s := by
  refine .of_within (O := fun o => ∃ q : Stmt, o = .sql q ∧ q.isReferralCheck = true)
    (creditReferralIfEligible_within fun q hq => ⟨q, rfl, hq⟩) hstable ?_ h
  rintro _ s ⟨q, rfl, hq⟩ hJ
  refine ⟨hpre q s hq hJ, fun x _ r s' hr => ?_⟩
  rw [hsem] at hr
  obtain ⟨-, rfl⟩ := sem_sql hr
  cases q with
  | insertCredit credit => exact hcredit s credit hJ
  | selectUser _ => exact hJ
  | selectCredit _ => exact hJ
  | countPriorDeposits _ _ => exact hJ
  | _ => cases hq

theorem attributeDeposit_holds {dep : StakeDeposit} (hsem : S.sem = sem)
    (hstable : ∀ s s', J s → S.rely s s' → J s') (hpre : ∀ o s, J s → S.pre o s)
    (hinsert : ∀ s txid gross, J s → J (s.runSql (.insertReward (Staking.rewardRow cfg dep.id txid gross))).2)
    (h : J s) : (Staking.attributeDeposit cfg dep).Holds S (fun _ => J) (fun _ => J) s := by
  let O : Op → Prop := fun o => o.reads = true ∨
    ∃ txid gross, o = .sql (.insertReward (Staking.rewardRow cfg dep.id txid gross))
  have hwithin : (Staking.attributeDeposit cfg dep).Within O :=
    attributeDeposit_within (fun c hc => .inl (by simp [Op.reads, hc])) (fun _ => .inl rfl)
      fun txid gross => .inr ⟨txid, gross, rfl⟩
  refine .of_within hwithin hstable ?_ h
  intro o s ho hJ
  refine ⟨hpre o s hJ, fun x _ r s' hr => ?_⟩
  rw [hsem] at hr
  rcases ho with ho | ⟨txid, gross, rfl⟩
  · rwa [sem_of_reads ho hr]
  · obtain ⟨-, rfl⟩ := sem_sql hr
    exact hinsert s txid gross hJ

section Pass

variable {J : State → Prop} {M : StakeDeposit → State → Prop} (hsem : S.sem = sem)
  (hstable : ∀ s s', J s → S.rely s s' → J s') (hM : ∀ d s s', J s → M d s → S.rely s s' → M d s')
  (hpre : ∀ o s, o.reads = true → J s → S.pre o s)
include hstable hM

theorem depositRounds_holds {st : DepositStatus} {f : StakeDeposit → GProg Unit}
    (hselect : ∀ d ∈ s.db.stakeDeposits, d.status = st → M d s)
    (hround : ∀ dep s, J s → M dep s →
      (f dep).Holds S (fun _ s' => J s' ∧ ∀ d, d.id ≠ dep.id → M d s → M d s') (fun _ => J) s) (h : J s) :
    ((s.db.stakeDeposits.filter fun d => decide (d.status = st)).forM f).Holds S (fun _ => J) (fun _ => J) s := by
  -- The deposits whose rounds are left have different ids and are known to be pending.
  have hloop := Prog.Holds.forM (S := S) (E := fun _ => J) (f := f) (s := s)
    (l := s.db.stakeDeposits.filter fun d => decide (d.status = st))
    (J := fun rest s => J s ∧ (rest.map (·.id)).Nodup ∧ ∀ d ∈ rest, M d s) ?_ ?_ ?_
  · exact hloop.mono (fun _ _ hs => hs.1) fun _ _ hs => hs
  · rintro rest s s' ⟨hJ, hnodup, hrest⟩ hs
    exact ⟨hstable s s' hJ hs, hnodup, fun d hd => hM d s s' hJ (hrest d hd) hs⟩
  · rintro dep rest s ⟨hJ, hnodup, hrest⟩
    rw [List.map_cons, List.nodup_cons] at hnodup
    refine (hround dep s hJ (hrest dep List.mem_cons_self)).mono ?_ fun _ _ hs => hs
    rintro _ s' ⟨hJ', hothers⟩
    refine ⟨hJ', hnodup.2, fun d hd => hothers d ?_ (hrest d (List.mem_cons_of_mem dep hd))⟩
    intro hid
    exact hnodup.1 (hid ▸ List.mem_map_of_mem hd)
  · refine ⟨h, s.db.nodup_deposit_ids.sublist (List.filter_sublist.map _), fun d hd => ?_⟩
    obtain ⟨hd, hst⟩ := List.mem_filter.1 hd
    exact hselect d hd (of_decide_eq_true hst)

include hsem hpre

theorem markFundedDeposits_holds (hselect : ∀ s, J s → ∀ d ∈ s.db.stakeDeposits, d.status = .awaitingFunds → M d s)
    (hround : ∀ dep s, J s → M dep s → (Staking.markFunded cfg dep).Holds S
      (fun _ s' => J s' ∧ ∀ d, d.id ≠ dep.id → M d s → M d s') (fun _ => J) s) (h : J s) :
    (Staking.markFundedDeposits cfg).Holds S (fun _ => J) (fun _ => J) s := by
  have hensure := ensureWalletLoaded_holds .pool hsem hstable hpre h
  refine Prog.Holds.bind (hensure.mono (fun _ s1 h1 => ?_) fun _ _ h => h)
  refine sql_holds hsem fun s2 hs2 => ⟨hpre _ s2 rfl (hstable s1 s2 h1 hs2), fun _ _ => ?_⟩
  have hJ2 := hstable s1 s2 h1 hs2
  exact depositRounds_holds hstable hM (hselect s2 hJ2) hround hJ2

theorem attributeRewards_holds (hselect : ∀ s, J s → ∀ d ∈ s.db.stakeDeposits, d.status = .active → M d s)
    (hround : ∀ dep s, J s → M dep s → (Staking.attributeDeposit cfg dep).Holds S
      (fun _ s' => J s' ∧ ∀ d, M d s → M d s') (fun _ => J) s) (h : J s) :
    (Staking.attributeRewards cfg).Holds S (fun _ => J) (fun _ => J) s := by
  have hensure := ensureWalletLoaded_holds .pool hsem hstable hpre h
  refine Prog.Holds.bind (hensure.mono (fun _ s1 h1 => ?_) fun _ _ h => h)
  refine sql_holds hsem fun s2 hs2 => ⟨hpre _ s2 rfl (hstable s1 s2 h1 hs2), fun _ _ => ?_⟩
  have hJ2 := hstable s1 s2 h1 hs2
  refine depositRounds_holds hstable hM (hselect s2 hJ2) (fun dep s hJ hdep => ?_) hJ2
  exact (hround dep s hJ hdep).mono (fun _ _ hs => ⟨hs.1, fun d _ => hs.2 d⟩) fun _ _ hs => hs

end Pass

end Holds

end CodexaCoin.Gateway
