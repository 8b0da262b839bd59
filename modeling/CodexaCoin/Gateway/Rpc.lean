import CodexaCoin.Gateway.Amounts
import CodexaCoin.Gateway.Db
import CodexaCoin.Lib.Process

/-!
# The gateway and its node

The atomic steps of the gateway: one SQL statement on the database, or one RPC call to the node. What the node answers
comes from outside, so the steps say nothing about whether it is true; only `sendtoaddress` is taken at its word, as a
payment.
-/

namespace CodexaCoin.Gateway

open Process

/-! ## Calls and answers -/

inductive Wallet where
  | pool
  | admin
deriving DecidableEq, Repr

/-- The names of the wallets, as configured by default. -/
def Wallet.name : Wallet → String
  | pool => "stakingpool"
  | admin => "adminwallet"

structure RpcError where
  code : Int
  message : String
deriving DecidableEq, Repr

/-- An entry of `listunspent`, with the amount in satoshis. The node prints it in coins. -/
structure Utxo where
  outpoint : COutPoint
  amount : Int
deriving DecidableEq, Repr

structure WalletTx where
  txid : Uint256
  tx : CTransaction
deriving DecidableEq, Repr

/-- The RPC calls of the gateway. A payment is asked for in coins, as a double. The node does not learn for which user
it is; the call names the user for the record of payments. -/
inductive Call where
  | listWallets
  | loadWallet (wallet : Wallet)
  | listWalletDir
  | createWallet (wallet : Wallet)
  | getNewAddress
  | setLabel (address : Address) (id : DepositId)
  | listUnspent (address : Address)
  | getTxOut (out : COutPoint)
  | listTransactions (id : DepositId)
  | getRawTransaction (txid : Uint256)
  | sendToAddress (wallet : Wallet) (userId : UserId) (toAddress : Address) (amountCac : ℚ)
deriving DecidableEq

def Call.Reply : Call → Type
  | listWallets => List String
  | loadWallet _ => Unit
  | listWalletDir => List String
  | createWallet _ => Unit
  | getNewAddress => Address
  | setLabel .. => Unit
  | listUnspent _ => List Utxo
  | getTxOut _ => Option CTxOut
  | listTransactions _ => List Uint256
  | getRawTransaction _ => CTransaction
  | sendToAddress .. => Uint256

/-- The input of a step: nothing for a statement, the node's answer for a call. -/
inductive Answer where
  | none
  | error (e : RpcError)
  | done
  | names (l : List String)
  | address (a : Address)
  | utxos (l : List Utxo)
  | txout (o : Option CTxOut)
  | txids (l : List Uint256)
  | tx (t : CTransaction)
  | sent (t : WalletTx)
deriving DecidableEq

def Call.reply : (c : Call) → Answer → Option c.Reply
  | listWallets, .names l => some l
  | loadWallet _, .done => some ()
  | listWalletDir, .names l => some l
  | createWallet _, .done => some ()
  | getNewAddress, .address a => some a
  | setLabel .., .done => some ()
  | listUnspent _, .utxos l => some l
  | getTxOut _, .txout o => some o
  | listTransactions _, .txids l => some l
  | getRawTransaction _, .tx t => some t
  | sendToAddress .., .sent t => some t.txid
  | _, _ => Option.none

/-! ## The state -/

/-- A successful `sendtoaddress`, with the amount that the node has read and paid. -/
structure Payment where
  wallet : Wallet
  userId : UserId
  toAddress : Address
  amount : Int
  made : WalletTx
deriving DecidableEq, Repr

structure Activation where
  userId : UserId
  depositId : DepositId
  amount : Int
deriving DecidableEq, Repr

/-- The gateway's database and the node. The activations and payments are kept in the order in which they were made. The
chain has the transactions the node has accepted, newest first; `stale` has those that a reorganization has removed. -/
structure State where
  db : Db := {}
  activations : List Activation := []
  payments : List Payment := []
  chain : List WalletTx := []
  stale : List WalletTx := []

namespace State

variable (s : State)

def paidTo (wallet : Wallet) (sel : UserId → Bool) : Int :=
  Table.sumWhere (fun p => decide (p.wallet = wallet) && sel p.userId) (·.amount) s.payments

abbrev paid (wallet : Wallet) (userId : UserId) : Int :=
  s.paidTo wallet fun v => decide (v = userId)

def runSql (q : Stmt) : q.Result × State :=
  ((q.exec s.db).1,
    { s with
      db := (q.exec s.db).2
      activations := match q with
        | .activateDeposit id _ amount => s.activations ++
            (s.db.stakeDeposits.filter fun d => decide (d.id = id)).map fun d => ⟨d.userId, id, amount⟩
        | _ => s.activations })

def pay (p : Payment) : State :=
  { s with payments := s.payments ++ [p], chain := p.made :: s.chain }

/-- What an answered call does: only `sendtoaddress` changes anything. It pays the amount that the node reads, refuses
amounts that are not positive, and its transaction is one that no payment was made with before. -/
def runRpc : (c : Call) → Answer → Option (c.Reply × State)
  | .sendToAddress wallet userId toAddress amountCac, .sent t =>
      (amountFromValue amountCac).bind fun amount =>
        if 0 < amount ∧ t.txid ∉ s.payments.map (·.made.txid) then
          some (t.txid, s.pay { wallet, userId, toAddress, amount, made := t })
        else Option.none
  | c, x => (c.reply x).map fun r => (r, s)

theorem runSql_of_query {q : Stmt} (hq : q.writes = false) : (s.runSql q).2 = s := by
  cases q <;> first | rfl | cases hq

@[simp] theorem runSql_db (q : Stmt) : (s.runSql q).2.db = (q.exec s.db).2 := rfl

@[simp] theorem runSql_payments (q : Stmt) : (s.runSql q).2.payments = s.payments := rfl

@[simp] theorem pay_db (p : Payment) : (s.pay p).db = s.db := rfl

theorem paidTo_pay (p : Payment) (wallet : Wallet) (sel : UserId → Bool) :
    (s.pay p).paidTo wallet sel =
      s.paidTo wallet sel + if p.wallet = wallet ∧ sel p.userId = true then p.amount else 0 := by
  simp [paidTo, pay, Table.sumWhere_append, Table.sumWhere_cons]

end State

/-! ## Atomic steps -/

inductive Op where
  | sql (q : Stmt)
  | rpc (c : Call)

/-- What a step returns to the program; a call can raise. -/
def Op.Res : Op → Type
  | sql q => q.Result
  | rpc c => Except RpcError c.Reply

/-- One atomic step. -/
def sem : (o : Op) → Answer → State → Option (o.Res × State)
  | .sql q, _, s => some (s.runSql q)
  | .rpc _, .error e, s => some (.error e, s)
  | .rpc c, x, s => (s.runRpc c x).map fun r => (.ok r.1, r.2)

/-! ### What a step can do -/

section

variable {s s' : State} {x : Answer} {wallet : Wallet} {userId : UserId} {toAddress : Address} {amountCac : ℚ}

theorem sem_sql {q : Stmt} {r : q.Result} (h : sem (.sql q) x s = some (r, s')) :
    r = (s.runSql q).1 ∧ s' = (s.runSql q).2 :=
  Prod.mk.inj (Option.some.inj h).symm

theorem runRpc_sent {t : WalletTx}
    {r : Uint256 × State} (h : s.runRpc (.sendToAddress wallet userId toAddress amountCac) (.sent t) = some r) :
    ∃ amount, amountFromValue amountCac = some amount ∧ 0 < amount ∧ t.txid ∉ s.payments.map (·.made.txid) ∧
      r = (t.txid, s.pay { wallet, userId, toAddress, amount, made := t }) := by
  obtain ⟨amount, hamount, h⟩ := Option.bind_eq_some_iff.1 h
  split at h
  · next hcond => exact ⟨amount, hamount, hcond.1, hcond.2, (Option.some.inj h).symm⟩
  · cases h

theorem sem_rpc {c : Call} {r : Except RpcError c.Reply} (h : sem (.rpc c) x s = some (r, s')) :
    s' = s ∨ ∃ wallet userId toAddress amountCac amount t, c = .sendToAddress wallet userId toAddress amountCac ∧
      x = .sent t ∧ amountFromValue amountCac = some amount ∧ 0 < amount ∧ t.txid ∉ s.payments.map (·.made.txid) ∧
      s' = s.pay { wallet, userId, toAddress, amount, made := t } := by
  by_cases hx : ∃ e, x = .error e
  · obtain ⟨e, rfl⟩ := hx
    cases h
    exact .inl rfl
  · have h' : ((s.runRpc c x).map fun r => (Except.ok r.1, r.2)) = some (r, s') := by
      cases x <;> first | exact absurd ⟨_, rfl⟩ hx | exact h
    obtain ⟨⟨r', s1⟩, hrun, heq⟩ := Option.map_eq_some_iff.1 h'
    cases heq
    cases c with
    | sendToAddress wallet userId toAddress amountCac =>
      cases x with
      | sent t =>
        obtain ⟨amount, hread, hpos, hnew, heq⟩ := runRpc_sent hrun
        cases heq
        exact .inr ⟨wallet, userId, toAddress, amountCac, amount, t, rfl, rfl, hread, hpos, hnew, rfl⟩
      | _ => cases hrun
    | _ => cases x <;> first | (cases hrun; exact .inl rfl) | cases hrun

theorem sem_sendToAddress     {r : Except RpcError Uint256}
    (h : sem (.rpc (.sendToAddress wallet userId toAddress amountCac)) x s = some (r, s')) :
    (s' = s ∧ ∃ e, r = .error e) ∨ ∃ amount t, x = .sent t ∧ r = .ok t.txid ∧ amountFromValue amountCac = some amount ∧
      0 < amount ∧ t.txid ∉ s.payments.map (·.made.txid) ∧
        s' = s.pay { wallet, userId, toAddress, amount, made := t } := by
  cases x with
  | error e =>
    cases h
    exact .inl ⟨rfl, e, rfl⟩
  | sent t =>
    obtain ⟨⟨r', s1⟩, hrun, heq⟩ := Option.map_eq_some_iff.1 h
    cases heq
    obtain ⟨amount, hread, hpos, hnew, heq⟩ := runRpc_sent hrun
    cases heq
    exact .inr ⟨amount, t, rfl, rfl, hread, hpos, hnew, rfl⟩
  | _ => cases h

end

end CodexaCoin.Gateway
