import CodexaCoin.Validation.CheckBlock

/-!
# Admission to the memory pool

`MemPoolAccept::PreChecks` of `validation.cpp`. Policy that is configured or that looks at scripts only is left arbitrary.
-/

namespace CodexaCoin

open Check Consensus CoinMap IndexChain

/-! ## The pool -/

/-- `TxValidationResult`, with the members that only the memory pool uses. -/
inductive PreCheckResult where
  | consensus (result : TxValidationResult)
  | txInputsNotStandard
  | txWitnessMutated
  | txConflict
  | txMempoolPolicy
deriving DecidableEq, Repr

abbrev PreCheck := Except (Reject PreCheckResult)

/-- A consensus check inside `PreChecks`. -/
def TxCheck.toPreCheck {α : Type} : TxCheck α → PreCheck α
  | .ok a => .ok a
  | .error (.invalid result reason) => .error (.invalid (.consensus result) reason)
  | .error (.error message) => .error (.error message)
  | .error (.abort what) => .error (.abort what)

/-- What is configured, and the checks that look at scripts. -/
structure MempoolPolicy where
  /-- `-prematurewitness`. -/
  prematureWitness : Bool := false
  /-- `m_require_standard`. -/
  requireStandard : Bool := true
  /-- `IsStandardTx`, given whether witnesses are enabled: the reason if it is not. -/
  isStandardTx : CTransaction → Bool → Option String := fun _ _ => none
  areInputsStandard : CTransaction → CoinMap → Bool := fun _ _ => true
  isWitnessStandard : CTransaction → CoinMap → Bool := fun _ _ => true
  /-- `STANDARD_SCRIPT_VERIFY_FLAGS`. -/
  standardFlags : ScriptFlags := .none
  /-- `ApplyDelta`. -/
  applyDelta : Uint256 → Int → Int := fun _ fee => fee
  /-- `m_min_relay_feerate.GetFee`. -/
  minRelayFee : Nat → Int := getFee 100000
  /-- Whether `CalculateMemPoolAncestors` succeeds, with the limits of the pool or without limits. -/
  ancestorsWithin : CTransaction → Bool → Bool := fun _ _ => true
  bypassLimits : Bool := false
  packageFeerates : Bool := false

structure MempoolNode where
  env : Env
  /-- The active chain, the tip first. -/
  chain : IndexChain
  /-- `CoinsTip`. -/
  coins : CoinMap
  /-- The outputs that are in the cache of `CoinsTip`. -/
  cached : COutPoint → Bool
  /-- The transactions of the pool. -/
  pool : List CTransaction
  policy : MempoolPolicy

namespace MempoolNode

variable (node : MempoolNode)

def getConflictTx (prevout : COutPoint) : Option CTransaction :=
  node.pool.find? fun tx => tx.vin.any fun txin => txin.prevout == prevout

/-- `CCoinsViewMemPool::GetCoin`: outputs of the pool come first. -/
def viewCoin (outpoint : COutPoint) : Option Coin :=
  match node.pool.find? fun tx => tx.getHash node.env.crypto == outpoint.hash with
  | some tx =>
    match tx.vout[outpoint.n]? with
    | none => none
    | some out => if h : out.nValue ≠ -1 then some ⟨out, false, false, 0x7fffffff, tx.nTime, h⟩ else none
  | none => getCoin node.coins outpoint

def view (tx : CTransaction) : CoinMap :=
  tx.vin.foldl (fun m txin => match node.viewCoin txin.prevout with
    | none => m
    | some coin => m.insert txin.prevout coin) ∅

/-! ## The checks -/

def preChecksBefore (tx : CTransaction) : PreCheck Unit := do
  (checkTransaction tx).toPreCheck
  require (!tx.isCoinBase) (.invalid (.consensus .txConsensus) "coinbase")
  require (!tx.isCoinStake) (.invalid (.consensus .txConsensus) "coinstake")
  let witnessEnabled := deploymentActiveAfter node.env.net node.chain .segwit
  require (!(!node.policy.prematureWitness && tx.hasWitness && !witnessEnabled))
    (.invalid (.consensus .txNotStandard) "no-witness-yet")
  let reason := node.policy.isStandardTx tx witnessEnabled
  require (!(node.policy.requireStandard && reason.isSome)) (.invalid (.consensus .txNotStandard) (reason.getD ""))
  require (decide (65 ≤ (tx.serialize false).length)) (.invalid (.consensus .txNotStandard) "tx-size-small")
  require (isFinalTx tx (nHeight node.chain + 1) (getMedianTimePast node.env.net node.chain))
    (.invalid (.consensus .txPrematureSpend) "non-final")
  require (decide (inputCheckTime node.env tx ≤ futureDrift node.env.net (nHeight node.chain) node.env.adjustedTime))
    (.invalid (.consensus .txPrematureSpend) "time-too-new")
  require (!node.pool.any fun other => other.getWitnessHash node.env.crypto == tx.getWitnessHash node.env.crypto)
    (.invalid .txConflict "txn-already-in-mempool")
  require (!node.pool.any fun other => other.getHash node.env.crypto == tx.getHash node.env.crypto)
    (.invalid .txConflict "txn-same-nonwitness-data-in-mempool")

def checkConflicts (tx : CTransaction) : PreCheck Unit :=
  require (tx.vin.all fun txin => (node.getConflictTx txin.prevout).isNone)
    (.invalid .txMempoolPolicy "txn-mempool-conflict")

def checkInputExists (tx : CTransaction) (txin : CTxIn) : PreCheck Unit :=
  if (node.viewCoin txin.prevout).isSome then .ok ()
  else if (List.range tx.vout.length).any fun out => node.cached ⟨tx.getHash node.env.crypto, out⟩ then
    .error (.invalid .txConflict "txn-already-known")
  else .error (.invalid (.consensus .txMissingInputs) "bad-txns-inputs-missingorspent")

/-- The heights of the inputs; those in the pool count for the next block. -/
def prevHeights (tx : CTransaction) : List Nat :=
  tx.vin.map fun txin => match node.viewCoin txin.prevout with
    | none => 0
    | some coin => if coin.nHeight = 0x7fffffff then node.chain.length else coin.nHeight

def sequenceLocksAtTip (tx : CTransaction) : PreCheck Bool :=
  match sequenceLocks node.env.net tx true (node.prevHeights tx) (⟨0, 7, 0, 0, false, 0⟩ :: node.chain) with
  | .ok final => .ok final
  | .error (.abort what) => .error (.abort what)
  | .error _ => .ok false

/-- `GetMinFee` of a size. -/
def minFeeOfSize (nBytes : Nat) (nTime : Int) : Int :=
  let nMinFee :=
    if node.env.net.params.isProtocolV3_1 (nTime % 2 ^ 32) then
      if nBytes ≤ 100 then 10000 else getFee 100000 nBytes
    else getFee 100000 nBytes
  if moneyRange nMinFee then nMinFee else maxMoney

def checkFeeRate (packageSize : Nat) (packageFee : Int) : PreCheck Unit := do
  let minFee := node.minFeeOfSize packageSize node.env.adjustedTime
  require (!(decide (0 < minFee) && decide (packageFee < minFee))) (.invalid .txMempoolPolicy "min fee not met")
  require (decide (node.policy.minRelayFee packageSize ≤ packageFee)) (.invalid .txMempoolPolicy "min relay fee not met")

/-- Everything after the loop over the conflicts; the result is the fee. -/
def preChecksAfter (tx : CTransaction) : PreCheck Int := do
  tx.vin.forM (node.checkInputExists tx)
  let final ← node.sequenceLocksAtTip tx
  require final (.invalid (.consensus .txPrematureSpend) "non-BIP68-final")
  let fees ← (checkTxInputs node.env tx (node.view tx) node.chain.length).toPreCheck
  let nTimeTx := inputCheckTime node.env tx
  require (!(node.env.net.params.isProtocolV3_1 nTimeTx && decide (fees < getMinFee node.env.net tx nTimeTx)))
    (.invalid (.consensus .txConsensus) "bad-txns-fee-not-enough")
  require (!(node.policy.requireStandard && !node.policy.areInputsStandard tx (node.view tx)))
    (.invalid .txInputsNotStandard "bad-txns-nonstandard-inputs")
  require (!(tx.hasWitness && node.policy.requireStandard && !node.policy.isWitnessStandard tx (node.view tx)))
    (.invalid .txWitnessMutated "bad-witness-nonstandard")
  let nSigOpsCost := getTransactionSigOpCost tx (node.view tx) node.policy.standardFlags
  let modifiedFees := node.policy.applyDelta (tx.getHash node.env.crypto) fees
  let vsize := (max tx.weight (nSigOpsCost * 20) + witnessScaleFactor - 1) / witnessScaleFactor
  require (decide (nSigOpsCost ≤ maxBlockSigopsCost / 5))
    (.invalid (.consensus .txNotStandard) "bad-txns-too-many-sigops")
  if !node.policy.bypassLimits && !node.policy.packageFeerates then node.checkFeeRate vsize modifiedFees
  require (node.policy.ancestorsWithin tx true || (decide (vsize ≤ 10000) && node.policy.ancestorsWithin tx false))
    (.invalid .txMempoolPolicy "too-long-mempool-chain")
  .ok fees

def preChecks (tx : CTransaction) : PreCheck Int := do
  node.preChecksBefore tx
  node.checkConflicts tx
  node.preChecksAfter tx

def OtherwiseValid (tx : CTransaction) : Prop :=
  node.preChecksBefore tx = .ok () ∧ ∃ fees, node.preChecksAfter tx = .ok fees

def conflict : Reject PreCheckResult := .invalid .txMempoolPolicy "txn-mempool-conflict"

/-! ## Conflicts -/

variable {node} {tx : CTransaction}

theorem checkConflicts_eq_ok_iff : node.checkConflicts tx = .ok () ↔
    ∀ other ∈ node.pool, ∀ txin ∈ tx.vin, txin.prevout ∉ other.vin.map (·.prevout) := by
  rw [checkConflicts, require_eq_ok, List.all_eq_true]
  constructor
  · intro h other hother txin htxin hmem
    obtain ⟨spent, hspent, heq⟩ := List.mem_map.1 hmem
    have hnone := List.find?_eq_none.1 (Option.isNone_iff_eq_none.1 (h txin htxin)) other hother
    exact hnone (List.any_eq_true.2 ⟨spent, hspent, beq_iff_eq.2 heq⟩)
  · intro h txin htxin
    refine Option.isNone_iff_eq_none.2 (List.find?_eq_none.2 fun other hother hany => ?_)
    obtain ⟨spent, hspent, heq⟩ := List.any_eq_true.1 hany
    exact h other hother txin htxin (List.mem_map.2 ⟨spent, hspent, beq_iff_eq.1 heq⟩)

/-- **A transaction with which nothing else is wrong is refused as a conflict exactly if the pool holds a transaction that
spends one of its outpoints.** -/
theorem preChecks_eq_conflict_iff (h : node.OtherwiseValid tx) : node.preChecks tx = .error conflict ↔
    ¬∀ other ∈ node.pool, ∀ txin ∈ tx.vin, txin.prevout ∉ other.vin.map (·.prevout) := by
  obtain ⟨hbefore, fees, hafter⟩ := h
  rw [← checkConflicts_eq_ok_iff, preChecks, hbefore, ok_bind]
  cases hc : node.checkConflicts tx with
  | ok _ => simp [hafter]
  | error e =>
    have he : e = conflict := by
      unfold checkConflicts require at hc
      split at hc
      · cases hc
      · cases hc
        rfl
    simp [he]

end MempoolNode

end CodexaCoin
