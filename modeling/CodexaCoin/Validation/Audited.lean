import CodexaCoin.Lib.Audit
import CodexaCoin.Validation.ConnectBlock

/-!
# Amount arithmetic under audit

The functions that add amounts up, with an audit of every signed 64-bit addition and subtraction they make: those of
`CheckTransaction`, `CTransaction::GetValueOut`, `Consensus::CheckTxInputs` and of the fees and rewards of
`ConnectBlock`. The audit changes no result (`result_checkTransaction`, `result_getValueOut`, `result_checkTxInputs`,
`result_connectBlock`).
-/

namespace CodexaCoin

open Check Consensus CoinMap IndexChain Audit Audit.Run

namespace Audited

abbrev TxRun := Run (Reject TxValidationResult)

abbrev BlockRun := Run (Reject BlockValidationResult)

/-- One round of `GetValueOut`, which forms the sum once to check it and once more to keep it. -/
def addValueOut (nValueOut : Int) (out : CTxOut) : TxRun Int :=
  if moneyRange out.nValue then do
    let sum ← arith (nValueOut + out.nValue)
    lift (require (moneyRange sum) (.abort "value out of range"))
    arith (nValueOut + out.nValue)
  else lift (.error (.abort "value out of range"))

def getValueOut (tx : CTransaction) : TxRun Int :=
  tx.vout.foldlM addValueOut 0

/-- One round of the output loop of `CheckTransaction`. -/
def checkTransactionOut (tx : CTransaction) (nValueOut : Int) (txout : CTxOut) : TxRun Int := do
  lift (require (!(txout.isEmpty && !tx.isCoinBase && !tx.isCoinStake)) (.invalid .txConsensus "bad-txns-vout-empty"))
  lift (require (decide (0 ≤ txout.nValue)) (.invalid .txConsensus "bad-txns-vout-negative"))
  lift (require (decide (txout.nValue ≤ maxMoney)) (.invalid .txConsensus "bad-txns-vout-toolarge"))
  let sum ← arith (nValueOut + txout.nValue)
  lift (require (moneyRange sum) (.invalid .txConsensus "bad-txns-txouttotal-toolarge"))
  pure sum

def checkTransaction (tx : CTransaction) : TxRun Unit := do
  lift (require (!tx.vin.isEmpty) (.invalid .txConsensus "bad-txns-vin-empty"))
  lift (require (!tx.vout.isEmpty) (.invalid .txConsensus "bad-txns-vout-empty"))
  lift (require (decide ((tx.serialize false).length * witnessScaleFactor ≤ maxBlockWeight))
    (.invalid .txConsensus "bad-txns-oversize"))
  let _ ← tx.vout.foldlM (checkTransactionOut tx) 0
  lift (require (decide (tx.vin.map (·.prevout)).Nodup) (.invalid .txConsensus "bad-txns-inputs-duplicate"))
  lift (if tx.isCoinBase then
      let n := ((tx.vin.head?.map (·.scriptSig)).getD []).length
      require (decide (2 ≤ n ∧ n ≤ 100)) (.invalid .txConsensus "bad-cb-length")
    else
      require (tx.vin.all fun txin => !txin.prevout.isNull) (.invalid .txConsensus "bad-txns-prevout-null"))

section Inputs

variable (E : Env)

/-- One round of the input loop of `CheckTxInputs`; the sum is formed before the value of the coin is checked. -/
def checkTxInput (inputs : CoinMap) (nSpendHeight : Nat) (nTimeTx : Int) (nValueIn : Int) (txin : CTxIn) : TxRun Int :=
  match getCoin inputs txin.prevout with
  | none => lift (.error (.abort "assert(!coin.IsSpent())"))
  | some coin => do
    lift (require (!((coin.fCoinBase || coin.fCoinStake) &&
        decide ((nSpendHeight : Int) - coin.nHeight < inputMaturity E nTimeTx)))
      (.invalid .txPrematureSpend "bad-txns-premature-spend-of-coinbase"))
    lift (require (decide ((coin.nTime : Int) ≤ nTimeTx)) (.invalid .txConsensus "bad-txns-time-earlier-than-input"))
    let sum ← arith (nValueIn + coin.out.nValue)
    lift (require (moneyRange coin.out.nValue && moneyRange sum)
      (.invalid .txConsensus "bad-txns-inputvalues-outofrange"))
    pure sum

def checkTxInputs (tx : CTransaction) (inputs : CoinMap) (nSpendHeight : Nat) : TxRun Int := do
  lift (require (haveInputs inputs tx) (.invalid .txMissingInputs "bad-txns-inputs-missingorspent"))
  let nTimeTx := inputCheckTime E tx
  let nValueIn ← tx.vin.foldlM (checkTxInput E inputs nSpendHeight nTimeTx) 0
  if tx.isCoinStake then pure 0
  else do
    let valueOut ← getValueOut tx
    lift (require (decide (valueOut ≤ nValueIn)) (.invalid .txConsensus "bad-txns-in-belowout"))
    let txfee ← arith (nValueIn - valueOut)
    lift (require (moneyRange txfee) (.invalid .txConsensus "bad-txns-fee-outofrange"))
    lift (require (!(E.net.params.isProtocolV3_1 nTimeTx && decide (txfee < getMinFee E.net tx nTimeTx)))
      (.invalid .txConsensus "bad-txns-fee-not-enough"))
    pure txfee

end Inputs

def getValueIn (m : CoinMap) (tx : CTransaction) : BlockRun Int :=
  if tx.isCoinBase then pure 0
  else tx.vin.foldlM (fun n txin => arith (n + inputValue m txin)) 0

def getCoinstakeMaxReward (net : Network) (pindexPrev : IndexChain) (tx : CTransaction) (view : CoinMap)
    (nTimeTx : Nat) : BlockRun Int :=
  tx.vin.foldlM (fun nTotal txin => arith (nTotal + inputReward net pindexPrev view nTimeTx txin)) 0

section ConnectTx

variable (E : Env) (chain : IndexChain) (flags : ScriptFlags)

/-- The first block of a round of `ConnectBlock`. -/
def connectInputs (s : ConnectState) (tx : CTransaction) : BlockRun Int :=
  if tx.isCoinBase then pure s.nFees
  else do
    let txfee ← (checkTxInputs E tx s.coins (chain.length - 1)).mapResult TxCheck.toBlock
    let nFees ← arith (s.nFees + txfee)
    lift (require (moneyRange nFees) (.invalid .blockConsensus "bad-txns-accumulated-fee-outofrange"))
    let prevheights := tx.vin.map fun txin => ((s.coins.lookup txin.prevout).map (·.nHeight)).getD 0
    let final ← lift (sequenceLocks E.net tx (deploymentActiveAtCSV E.net (nHeight chain)) prevheights chain)
    lift (require final (.invalid .blockConsensus "bad-txns-nonfinal"))
    pure nFees

/-- The second block of a round: the values come before the scripts. -/
def connectValues (s : ConnectState) (nFees : Int) (tx : CTransaction) : BlockRun (Int × Int) :=
  if tx.isCoinBase then pure (nFees, s.nActualStakeReward)
  else do
    let valueOut ← (getValueOut tx).mapResult TxCheck.toBlock
    let valueIn ← getValueIn s.coins tx
    let values ← if tx.isCoinStake then do
        let reward ← arith (valueOut - valueIn)
        pure (nFees, reward)
      else do
        let fee ← arith (valueIn - valueOut)
        let sum ← arith (nFees + fee)
        pure (sum, s.nActualStakeReward)
    lift (require (!E.fScriptChecks || checkInputScripts E tx s.coins flags)
      (.invalid .blockConsensus "mandatory-script-verify-flag-failed"))
    pure values

/-- One round of the loop of `ConnectBlock`. -/
def connectTx (s : ConnectState) (tx : CTransaction) : BlockRun ConnectState := do
  let nFees ← connectInputs E chain s tx
  let nSigOpsCost := s.nSigOpsCost + getTransactionSigOpCost tx s.coins flags
  lift (require (decide (nSigOpsCost ≤ maxBlockSigopsCost)) (.invalid .blockConsensus "bad-blk-sigops"))
  let values ← connectValues E flags s nFees tx
  let r ← lift (updateCoins s.coins E.crypto tx (chain.length - 1))
  pure { coins := r.2, nFees := values.1, nActualStakeReward := values.2, nSigOpsCost := nSigOpsCost,
         undos := s.undos ++ [r.1] }

end ConnectTx

section ConnectBlock

variable (E : Env) (block : CBlock) (pindex : CBlockIndex) (pprev : IndexChain) (view : CCoinsView)

/-- The proof-of-stake check of `ConnectBlock`. -/
def connectStake : BlockRun Int :=
  if block.isProofOfStake && E.net.params.isProtocolV3 block.nTime then
    match block.vtx with
    | _ :: tx1 :: _ => do
      let nCoinstakeTime := txTimeIn block tx1
      lift (checkProofOfStake E pprev tx1 block.nBits view.coins nCoinstakeTime)
      getCoinstakeMaxReward E.net pprev tx1 view.coins nCoinstakeTime
    | _ => pure 0
  else pure 0

def checkRewards (nMaxStakeReward : Int) (s : ConnectState) : BlockRun Unit := do
  if !block.isProofOfStake then do
    let blockReward ← arith (s.nFees + getBlockSubsidy E.net pprev.length)
    let valueOut ← (getValueOut (block.vtx.headD ⟨[], [], 2, 0, 0⟩)).mapResult TxCheck.toBlock
    lift (require (decide (valueOut ≤ blockReward)) (.invalid .blockConsensus "bad-cb-amount"))
  if block.isProofOfStake && E.net.params.isProtocolV3 block.nTime then do
    let blockReward ← arith (s.nFees + nMaxStakeReward)
    lift (require (decide (s.nActualStakeReward ≤ blockReward)) (.invalid .blockConsensus "bad-cs-amount"))

/-- `ConnectBlock` after the genesis case. -/
def connectBody (nMaxStakeReward : Int) (fJustCheck : Bool) : BlockRun ConnectResult := do
  lift (require (noOverwrite E block view) (.invalid .blockConsensus "bad-txns-BIP30"))
  let flags := getBlockScriptFlags E.net pindex pprev
  let s ← block.vtx.foldlM (connectTx E (pindex :: pprev) flags) { coins := view.coins }
  checkRewards E block pprev nMaxStakeReward s
  pure { view := { coins := s.coins, hashBlock := if fJustCheck then view.hashBlock else pindex.hash }
         blockundo := s.undos.tail
         nStakeModifier := computeStakeModifier E.crypto pprev (modifierKernel E block) }

def connectBlock (fJustCheck : Bool) : BlockRun ConnectResult := do
  lift (require (pindex.hash == block.getHash E.crypto) (.abort "assert(*pindex->phashBlock == block_hash)"))
  lift (require (!E.checkpointsEnabled || E.checkHardened pprev.length (block.getHash E.crypto))
    (.invalid .blockCheckpoint "bad-fork-hardened-checkpoint"))
  lift (corruptIsFatal (checkBlock E block (nHeight pprev) (!fJustCheck) (!fJustCheck) true))
  lift (require ((pprev.head?.map (·.hash)).getD 0 == view.hashBlock)
    (.abort "assert(hashPrevBlock == view.GetBestBlock())"))
  let nMaxStakeReward ← connectStake E block pprev view
  if block.getHash E.crypto = E.net.hashGenesisBlock E.crypto then
    pure { view := { view with hashBlock := if fJustCheck then view.hashBlock else pindex.hash }
           blockundo := []
           nStakeModifier := pindex.nStakeModifier }
  else connectBody E block pindex pprev view nMaxStakeReward fJustCheck

end ConnectBlock

/-! ## The audit changes no result -/

section Results

variable (E : Env) (tx : CTransaction)

theorem result_addValueOut (n : Int) (out : CTxOut) : (addValueOut n out).result = CTransaction.addValueOut n out := by
  unfold addValueOut CTransaction.addValueOut
  cases hout : moneyRange out.nValue with
  | true => simp
  | false => simp

theorem result_getValueOut : (getValueOut tx).result = tx.getValueOut :=
  result_foldlM result_addValueOut tx.vout 0

theorem result_checkTransactionOut (n : Int) (out : CTxOut) :
    (checkTransactionOut tx n out).result = CodexaCoin.checkTransactionOut tx n out := by
  simp [checkTransactionOut, CodexaCoin.checkTransactionOut]

theorem result_checkTransaction : (checkTransaction tx).result = CodexaCoin.checkTransaction tx := by
  simp [checkTransaction, CodexaCoin.checkTransaction, result_foldlM (result_checkTransactionOut tx)]

theorem result_checkTxInput (m : CoinMap) (nSpendHeight : Nat) (nTimeTx n : Int) (txin : CTxIn) :
    (checkTxInput E m nSpendHeight nTimeTx n txin).result = CodexaCoin.checkTxInput E m nSpendHeight nTimeTx n txin := by
  unfold checkTxInput CodexaCoin.checkTxInput
  cases getCoin m txin.prevout with
  | none => rfl
  | some coin => simp

theorem result_checkTxInputs (m : CoinMap) (nSpendHeight : Nat) :
    (checkTxInputs E tx m nSpendHeight).result = CodexaCoin.checkTxInputs E tx m nSpendHeight := by
  unfold checkTxInputs CodexaCoin.checkTxInputs
  cases tx.isCoinStake with
  | true => simp [result_foldlM (result_checkTxInput E m nSpendHeight (inputCheckTime E tx))]
  | false => simp [result_foldlM (result_checkTxInput E m nSpendHeight (inputCheckTime E tx)), result_getValueOut]

theorem result_sum {α : Type} (w : α → Int) (l : List α) (n : Int) :
    (l.foldlM (fun n a => arith (n + w a)) n : BlockRun Int).result = .ok (l.foldl (fun n a => wrap64 (n + w a)) n) := by
  induction l generalizing n with
  | nil => rfl
  | cons a l ih => rw [List.foldlM_cons, result_bind, result_arith, ok_bind, ih, List.foldl_cons]

theorem result_getValueIn (m : CoinMap) : (getValueIn m tx).result = .ok (m.getValueIn tx) := by
  unfold getValueIn CoinMap.getValueIn
  cases tx.isCoinBase with
  | true => rfl
  | false => exact result_sum (inputValue m) tx.vin 0

theorem result_getCoinstakeMaxReward (net : Network) (pprev : IndexChain) (m : CoinMap) (t : Nat) :
    (getCoinstakeMaxReward net pprev tx m t).result = .ok (CodexaCoin.getCoinstakeMaxReward net pprev tx m t) :=
  result_sum (inputReward net pprev m t) tx.vin 0

theorem result_connectInputs (chain : IndexChain) (s : ConnectState) :
    (connectInputs E chain s tx).result = CodexaCoin.connectInputs E chain s tx := by
  unfold connectInputs CodexaCoin.connectInputs
  cases tx.isCoinBase with
  | true => rfl
  | false => simp [result_checkTxInputs]

theorem result_connectValues (flags : ScriptFlags) (s : ConnectState) (nFees : Int) :
    (connectValues E flags s nFees tx).result = CodexaCoin.connectValues E flags s nFees tx := by
  unfold connectValues CodexaCoin.connectValues
  cases tx.isCoinBase with
  | true => rfl
  | false =>
    cases tx.isCoinStake with
    | true => simp [result_getValueOut, result_getValueIn]
    | false => simp [result_getValueOut, result_getValueIn]

theorem result_connectTx (chain : IndexChain) (flags : ScriptFlags) (s : ConnectState) :
    (connectTx E chain flags s tx).result = CodexaCoin.connectTx E chain flags s tx := by
  simp [connectTx, CodexaCoin.connectTx, result_connectInputs, result_connectValues]

variable (block : CBlock) (pindex : CBlockIndex) (pprev : IndexChain) (view : CCoinsView)

theorem result_connectStake : (connectStake E block pprev view).result = CodexaCoin.connectStake E block pprev view := by
  unfold connectStake CodexaCoin.connectStake
  cases block.isProofOfStake && E.net.params.isProtocolV3 block.nTime with
  | false => rfl
  | true =>
    match block.vtx with
    | [] => rfl
    | [_] => rfl
    | _ :: tx1 :: _ => simp [result_getCoinstakeMaxReward]

theorem result_checkRewards (nMax : Int) (s : ConnectState) :
    (checkRewards E block pprev nMax s).result = CodexaCoin.checkRewards E block pprev nMax s := by
  unfold checkRewards CodexaCoin.checkRewards
  cases block.isProofOfStake with
  | false =>
    simp [result_getValueOut]
  | true =>
    cases E.net.params.isProtocolV3 block.nTime with
    | false => rfl
    | true => simp

theorem result_connectBody (nMax : Int) (fJustCheck : Bool) :
    (connectBody E block pindex pprev view nMax fJustCheck).result =
      CodexaCoin.connectBody E block pindex pprev view nMax fJustCheck := by
  have hloop := result_foldlM (fun s tx =>
    result_connectTx E tx (pindex :: pprev) (getBlockScriptFlags E.net pindex pprev) s)
    block.vtx { coins := view.coins }
  simp [connectBody, CodexaCoin.connectBody, hloop, result_checkRewards]

/-- **The audit leaves `ConnectBlock` as it is.** -/
theorem result_connectBlock (fJustCheck : Bool) :
    (connectBlock E block pindex pprev view fJustCheck).result =
      CodexaCoin.connectBlock E block pindex pprev view fJustCheck := by
  unfold connectBlock CodexaCoin.connectBlock
  by_cases hg : block.getHash E.crypto = E.net.hashGenesisBlock E.crypto
  · simp only [if_pos hg, result_bind, result_lift, result_pure, result_connectStake]
  · simp only [if_neg hg, result_bind, result_lift, result_connectStake, result_connectBody]

end Results

end Audited

end CodexaCoin
