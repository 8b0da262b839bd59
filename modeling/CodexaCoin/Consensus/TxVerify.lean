import CodexaCoin.Chain
import CodexaCoin.Coins

/-!
# Transaction checks

`consensus/tx_check.cpp`, `consensus/tx_verify.cpp` and the parts of `validation.cpp` that look at one transaction.
-/

namespace CodexaCoin

open Check Consensus CoinMap IndexChain

/-- What a node brings to validation besides its chain and coins. -/
structure Env where
  net : Network
  crypto : Crypto
  /-- `VerifyScript` with a `TransactionSignatureChecker`, left arbitrary here: the two scripts, the witness, the
  flags, the spending transaction, the index of the input and the amount it spends. -/
  verifyScript : CScript → CScript → List (List UInt8) → ScriptFlags → CTransaction → Nat → Int → Bool
  /-- `GetAdjustedTimeSeconds`. -/
  adjustedTime : Nat
  /-- `NodeClock::now`, which does not have the offset of the peers. -/
  nodeTime : Nat := adjustedTime
  /-- The hardened checkpoints of `chainparams.cpp` by height, the lowest first. -/
  checkpoints : List (Nat × Uint256)
  checkpointsEnabled : Bool := true
  /-- `fScriptChecks`: false only below a configured `-assumevalid` block. -/
  fScriptChecks : Bool := true
  /-- `CheckSignetBlockSolution` at the moment: the two transactions that it signs carry the time of the local clock. -/
  checkSignetBlockSolution : CBlock → Bool

def Env.checkHardened (E : Env) (nHeight : Nat) (hash : Uint256) : Bool :=
  (E.checkpoints.find? fun checkpoint => checkpoint.1 == nHeight).all fun checkpoint => hash == checkpoint.2

/-- An environment that runs on concrete inputs: every script succeeds, and the node was started with `-checkpoints=0`,
since the main network has checkpoints for its first blocks. -/
def Env.sample (net : Network) (adjustedTime : Nat) : Env where
  net := net
  crypto := .sample
  verifyScript _ _ _ _ _ _ _ := true
  adjustedTime := adjustedTime
  checkpoints := []
  checkpointsEnabled := false
  checkSignetBlockSolution _ := true

/-! ## Values and sizes -/

namespace CTransaction

variable (tx : CTransaction)

/-- One round of the loop of `CTransaction::GetValueOut`. -/
def addValueOut (nValueOut : Int) (out : CTxOut) : TxCheck Int := do
  require (moneyRange out.nValue && moneyRange (wrap64 (nValueOut + out.nValue))) (.abort "value out of range")
  .ok (wrap64 (nValueOut + out.nValue))

def getValueOut : TxCheck Int :=
  tx.vout.foldlM addValueOut 0

def valueOut : Int :=
  (tx.vout.map (·.nValue)).sum

def weight : Nat :=
  (tx.serialize false).length * (witnessScaleFactor - 1) + (tx.serialize true).length

/-- `GetVirtualTransactionSize` without sigop adjustment. -/
def virtualSize : Nat :=
  (tx.weight + witnessScaleFactor - 1) / witnessScaleFactor

end CTransaction

def getFee (nSatoshisPerK : Nat) (nBytes : Nat) : Int :=
  ((nSatoshisPerK * nBytes + 999) / 1000 : Nat)

/-- `GetMinFee`; the minimum relay rate equals `TX_FEE_PER_KB` here. The time arrives as a `uint32_t`. -/
def getMinFee (net : Network) (tx : CTransaction) (nTimeTx : Int) : Int :=
  let nBytes := tx.virtualSize
  let nMinFee :=
    if net.params.isProtocolV3_1 (nTimeTx % 2 ^ 32) then
      if nBytes ≤ 100 then 10000 else getFee 100000 nBytes
    else getFee 100000 nBytes
  if moneyRange nMinFee then nMinFee else maxMoney

/-! ## Context-free checks -/

/-- One round of the output loop of `CheckTransaction`. -/
def checkTransactionOut (tx : CTransaction) (nValueOut : Int) (txout : CTxOut) : TxCheck Int := do
  require (!(txout.isEmpty && !tx.isCoinBase && !tx.isCoinStake)) (.invalid .txConsensus "bad-txns-vout-empty")
  require (decide (0 ≤ txout.nValue)) (.invalid .txConsensus "bad-txns-vout-negative")
  require (decide (txout.nValue ≤ maxMoney)) (.invalid .txConsensus "bad-txns-vout-toolarge")
  require (moneyRange (wrap64 (nValueOut + txout.nValue))) (.invalid .txConsensus "bad-txns-txouttotal-toolarge")
  .ok (wrap64 (nValueOut + txout.nValue))

def checkTransaction (tx : CTransaction) : TxCheck Unit := do
  require (!tx.vin.isEmpty) (.invalid .txConsensus "bad-txns-vin-empty")
  require (!tx.vout.isEmpty) (.invalid .txConsensus "bad-txns-vout-empty")
  require (decide ((tx.serialize false).length * witnessScaleFactor ≤ maxBlockWeight))
    (.invalid .txConsensus "bad-txns-oversize")
  let _ ← tx.vout.foldlM (checkTransactionOut tx) 0
  require (decide (tx.vin.map (·.prevout)).Nodup) (.invalid .txConsensus "bad-txns-inputs-duplicate")
  if tx.isCoinBase then
    let n := ((tx.vin.head?.map (·.scriptSig)).getD []).length
    require (decide (2 ≤ n ∧ n ≤ 100)) (.invalid .txConsensus "bad-cb-length")
  else
    require (tx.vin.all fun txin => !txin.prevout.isNull) (.invalid .txConsensus "bad-txns-prevout-null")

def isFinalTx (tx : CTransaction) (nBlockHeight nBlockTime : Int) : Bool :=
  decide (tx.nLockTime = 0) ||
    decide ((tx.nLockTime : Int) < if tx.nLockTime < 500000000 then nBlockHeight else nBlockTime) ||
    tx.vin.all fun txin => txin.nSequence == 0xffffffff

/-! ## Sequence locks -/

/-- One round of `CalculateSequenceLocks`; `chain` starts with the block itself. -/
def sequenceLockStep (net : Network) (chain : IndexChain) (locks : Int × Int) (input : CTxIn × Nat) :
    BlockCheck (Int × Int) :=
  let nSequence := input.1.nSequence
  let nCoinHeight : Int := input.2
  if nSequence &&& 0x80000000 ≠ 0 then .ok locks
  else if nSequence &&& 0x00400000 ≠ 0 then
    match getAncestor chain (max (nCoinHeight - 1) 0) with
    | [] => .error (.abort "Assert(block.GetAncestor)")
    | pindex :: pprev =>
      let nCoinTime := getMedianTimePast net (pindex :: pprev)
      .ok (locks.1, max locks.2 (nCoinTime + ((nSequence &&& 0xffff) <<< 9 : Nat) - 1))
  else .ok (max locks.1 (nCoinHeight + (nSequence &&& 0xffff : Nat) - 1), locks.2)

def calculateSequenceLocks (net : Network) (tx : CTransaction) (fVerifySequence : Bool) (prevHeights : List Nat)
    (chain : IndexChain) : BlockCheck (Int × Int) :=
  if (tx.nVersion % 2 ^ 32) ≥ 2 ∧ fVerifySequence then
    (tx.vin.zip prevHeights).foldlM (sequenceLockStep net chain) (-1, -1)
  else .ok (-1, -1)

def sequenceLocks (net : Network) (tx : CTransaction) (fVerifySequence : Bool) (prevHeights : List Nat)
    (chain : IndexChain) : BlockCheck Bool := do
  let locks ← calculateSequenceLocks net tx fVerifySequence prevHeights chain
  .ok (decide (locks.1 < nHeight chain ∧ locks.2 < getMedianTimePast net chain.tail))

/-! ## Signature operations -/

def getLegacySigOpCount (tx : CTransaction) : Nat :=
  (tx.vin.map fun txin => getSigOpCount false txin.scriptSig).sum
    + (tx.vout.map fun txout => getSigOpCount false txout.scriptPubKey).sum

def spentScript (inputs : CoinMap) (txin : CTxIn) : CScript :=
  ((inputs.lookup txin.prevout).map (·.out.scriptPubKey)).getD []

def getP2SHSigOpCount (tx : CTransaction) (inputs : CoinMap) : Nat :=
  if tx.isCoinBase then 0
  else (tx.vin.map fun txin =>
    if isPayToScriptHash (spentScript inputs txin) then getSigOpCountP2SH (spentScript inputs txin) txin.scriptSig
    else 0).sum

def getTransactionSigOpCost (tx : CTransaction) (inputs : CoinMap) (flags : ScriptFlags) : Nat :=
  let nSigOps := getLegacySigOpCount tx * witnessScaleFactor
  if tx.isCoinBase then nSigOps
  else nSigOps + (if flags.p2sh then getP2SHSigOpCount tx inputs * witnessScaleFactor else 0)
    + (tx.vin.map fun txin =>
        countWitnessSigOps txin.scriptSig (spentScript inputs txin) txin.scriptWitness flags).sum

/-! ## Inputs -/

section Inputs

variable (E : Env)

/-- The time of a transaction in `CheckTxInputs`: the local clock for version-2 transactions without one. -/
def inputCheckTime (tx : CTransaction) : Int :=
  if tx.nTime = 0 ∧ tx.nVersion ≥ 2 then E.adjustedTime else tx.nTime

/-- The maturity that `CheckTxInputs` asks for. Before V3_1 the source reads it from a value-initialised
`Consensus::Params`, where it is zero. -/
def inputMaturity (nTimeTx : Int) : Int :=
  if E.net.params.isProtocolV3_1 nTimeTx then E.net.params.nCoinbaseMaturity else 0

/-- One round of the input loop of `CheckTxInputs`. -/
def checkTxInput (inputs : CoinMap) (nSpendHeight : Nat) (nTimeTx : Int) (nValueIn : Int) (txin : CTxIn) :
    TxCheck Int :=
  match getCoin inputs txin.prevout with
  | none => .error (.abort "assert(!coin.IsSpent())")
  | some coin => do
    require (!((coin.fCoinBase || coin.fCoinStake) &&
        decide ((nSpendHeight : Int) - coin.nHeight < inputMaturity E nTimeTx)))
      (.invalid .txPrematureSpend "bad-txns-premature-spend-of-coinbase")
    require (decide ((coin.nTime : Int) ≤ nTimeTx)) (.invalid .txConsensus "bad-txns-time-earlier-than-input")
    require (moneyRange coin.out.nValue && moneyRange (wrap64 (nValueIn + coin.out.nValue)))
      (.invalid .txConsensus "bad-txns-inputvalues-outofrange")
    .ok (wrap64 (nValueIn + coin.out.nValue))

def checkTxInputs (tx : CTransaction) (inputs : CoinMap) (nSpendHeight : Nat) : TxCheck Int := do
  require (haveInputs inputs tx) (.invalid .txMissingInputs "bad-txns-inputs-missingorspent")
  let nTimeTx := inputCheckTime E tx
  let nValueIn ← tx.vin.foldlM (checkTxInput E inputs nSpendHeight nTimeTx) 0
  if tx.isCoinStake then .ok 0
  else do
    let valueOut ← tx.getValueOut
    require (decide (valueOut ≤ nValueIn)) (.invalid .txConsensus "bad-txns-in-belowout")
    let txfee := wrap64 (nValueIn - valueOut)
    require (moneyRange txfee) (.invalid .txConsensus "bad-txns-fee-outofrange")
    require (!(E.net.params.isProtocolV3_1 nTimeTx && decide (txfee < getMinFee E.net tx nTimeTx)))
      (.invalid .txConsensus "bad-txns-fee-not-enough")
    .ok txfee

/-- `CheckInputScripts`, script by script in order. The checker hashes what the transaction serializes. -/
def checkInputScripts (tx : CTransaction) (inputs : CoinMap) (flags : ScriptFlags) : Bool :=
  tx.isCoinBase || tx.vin.zipIdx.all fun (txin, nIn) =>
    match getCoin inputs txin.prevout with
    | none => false
    | some coin =>
      E.verifyScript txin.scriptSig coin.out.scriptPubKey txin.scriptWitness flags tx.reread nIn coin.out.nValue

end Inputs

/-! ## What the checks establish -/

theorem wrap64_add_eq {a b : Int} (ha : moneyRange a = true) (hb : moneyRange b = true)
    (h : moneyRange (wrap64 (a + b)) = true) : wrap64 (a + b) = a + b := by
  rw [moneyRange_iff] at ha hb h
  have hmax : maxMoney = 2 ^ 63 - 1 := rfl
  rcases wrap64_eq_or_neg (x := a + b) (by omega) (by omega) with heq | hneg
  · exact heq
  · omega

theorem moneyRange_zero : moneyRange 0 = true := by decide

section Facts

variable {E : Env} {tx : CTransaction} {m : CoinMap} {nSpendHeight : Nat} {nTimeTx v fee : Int} {txin : CTxIn}

theorem getValueOut_eq_ok (h : tx.getValueOut = .ok v) :
    v = tx.valueOut ∧ moneyRange v = true ∧ ∀ out ∈ tx.vout, moneyRange out.nValue = true := by
  refine foldlM_induction (fun (done : List CTxOut) s => s = (done.map (·.nValue)).sum ∧ moneyRange s = true ∧
    ∀ out ∈ done, moneyRange out.nValue = true) h ⟨rfl, moneyRange_zero, by simp⟩ ?_
  · rintro done s out s' ⟨hs, hrange, hall⟩ hstep
    obtain ⟨hreq, hok⟩ := require_bind_eq_ok.1 hstep
    obtain ⟨hout, hsum⟩ := Bool.and_eq_true_iff.1 hreq
    cases hok
    refine ⟨?_, hsum, ?_⟩
    · rw [wrap64_add_eq hrange hout hsum, List.map_append, List.sum_append, ← hs]; simp
    · intro out' hout'
      rcases List.mem_append.1 hout' with h' | h'
      · exact hall _ h'
      · rwa [List.mem_singleton.1 h']

/-- What `CheckTransaction` establishes. -/
structure CheckedTransaction (tx : CTransaction) : Prop where
  vin_ne : tx.vin ≠ []
  vout_ne : tx.vout ≠ []
  out_range : ∀ out ∈ tx.vout, moneyRange out.nValue = true
  total_range : moneyRange tx.valueOut = true
  nodup : (tx.vin.map (·.prevout)).Nodup
  not_null : tx.isCoinBase = false → ∀ txin ∈ tx.vin, txin.prevout.isNull = false

theorem checkTransaction_eq_ok (h : checkTransaction tx = .ok ()) : CheckedTransaction tx := by
  obtain ⟨hvin, h⟩ := require_bind_eq_ok.1 h
  obtain ⟨hvout, h⟩ := require_bind_eq_ok.1 h
  obtain ⟨-, h⟩ := require_bind_eq_ok.1 h
  obtain ⟨v, hloop, h⟩ := bind_eq_ok.1 h
  obtain ⟨hnodup, h⟩ := require_bind_eq_ok.1 h
  have hI := foldlM_induction (fun (done : List CTxOut) s => s = (done.map (·.nValue)).sum ∧ moneyRange s = true ∧
    ∀ out ∈ done, moneyRange out.nValue = true) hloop ⟨rfl, moneyRange_zero, by simp⟩ ?_
  · obtain ⟨hv, hrange, hall⟩ := hI
    refine ⟨by simpa using hvin, by simpa using hvout, hall, by rw [CTransaction.valueOut, ← hv]; exact hrange,
      of_decide_eq_true hnodup, fun hcb => ?_⟩
    rw [hcb, if_neg (by simp)] at h
    simpa using h
  · rintro done s out s' ⟨hs, hrange, hall⟩ hstep
    obtain ⟨-, hstep⟩ := require_bind_eq_ok.1 hstep
    obtain ⟨hneg, hstep⟩ := require_bind_eq_ok.1 hstep
    obtain ⟨hlarge, hstep⟩ := require_bind_eq_ok.1 hstep
    obtain ⟨hsum, hok⟩ := require_bind_eq_ok.1 hstep
    cases hok
    have hout : moneyRange out.nValue = true := moneyRange_iff.2 ⟨of_decide_eq_true hneg, of_decide_eq_true hlarge⟩
    refine ⟨?_, hsum, ?_⟩
    · rw [wrap64_add_eq hrange hout hsum, List.map_append, List.sum_append, ← hs]; simp
    · intro out' hout'
      rcases List.mem_append.1 hout' with h' | h'
      · exact hall _ h'
      · rwa [List.mem_singleton.1 h']

/-- The value of the coin that an input spends, with a value for a missing coin. -/
def inputValueOr (missing : Int) (m : CoinMap) (txin : CTxIn) : Int :=
  ((m.lookup txin.prevout).map (·.out.nValue)).getD missing

theorem inputValueOr_eq {missing : Int} {m : CoinMap} {coin : Coin}
    (h : m.lookup txin.prevout = some coin) : inputValueOr missing m txin = coin.out.nValue := by
  rw [inputValueOr, h]
  rfl

/-- The value of an input, `-1` for a missing coin as in `AccessCoin`. -/
def inputValue : CoinMap → CTxIn → Int := inputValueOr (-1)

def CoinMap.valueIn (m : CoinMap) (tx : CTransaction) : Int :=
  (tx.vin.map (inputValue m)).sum

/-- What one round of `CheckTxInputs` establishes about the coin it looks at. -/
structure CheckedInput (E : Env) (nSpendHeight : Nat) (nTimeTx : Int) (coin : Coin) : Prop where
  mature : (coin.fCoinBase || coin.fCoinStake) = true → inputMaturity E nTimeTx ≤ (nSpendHeight : Int) - coin.nHeight
  time_le : (coin.nTime : Int) ≤ nTimeTx
  range : moneyRange coin.out.nValue = true

theorem checkTxInput_eq_ok {nValueIn : Int}
    (h : checkTxInput E m nSpendHeight nTimeTx nValueIn txin = .ok v) :
    ∃ coin, m.lookup txin.prevout = some coin ∧ CheckedInput E nSpendHeight nTimeTx coin ∧
      moneyRange v = true ∧ v = wrap64 (nValueIn + coin.out.nValue) := by
  unfold checkTxInput getCoin at h
  split at h
  · cases h
  · next coin hcoin =>
    obtain ⟨hmat, h⟩ := require_bind_eq_ok.1 h
    obtain ⟨htime, h⟩ := require_bind_eq_ok.1 h
    obtain ⟨hrange, h⟩ := require_bind_eq_ok.1 h
    obtain ⟨hout, hsum⟩ := Bool.and_eq_true_iff.1 hrange
    cases h
    refine ⟨coin, hcoin, ⟨fun hcb => ?_, of_decide_eq_true htime, hout⟩, hsum, rfl⟩
    rw [hcb] at hmat
    simpa using hmat

theorem checkTxInput_loop (h : tx.vin.foldlM (checkTxInput E m nSpendHeight nTimeTx) 0 = .ok v) :
    v = m.valueIn tx ∧ moneyRange v = true ∧
      (∀ txin ∈ tx.vin, ∃ coin, m.lookup txin.prevout = some coin ∧ CheckedInput E nSpendHeight nTimeTx coin) ∧
      tx.vin.foldl (fun n txin => wrap64 (n + inputValue m txin)) 0 = v := by
  refine foldlM_induction (fun (done : List CTxIn) s => s = (done.map (inputValue m)).sum ∧ moneyRange s = true ∧
    (∀ txin ∈ done, ∃ coin, m.lookup txin.prevout = some coin ∧ CheckedInput E nSpendHeight nTimeTx coin) ∧
    done.foldl (fun n txin => wrap64 (n + inputValue m txin)) 0 = s) h ⟨rfl, moneyRange_zero, by simp, rfl⟩ ?_
  · rintro done s txin s' ⟨hs, hrange, hall, hfold⟩ hstep
    obtain ⟨coin, hcoin, hchecked, hsum, rfl⟩ := checkTxInput_eq_ok hstep
    have hval : inputValue m txin = coin.out.nValue := inputValueOr_eq hcoin
    refine ⟨?_, hsum, ?_, ?_⟩
    · rw [wrap64_add_eq hrange hchecked.range hsum, List.map_append, List.sum_append, ← hs]; simp [hval]
    · intro txin' htxin'
      rcases List.mem_append.1 htxin' with h' | h'
      · exact hall _ h'
      · rw [List.mem_singleton.1 h']; exact ⟨coin, hcoin, hchecked⟩
    · rw [List.foldl_append, hfold]; simp [hval]

/-- What `CheckTxInputs` establishes; `fee` is what it reports. -/
structure CheckedInputs (E : Env) (tx : CTransaction) (m : CoinMap) (nSpendHeight : Nat) (fee : Int) : Prop where
  inputs : ∀ txin ∈ tx.vin, ∃ coin, m.lookup txin.prevout = some coin ∧
    CheckedInput E nSpendHeight (inputCheckTime E tx) coin
  range : moneyRange (m.valueIn tx) = true
  coinStake_fee : tx.isCoinStake = true → fee = 0
  covered : tx.isCoinStake = false → tx.valueOut ≤ m.valueIn tx ∧ fee = m.valueIn tx - tx.valueOut ∧
    tx.getValueOut = .ok tx.valueOut

theorem checkTxInputs_eq_ok (h : checkTxInputs E tx m nSpendHeight = .ok fee) :
    CheckedInputs E tx m nSpendHeight fee := by
  obtain ⟨-, h⟩ := require_bind_eq_ok.1 h
  obtain ⟨v, hloop, h⟩ := bind_eq_ok.1 h
  obtain ⟨rfl, hrange, hall, -⟩ := checkTxInput_loop hloop
  cases hcs : tx.isCoinStake with
  | true =>
    rw [hcs, if_pos rfl] at h
    cases h
    exact ⟨hall, hrange, fun _ => rfl, fun hne => absurd (hcs.symm.trans hne) (by simp)⟩
  | false =>
    rw [hcs, if_neg (by simp)] at h
    obtain ⟨vo, hvo, h⟩ := bind_eq_ok.1 h
    obtain ⟨hle, h⟩ := require_bind_eq_ok.1 h
    obtain ⟨-, h⟩ := require_bind_eq_ok.1 h
    obtain ⟨-, h⟩ := require_bind_eq_ok.1 h
    cases h
    obtain ⟨rfl, hvorange, -⟩ := getValueOut_eq_ok hvo
    have hle := of_decide_eq_true hle
    refine ⟨hall, hrange, fun hne => absurd (hcs.symm.trans hne) (by simp), fun _ => ⟨hle, ?_, hvo⟩⟩
    rw [moneyRange_iff] at hrange hvorange
    have hmax : maxMoney = 2 ^ 63 - 1 := rfl
    exact wrap64_eq (by omega) (by omega)

theorem getValueIn_eq (hcb : tx.isCoinBase = false) (h : checkTxInputs E tx m nSpendHeight = .ok fee) :
    m.getValueIn tx = m.valueIn tx := by
  obtain ⟨-, h⟩ := require_bind_eq_ok.1 h
  obtain ⟨v, hloop, -⟩ := bind_eq_ok.1 h
  obtain ⟨rfl, -, -, hfold⟩ := checkTxInput_loop hloop
  rw [getValueIn, hcb]
  exact hfold

end Facts

end CodexaCoin
