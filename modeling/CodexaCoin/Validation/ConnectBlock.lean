import CodexaCoin.Validation.CheckBlock

/-!
# Connecting a block

`Chainstate::ConnectBlock` of `validation.cpp`.
-/

namespace CodexaCoin

open Check Consensus CoinMap IndexChain

/-- The variables of the loop of `ConnectBlock`. -/
structure ConnectState where
  coins : CoinMap
  nFees : Int := 0
  nActualStakeReward : Int := 0
  nSigOpsCost : Nat := 0
  /-- One entry for every transaction so far; the first one belongs to the coinbase and is dropped at the end. -/
  undos : CBlockUndo := []

/-- What `ConnectBlock` leaves behind. -/
structure ConnectResult where
  view : CCoinsView
  blockundo : CBlockUndo
  /-- The stake modifier of the connected index. -/
  nStakeModifier : Uint256

section ConnectTx

variable (E : Env) (chain : IndexChain) (flags : ScriptFlags)

/-- The first block of a round, for a transaction that is not a coinbase: the inputs, the fee and the sequence locks.
`chain` starts with the block being connected. The result is the new `nFees`. -/
def connectInputs (s : ConnectState) (tx : CTransaction) : BlockCheck Int :=
  if tx.isCoinBase then .ok s.nFees
  else do
    let txfee ← (checkTxInputs E tx s.coins (chain.length - 1)).toBlock
    let nFees := wrap64 (s.nFees + txfee)
    require (moneyRange nFees) (.invalid .blockConsensus "bad-txns-accumulated-fee-outofrange")
    let prevheights := tx.vin.map fun txin => ((s.coins.lookup txin.prevout).map (·.nHeight)).getD 0
    let final ← sequenceLocks E.net tx (deploymentActiveAtCSV E.net (nHeight chain)) prevheights chain
    require final (.invalid .blockConsensus "bad-txns-nonfinal")
    .ok nFees

/-- The second block of a round: a coinstake sets `nActualStakeReward`, any other transaction adds its fee to `nFees`
again. The result is the two variables. -/
def connectValues (s : ConnectState) (nFees : Int) (tx : CTransaction) : BlockCheck (Int × Int) :=
  if tx.isCoinBase then .ok (nFees, s.nActualStakeReward)
  else do
    let valueOut ← tx.getValueOut.toBlock
    let valueIn := getValueIn s.coins tx
    require (!E.fScriptChecks || checkInputScripts E tx s.coins flags)
      (.invalid .blockConsensus "mandatory-script-verify-flag-failed")
    .ok (if tx.isCoinStake then (nFees, wrap64 (valueOut - valueIn))
      else (wrap64 (nFees + wrap64 (valueIn - valueOut)), s.nActualStakeReward))

/-- One round of the loop over the transactions, with the two places that add to `nFees`. -/
def connectTx (s : ConnectState) (tx : CTransaction) : BlockCheck ConnectState := do
  let nFees ← connectInputs E chain s tx
  let nSigOpsCost := s.nSigOpsCost + getTransactionSigOpCost tx s.coins flags
  require (decide (nSigOpsCost ≤ maxBlockSigopsCost)) (.invalid .blockConsensus "bad-blk-sigops")
  let values ← connectValues E flags s nFees tx
  let r ← updateCoins s.coins E.crypto tx (chain.length - 1)
  .ok { coins := r.2, nFees := values.1, nActualStakeReward := values.2, nSigOpsCost := nSigOpsCost,
        undos := s.undos ++ [r.1] }

end ConnectTx

section ConnectBlock

variable (E : Env) (block : CBlock) (pindex : CBlockIndex) (pprev : IndexChain) (view : CCoinsView)

/-- The proof-of-stake check of `ConnectBlock`; the result is `nMaxStakeReward`. -/
def connectStake : BlockCheck Int :=
  if block.isProofOfStake && E.net.params.isProtocolV3 block.nTime then
    match block.vtx with
    | _ :: tx1 :: _ => do
      let nCoinstakeTime := txTimeIn block tx1
      checkProofOfStake E pprev tx1 block.nBits view.coins nCoinstakeTime
      .ok (getCoinstakeMaxReward E.net pprev tx1 view.coins nCoinstakeTime)
    | _ => .ok 0
  else .ok 0

def noOverwrite : Bool :=
  block.vtx.all fun tx =>
    (List.range tx.vout.length).all fun o => !haveCoin view.coins ⟨tx.getHash E.crypto, o⟩

def checkRewards (nMaxStakeReward : Int) (s : ConnectState) : BlockCheck Unit := do
  when (!block.isProofOfStake) do
    let valueOut ← (block.vtx.headD ⟨[], [], 2, 0, 0⟩).getValueOut.toBlock
    require (decide (valueOut ≤ wrap64 (s.nFees + getBlockSubsidy E.net pprev.length)))
      (.invalid .blockConsensus "bad-cb-amount")
  when (block.isProofOfStake && E.net.params.isProtocolV3 block.nTime) do
    require (decide (s.nActualStakeReward ≤ wrap64 (s.nFees + nMaxStakeReward)))
      (.invalid .blockConsensus "bad-cs-amount")

def modifierKernel : Uint256 :=
  match block.isProofOfStake, block.vtx with
  | true, _ :: { vin := txin :: _, .. } :: _ => txin.prevout.hash
  | _, _ => block.getHash E.crypto

/-- `ConnectBlock` after the genesis case. -/
def connectBody (nMaxStakeReward : Int) (fJustCheck : Bool) : BlockCheck ConnectResult := do
  require (noOverwrite E block view) (.invalid .blockConsensus "bad-txns-BIP30")
  let flags := getBlockScriptFlags E.net pindex pprev
  let s ← block.vtx.foldlM (connectTx E (pindex :: pprev) flags) { coins := view.coins }
  checkRewards E block pprev nMaxStakeReward s
  .ok { view := { coins := s.coins, hashBlock := if fJustCheck then view.hashBlock else pindex.hash }
        blockundo := s.undos.tail
        nStakeModifier := computeStakeModifier E.crypto pprev (modifierKernel E block) }

/-- A block that is found corrupt this late is a fatal error and not an invalid block. -/
def corruptIsFatal : BlockCheck Unit → BlockCheck Unit
  | .error (.invalid .blockMutated _) =>
    .error (.error "Corrupt block found indicating potential hardware failure; shutting down")
  | x => x

/-- `ConnectBlock`. `pindex` is the index of the block and `pprev` that of its parent, the tip of the active chain. -/
def connectBlock (fJustCheck : Bool) : BlockCheck ConnectResult := do
  require (pindex.hash == block.getHash E.crypto) (.abort "assert(*pindex->phashBlock == block_hash)")
  require (!E.checkpointsEnabled || E.checkHardened pprev.length (block.getHash E.crypto))
    (.invalid .blockCheckpoint "bad-fork-hardened-checkpoint")
  corruptIsFatal (checkBlock E block (nHeight pprev) (!fJustCheck) (!fJustCheck) true)
  require ((pprev.head?.map (·.hash)).getD 0 == view.hashBlock) (.abort "assert(hashPrevBlock == view.GetBestBlock())")
  let nMaxStakeReward ← connectStake E block pprev view
  if block.getHash E.crypto = E.net.hashGenesisBlock E.crypto then
    .ok { view := { view with hashBlock := if fJustCheck then view.hashBlock else pindex.hash }
          blockundo := []
          nStakeModifier := pindex.nStakeModifier }
  else connectBody E block pindex pprev view nMaxStakeReward fJustCheck

end ConnectBlock

/-! ## What a block that connects has passed -/

section Facts

variable {E : Env} {chain : IndexChain} {flags : ScriptFlags} {s s' : ConnectState} {tx : CTransaction} {undo : CTxUndo}

/-- What a round of the loop establishes for a transaction that is not a coinbase. -/
structure ConnectStep (E : Env) (chain : IndexChain) (flags : ScriptFlags) (s : ConnectState) (tx : CTransaction)
    (s' : ConnectState) (fee : Int) : Prop where
  inputs : CheckedInputs E tx s.coins (chain.length - 1) fee
  fees_range : moneyRange (wrap64 (s.nFees + fee)) = true
  getValueOut : tx.getValueOut = .ok tx.valueOut
  scripts : E.fScriptChecks = true → checkInputScripts E tx s.coins flags = true
  coinStake : tx.isCoinStake = true →
    s'.nFees = wrap64 (s.nFees + fee) ∧ s'.nActualStakeReward = tx.valueOut - s.coins.valueIn tx
  ordinary : tx.isCoinStake = false →
    s'.nFees = wrap64 (wrap64 (s.nFees + fee) + fee) ∧ s'.nActualStakeReward = s.nActualStakeReward

theorem connectValues_eq_ok {nFees fee : Int} {r : Int × Int} (hcb : tx.isCoinBase = false)
    (hin : checkTxInputs E tx s.coins (chain.length - 1) = .ok fee)
    (h : connectValues E flags s nFees tx = .ok r) :
    tx.getValueOut = .ok tx.valueOut ∧ (E.fScriptChecks = true → checkInputScripts E tx s.coins flags = true) ∧
      (tx.isCoinStake = true → r = (nFees, tx.valueOut - s.coins.valueIn tx)) ∧
      (tx.isCoinStake = false → r = (wrap64 (nFees + fee), s.nActualStakeReward)) := by
  rw [connectValues, hcb, if_neg (by simp)] at h
  obtain ⟨vo, hvo, h⟩ := bind_eq_ok.1 h
  obtain ⟨hscripts, h⟩ := require_bind_eq_ok.1 h
  have hvo := TxCheck.toBlock_eq_ok.1 hvo
  obtain ⟨rfl, hrange, -⟩ := getValueOut_eq_ok hvo
  have hchecked := checkTxInputs_eq_ok hin
  have hinrange := moneyRange_iff.1 hchecked.range
  have hrange := moneyRange_iff.1 hrange
  have hmax : maxMoney = 2 ^ 63 - 1 := rfl
  rw [getValueIn_eq hcb hin] at h
  cases h
  refine ⟨hvo, fun hf => by simpa [hf] using hscripts, fun hcs => ?_, fun hcs => ?_⟩
  · rw [if_pos hcs, wrap64_eq (by omega) (by omega)]
  · obtain ⟨hle, rfl, -⟩ := hchecked.covered hcs
    rw [hcs, if_neg (by simp), wrap64_eq (x := s.coins.valueIn tx - tx.valueOut) (by omega) (by omega)]

/-- **One round of the loop.** -/
theorem connectTx_eq_ok (h : connectTx E chain flags s tx = .ok s') :
    (∃ undo, updateCoins s.coins E.crypto tx (chain.length - 1) = .ok (undo, s'.coins) ∧ s'.undos = s.undos ++ [undo]) ∧
      (tx.isCoinBase = true → s'.nFees = s.nFees ∧ s'.nActualStakeReward = s.nActualStakeReward) ∧
      (tx.isCoinBase = false → ∃ fee, checkTxInputs E tx s.coins (chain.length - 1) = .ok fee ∧
        ConnectStep E chain flags s tx s' fee) := by
  obtain ⟨nFees, hfees, h⟩ := bind_eq_ok.1 h
  obtain ⟨-, h⟩ := require_bind_eq_ok.1 h
  obtain ⟨values, hvalues, h⟩ := bind_eq_ok.1 h
  obtain ⟨⟨undo, m⟩, hupdate, h⟩ := bind_eq_ok.1 h
  cases h
  refine ⟨⟨undo, hupdate, rfl⟩, fun hcb => ?_, fun hcb => ?_⟩
  · rw [connectInputs, if_pos hcb] at hfees
    rw [connectValues, if_pos hcb] at hvalues
    cases hfees
    cases hvalues
    exact ⟨rfl, rfl⟩
  · rw [connectInputs, hcb, if_neg (by simp)] at hfees
    obtain ⟨fee, hin, hfees⟩ := bind_eq_ok.1 hfees
    obtain ⟨hrange, hfees⟩ := require_bind_eq_ok.1 hfees
    obtain ⟨final, -, hfees⟩ := bind_eq_ok.1 hfees
    obtain ⟨-, hfees⟩ := require_bind_eq_ok.1 hfees
    cases hfees
    have hin := TxCheck.toBlock_eq_ok.1 hin
    obtain ⟨hvo, hscripts, hstake, hordinary⟩ := connectValues_eq_ok hcb hin hvalues
    refine ⟨fee, hin, checkTxInputs_eq_ok hin, hrange, hvo, hscripts, fun hcs => ?_, fun hcs => ?_⟩
    · rw [hstake hcs]; exact ⟨rfl, rfl⟩
    · rw [hordinary hcs]; exact ⟨rfl, rfl⟩

theorem connectTx_entry (hnew : tx.isCoinBase = true →
    ∀ j < tx.vout.length, (⟨tx.getHash E.crypto, j⟩ : COutPoint) ∉ s.coins)
    (h : connectTx E chain flags s tx = .ok s') :
    ∃ undo, s'.coins = (tx.entry E.crypto (chain.length - 1)).apply s.coins ∧
      Ledger.Valid s.coins (tx.entry E.crypto (chain.length - 1)) undo ∧ ∀ out ∈ tx.vout, out.nValue ≠ -1 := by
  obtain ⟨⟨undo, hupdate, -⟩, -⟩ := connectTx_eq_ok h
  exact ⟨undo, updateCoins_eq_ok hupdate hnew⟩

variable {block : CBlock} {pindex : CBlockIndex} {pprev : IndexChain} {view : CCoinsView} {fJustCheck : Bool}
  {r : ConnectResult}

/-- What `ConnectBlock` has passed when it connects a block other than the genesis block. -/
structure Connected (E : Env) (block : CBlock) (pindex : CBlockIndex) (pprev : IndexChain) (view : CCoinsView)
    (r : ConnectResult) (nMaxStakeReward : Int) (s : ConnectState) : Prop where
  hash : pindex.hash = block.getHash E.crypto
  checked : CheckedBlock E block
  best : (pprev.head?.map (·.hash)).getD 0 = view.hashBlock
  stake : connectStake E block pprev view = .ok nMaxStakeReward
  fresh : ∀ tx ∈ block.vtx, ∀ o < tx.vout.length, (⟨tx.getHash E.crypto, o⟩ : COutPoint) ∉ view.coins
  loop : block.vtx.foldlM (connectTx E (pindex :: pprev) (getBlockScriptFlags E.net pindex pprev))
    { coins := view.coins } = .ok s
  rewards : checkRewards E block pprev nMaxStakeReward s = .ok ()
  coins : r.view.coins = s.coins
  blockundo : r.blockundo = s.undos.tail
  modifier : r.nStakeModifier = computeStakeModifier E.crypto pprev (modifierKernel E block)

theorem noOverwrite_iff : noOverwrite E block view = true ↔
    ∀ tx ∈ block.vtx, ∀ o < tx.vout.length, (⟨tx.getHash E.crypto, o⟩ : COutPoint) ∉ view.coins := by
  simp [noOverwrite, haveCoin, Finmap.lookup_eq_none]

theorem corruptIsFatal_eq_ok {x : BlockCheck Unit} (h : corruptIsFatal x = .ok ()) : x = .ok () := by
  unfold corruptIsFatal at h
  split at h
  · cases h
  · exact h

theorem connectBlock_hash (h : connectBlock E block pindex pprev view fJustCheck = .ok r) :
    pindex.hash = block.getHash E.crypto := by
  obtain ⟨hhash, -⟩ := require_bind_eq_ok.1 h
  exact eq_of_beq hhash

/-- **A block that connects.** -/
theorem connectBlock_eq_ok (hg : block.getHash E.crypto ≠ E.net.hashGenesisBlock E.crypto)
    (h : connectBlock E block pindex pprev view fJustCheck = .ok r) :
    ∃ nMaxStakeReward s, Connected E block pindex pprev view r nMaxStakeReward s := by
  obtain ⟨hhash, h⟩ := require_bind_eq_ok.1 h
  obtain ⟨-, h⟩ := require_bind_eq_ok.1 h
  obtain ⟨⟨⟩, hcheck, h⟩ := bind_eq_ok.1 h
  obtain ⟨hbest, h⟩ := require_bind_eq_ok.1 h
  obtain ⟨nMax, hstake, h⟩ := bind_eq_ok.1 h
  rw [if_neg hg] at h
  obtain ⟨hfresh, h⟩ := require_bind_eq_ok.1 h
  obtain ⟨s, hloop, h⟩ := bind_eq_ok.1 h
  obtain ⟨⟨⟩, hrewards, h⟩ := bind_eq_ok.1 h
  cases h
  exact ⟨nMax, s, eq_of_beq hhash, checkBlock_eq_ok E (corruptIsFatal_eq_ok hcheck), eq_of_beq hbest, hstake,
    noOverwrite_iff.1 hfresh, hloop, hrewards, rfl, rfl, rfl⟩

/-- **The coins of a block, transaction by transaction**: each one enters the view as a valid entry. -/
theorem Connected.coins_induction {nMaxStakeReward : Int} {P : List CTransaction → CoinMap → Prop}
    (h : Connected E block pindex pprev view r nMaxStakeReward s) (hnil : P [] view.coins)
    (hstep : ∀ done tx m undo, tx ∈ block.vtx → Ledger.Valid m (tx.entry E.crypto pprev.length) undo → P done m →
      P (done ++ [tx]) ((tx.entry E.crypto pprev.length).apply m)) : P block.vtx r.view.coins := by
  obtain ⟨tx0, rest, hvtx, hcb, hrest⟩ := h.checked.head
  have hloop := h.loop
  rw [hvtx] at hloop hstep
  obtain ⟨s1, h1, h2⟩ := foldlM_cons_eq_ok.1 hloop
  obtain ⟨undo, hcoins, hvalid, -⟩ := connectTx_entry (fun _ => h.fresh tx0 (by simp [hvtx])) h1
  have hfirst : P [tx0] s1.coins := hcoins ▸ hstep [] tx0 _ _ List.mem_cons_self hvalid hnil
  -- the later transactions, which are no coinbases, after those that are done
  have hlater : ∀ (txs done : List CTransaction) (s1 : ConnectState), (∀ tx ∈ txs, tx ∈ rest) → P done s1.coins →
      txs.foldlM (connectTx E (pindex :: pprev) (getBlockScriptFlags E.net pindex pprev)) s1 = .ok s →
      P (done ++ txs) s.coins := by
    intro txs
    induction txs with
    | nil => intro done s1 _ hdone h2; cases h2; simpa using hdone
    | cons tx txs ih =>
      intro done s1 hmem hdone h2
      obtain ⟨s2, h1, h2⟩ := foldlM_cons_eq_ok.1 h2
      have htx := hmem tx List.mem_cons_self
      obtain ⟨undo, hcoins, hvalid, -⟩ := connectTx_entry (by simp [hrest tx htx]) h1
      have hnext := hstep done tx _ _ (List.mem_cons_of_mem _ htx) hvalid hdone
      have hall := ih (done ++ [tx]) s2 (fun tx' h' => hmem tx' (List.mem_cons_of_mem _ h')) (hcoins ▸ hnext) h2
      simpa using hall
  rw [hvtx, h.coins]
  exact hlater rest [tx0] s1 (fun _ h => h) hfirst h2

end Facts

/-! ## A sample block

The first block after a genesis index, with a coinbase and one payment that spends the only coin of the view. -/

/-- A coinbase with its height, as the checks ask for, and one byte more. -/
def sampleCoinbase (nHeight : Nat) (extra : UInt8) (out : CTxOut) : CTransaction where
  vin := [{ prevout := .null, scriptSig := pushInt64 nHeight ++ [extra] }]
  vout := [out]
  nVersion := 2

def paymentCoinbase (nValue : Int) : CTransaction := sampleCoinbase 1 0 ⟨nValue, [0x51]⟩

def paymentTx : CTransaction where
  vin := [{ prevout := ⟨1, 0⟩ }]
  vout := [⟨50000000, [0x51]⟩]

def paymentBlock (nValue : Int) (tx : CTransaction) : CBlock where
  hashPrevBlock := 7
  hashMerkleRoot := (computeMerkleRoot .sample [(paymentCoinbase nValue).getHash .sample, tx.getHash .sample]).1
  nTime := 1785326464
  nBits := 0x1e0fffff
  vtx := [paymentCoinbase nValue, tx]

def paymentIndex (nValue : Int) (tx : CTransaction) : CBlockIndex :=
  .ofHeader .sample (paymentBlock nValue tx).getBlockHeader false

def paymentChain : IndexChain := [{ hash := 7, nTime := 1785326400, nBits := 0x1e0fffff }]

theorem paymentValue_ne : (100000000 : Int) ≠ -1 := by decide

/-- A coin of 1 CAC that was created at `nHeight`. -/
def paymentView (scriptPubKey : CScript) (nHeight : Nat) : CCoinsView where
  coins := Finmap.singleton ⟨1, 0⟩ ⟨⟨100000000, scriptPubKey⟩, false, false, nHeight, 0, paymentValue_ne⟩
  hashBlock := 7

/-- The block is connected on the main network, with checkpoints off. -/
def connectPayment (nValue : Int) (tx : CTransaction) (view : CCoinsView) : BlockCheck ConnectResult :=
  connectBlock (.sample .main 1785326464) (paymentBlock nValue tx) (paymentIndex nValue tx) paymentChain view false

end CodexaCoin
