import CodexaCoin.Validation.Inflation

/-!
# Agreement between nodes

A transaction of version 2 keeps its `nTime` in memory and loses it when it is serialized, and `CheckTxInputs` puts the
local clock in the place of a missing one. Yet `nTime` is stored with the coins, where the kernel and `CheckTxInputs`
read it. The network node that rereads every block and whose clock shows the time of the block is the reference: a node
whose blocks have timely transactions gives the same verdicts.
-/

namespace CodexaCoin

open Check Consensus CoinMap IndexChain

/-! ## What does not see the time of a transaction -/

namespace CBlock

variable (C : Crypto) (block : CBlock)

@[simp] theorem serialize_block_reread (w : Bool) : block.reread.serialize w = block.serialize w := by
  simp [serialize, Function.comp_def]
  rfl

@[simp] theorem getWitnessCommitmentIndex_reread : getWitnessCommitmentIndex block.reread =
    getWitnessCommitmentIndex block := by
  unfold getWitnessCommitmentIndex
  rw [reread_vtx]
  cases block.vtx <;> rfl

@[simp] theorem blockMerkleRoot_reread : blockMerkleRoot C block.reread = blockMerkleRoot C block := by
  simp [blockMerkleRoot, Function.comp_def]

@[simp] theorem checkStakeBlock_reread : checkStakeBlock block.reread = checkStakeBlock block := by
  unfold checkStakeBlock
  rw [reread_vtx]
  rcases hvtx : block.vtx with _ | ⟨tx0, _ | ⟨tx1, rest⟩⟩
  · rfl
  · rfl
  · simp [Function.comp_def]

@[simp] theorem checkBlockSignature_reread : checkBlockSignature C block.reread = checkBlockSignature C block := by
  unfold checkBlockSignature
  rw [reread_vtx, isProofOfStake_reread]
  rcases hvtx : block.vtx with _ | ⟨tx0, _ | ⟨tx1, rest⟩⟩ <;> rfl

end CBlock

@[simp] theorem checkTransaction_reread (tx : CTransaction) : checkTransaction tx.reread = checkTransaction tx := by
  have hout : checkTransactionOut tx.reread = checkTransactionOut tx := rfl
  unfold checkTransaction
  rw [hout, CTransaction.serialize_reread]
  rfl

theorem modifierKernel_reread (E : Env) (block : CBlock) : modifierKernel E block.reread = modifierKernel E block := by
  unfold modifierKernel
  rw [CBlock.isProofOfStake_reread, CBlock.reread_vtx]
  rcases hvtx : block.vtx with _ | ⟨tx0, _ | ⟨⟨_ | ⟨txin, vin⟩, vout, nVersion, nTime, nLockTime⟩, rest⟩⟩ <;>
    cases block.isProofOfStake <;> rfl

/-! ## Timely blocks -/

def tipTime (chain : IndexChain) : Nat := (chain.head?.map (·.nTime)).getD 0

/-- The time of the block that made the coin of an input; coins that are not there yet can only come from the block
itself. -/
def spentTime (block : CBlock) (chain : IndexChain) (m : CoinMap) (txin : CTxIn) : Int :=
  match m.lookup txin.prevout with
  | some coin => originTime chain coin
  | none => block.nTime

/-- A transaction in a block on top of `chain`: in version 2 it has the time of the block or none; in version 1 it is
not later than the block and not earlier than the blocks whose coins it spends. -/
def TimelyTx (block : CBlock) (chain : IndexChain) (m : CoinMap) (tx : CTransaction) : Prop :=
  if tx.nVersion < 2 then
    tx.nTime ≤ block.nTime ∧ (tx.isCoinBase = false → ∀ txin ∈ tx.vin, spentTime block chain m txin ≤ tx.nTime)
  else tx.nTime = 0 ∨ tx.nTime = block.nTime

/-- A block whose time the clock of the node has reached, with timely transactions. `ContextualCheckBlockHeader` has
compared its time with that of its parent. The solution of a signet block is checked against the local clock. -/
structure Timely (E : Env) (block : CBlock) (chain : IndexChain) (m : CoinMap) : Prop where
  clock : block.nTime ≤ E.adjustedTime
  clock_lt : E.adjustedTime < 2 ^ 32
  parent : tipTime chain < block.nTime
  noSignet : E.net.params.signetBlocks = false
  txs : ∀ tx ∈ block.vtx, TimelyTx block chain m tx

/-- The rules of a node with another clock; where there are no signet blocks, nothing else depends on the clock. -/
def Env.atTime (E : Env) (t : Nat) : Env :=
  { E with adjustedTime := t, nodeTime := t, checkSignetBlockSolution := fun _ => true }

section CheckBlock

variable {E : Env} {block : CBlock} {chain : IndexChain} {m : CoinMap} {tx : CTransaction}

theorem futureDrift_ge (net : Network) (chainHeight t : Int) : t ≤ futureDrift net chainHeight t := by
  unfold futureDrift
  split
  · omega
  · split <;> omega

theorem TimelyTx.txTimeIn_reread (h : TimelyTx block chain m tx) :
    txTimeIn block.reread tx.reread = txTimeIn block tx := by
  unfold TimelyTx at h
  unfold txTimeIn CTransaction.reread
  split at h
  · next hv =>
    simp only [hv, if_true]
    rfl
  · next hv =>
    simp only [hv, if_false, ne_eq, not_true_eq_false]
    show block.nTime = _
    rcases h with h | h
    · rw [if_neg (by omega)]
    · split
      · exact h.symm
      · rfl

@[simp] theorem Env.atTime_net (E : Env) (t : Nat) : (E.atTime t).net = E.net := rfl

@[simp] theorem Env.atTime_crypto (E : Env) (t : Nat) : (E.atTime t).crypto = E.crypto := rfl

theorem checkBlockHeader_reread (h : Timely E block chain m) (chainHeight : Int) (fCheckPOW : Bool) :
    checkBlockHeader E block.getBlockHeader chainHeight fCheckPOW =
      checkBlockHeader (E.atTime block.nTime) block.reread.getBlockHeader chainHeight fCheckPOW := by
  have hclock := h.clock
  have h1 := futureDrift_ge E.net chainHeight E.adjustedTime
  have h2 := futureDrift_ge E.net chainHeight block.nTime
  have hleft : decide ((block.nTime : Int) ≤ futureDrift E.net chainHeight E.adjustedTime) = true :=
    decide_eq_true (by omega)
  have hright : decide ((block.nTime : Int) ≤ futureDrift E.net chainHeight block.nTime) = true :=
    decide_eq_true (by omega)
  have hsame : decide ((block.reread.nTime : Int) ≤ futureDrift (E.atTime block.nTime).net chainHeight
      (E.atTime block.nTime).adjustedTime) =
        decide ((block.nTime : Int) ≤ futureDrift E.net chainHeight E.adjustedTime) :=
    hright.trans hleft.symm
  unfold checkBlockHeader
  rw [hsame]
  rfl

theorem checkTimes_reread (h : Timely E block chain m) (chainHeight : Int) :
    (block.reread.vtx.head?.all fun tx0 =>
        decide ((block.reread.nTime : Int) ≤ futureDrift E.net chainHeight (txTimeIn block.reread tx0))) =
      (block.vtx.head?.all fun tx0 => decide ((block.nTime : Int) ≤ futureDrift E.net chainHeight (txTimeIn block tx0))) ∧
    (block.reread.vtx[1]?.all fun tx1 =>
        checkCoinStakeTimestamp E.net block.reread.nTime (txTimeIn block.reread tx1)) =
      (block.vtx[1]?.all fun tx1 => checkCoinStakeTimestamp E.net block.nTime (txTimeIn block tx1)) := by
  have htimes := fun tx htx => (h.txs tx htx).txTimeIn_reread
  have hnTime : block.reread.nTime = block.nTime := rfl
  rw [CBlock.reread_vtx, hnTime]
  rcases hvtx : block.vtx with _ | ⟨tx0, _ | ⟨tx1, rest⟩⟩
  · exact ⟨rfl, rfl⟩
  · simp [htimes tx0 (by simp [hvtx])]
  · simp [htimes tx0 (by simp [hvtx]), htimes tx1 (by simp [hvtx])]

/-- **`CheckBlock` agrees with the reference.** -/
theorem checkBlock_reread (h : Timely E block chain m) (chainHeight : Int) (fCheckPOW fCheckMerkleRoot fCheckSig : Bool) :
    checkBlock E block chainHeight fCheckPOW fCheckMerkleRoot fCheckSig =
      checkBlock (E.atTime block.nTime) block.reread chainHeight fCheckPOW fCheckMerkleRoot fCheckSig := by
  obtain ⟨hcb, hcs⟩ := checkTimes_reread h chainHeight
  have hmerkle : checkMerkleRoot (E.atTime block.nTime) block.reread = checkMerkleRoot E block := by
    unfold checkMerkleRoot
    rw [Env.atTime_crypto, CBlock.blockMerkleRoot_reread]
    rfl
  have hhead : ((block.reread.vtx.head?.map (·.isCoinBase)).getD false) =
      ((block.vtx.head?.map (·.isCoinBase)).getD false) := by
    rw [CBlock.reread_vtx]
    cases block.vtx <;> rfl
  have htail : (block.reread.vtx.tail.all fun tx => !tx.isCoinBase) = block.vtx.tail.all fun tx => !tx.isCoinBase := by
    rw [CBlock.reread_vtx]
    cases block.vtx <;> simp [Function.comp_def]
  have htxs : (block.reread.vtx.forM fun tx => (checkTransaction tx).toBlock) =
      block.vtx.forM fun tx => (checkTransaction tx).toBlock := by
    rw [CBlock.reread_vtx]
    simp [List.forM_eq_forM]
  have hsigops : (block.reread.vtx.map getLegacySigOpCount).sum = (block.vtx.map getLegacySigOpCount).sum := by
    rw [CBlock.reread_vtx, List.map_map]
    rfl
  have hlen : block.reread.vtx.length = block.vtx.length := by simp
  unfold checkBlock
  rw [checkBlockHeader_reread h, hmerkle, hhead, htail, Env.atTime_net, hcb, hcs, htxs, hsigops, hlen,
    CBlock.isProofOfStake_reread, CBlock.checkStakeBlock_reread, CBlock.serialize_block_reread, Env.atTime_crypto,
    CBlock.checkBlockSignature_reread, h.noSignet, Bool.false_and, Bool.false_and, Bool.false_and]

end CheckBlock

/-! ## Coins of a node and of the reference -/

/-- A coin and the coin of the reference in its place: they differ in the time at most, and then the one is the time of
the coin's block and the other is missing. -/
structure Faithful (chain : IndexChain) (c c0 : Coin) : Prop where
  out : c0.out = c.out
  coinBase : c0.fCoinBase = c.fCoinBase
  coinStake : c0.fCoinStake = c.fCoinStake
  nHeight : c0.nHeight = c.nHeight
  height : c.nHeight < chain.length
  time_le : (c.nTime : Int) ≤ originTime chain c
  time : c0.nTime = c.nTime ∨ (c0.nTime = 0 ∧ (c.nTime : Int) = originTime chain c)

def FaithfulMap (chain : IndexChain) (m m0 : CoinMap) : Prop :=
  ∀ o, Option.Rel (Faithful chain) (m.lookup o) (m0.lookup o)

section Coins

variable {E : Env} {chain : IndexChain} {pindex : CBlockIndex} {m m0 : CoinMap} {c c0 : Coin} {o : COutPoint}
  {tx : CTransaction} {block : CBlock}

theorem originTime_congr_height (h : c0.nHeight = c.nHeight) : originTime chain c0 = originTime chain c := by
  rw [originTime, originTime, h]

theorem Faithful.reference_le (h : Faithful chain c c0) : c0.nTime ≤ c.nTime := by
  rcases h.time with ht | ⟨ht, -⟩ <;> omega

theorem Faithful.cons (h : Faithful chain c c0) : Faithful (pindex :: chain) c c0 := by
  have horigin : originTime (pindex :: chain) c = originTime chain c := originTime_cons h.height
  refine ⟨h.out, h.coinBase, h.coinStake, h.nHeight, ?_, ?_, ?_⟩
  · have := h.height
    simp only [List.length_cons]
    omega
  · rw [horigin]
    exact h.time_le
  · rw [horigin]
    exact h.time

theorem Faithful.coinKernelTime_eq (h : Faithful chain c c0) {blockFrom : CBlockIndex}
    (hfrom : originTime chain c = blockFrom.nTime) : coinKernelTime c0 blockFrom = coinKernelTime c blockFrom := by
  unfold coinKernelTime
  rcases h.time with ht | ⟨ht, htime⟩
  · rw [ht]
  · have hblock : c.nTime = blockFrom.nTime := by omega
    rw [ht, hblock]
    simp

theorem FaithfulMap.cases (h : FaithfulMap chain m m0) (o : COutPoint) :
    (m.lookup o = none ∧ m0.lookup o = none) ∨
      ∃ c c0, m.lookup o = some c ∧ m0.lookup o = some c0 ∧ Faithful chain c c0 := by
  have hrel := h o
  cases hc : m.lookup o <;> cases hc0 : m0.lookup o <;> rw [hc, hc0] at hrel
  · exact .inl ⟨rfl, rfl⟩
  · cases hrel
  · cases hrel
  · cases hrel with
    | some hf => exact .inr ⟨_, _, rfl, rfl, hf⟩

theorem FaithfulMap.mono {chain' : IndexChain} (h : FaithfulMap chain m m0)
    (hf : ∀ c c0, Faithful chain c c0 → Faithful chain' c c0) : FaithfulMap chain' m m0 := by
  intro o
  rcases h.cases o with ⟨hm, hm0⟩ | ⟨c, c0, hm, hm0, hc⟩
  · rw [hm, hm0]
    exact .none
  · rw [hm, hm0]
    exact .some (hf c c0 hc)

theorem FaithfulMap.cons (h : FaithfulMap chain m m0) : FaithfulMap (pindex :: chain) m m0 :=
  h.mono fun _ _ hf => hf.cons

theorem FaithfulMap.congr {pindex' : CBlockIndex} (h : FaithfulMap (pindex :: chain) m m0)
    (htime : pindex'.nTime = pindex.nTime) : FaithfulMap (pindex' :: chain) m m0 := by
  refine h.mono fun c c0 hf => ?_
  have horigin : originTime (pindex' :: chain) c = originTime (pindex :: chain) c :=
    originTime_congr pindex' pindex htime c
  exact ⟨hf.out, hf.coinBase, hf.coinStake, hf.nHeight, hf.height, horigin ▸ hf.time_le, horigin ▸ hf.time⟩

theorem FaithfulMap.map_eq {α : Type} {f : Coin → α} (h : FaithfulMap chain m m0)
    (hf : ∀ c c0, Faithful chain c c0 → f c0 = f c) (o : COutPoint) : (m0.lookup o).map f = (m.lookup o).map f := by
  rcases h.cases o with ⟨hm, hm0⟩ | ⟨c, c0, hm, hm0, hc⟩
  · rw [hm, hm0]
  · rw [hm, hm0, Option.map_some, Option.map_some, hf c c0 hc]

theorem FaithfulMap.haveCoin_eq (h : FaithfulMap chain m m0) (o : COutPoint) : haveCoin m0 o = haveCoin m o := by
  simpa [haveCoin] using congrArg Option.isSome (h.map_eq (f := fun _ => ()) (fun _ _ _ => rfl) o)

theorem FaithfulMap.inputReward_eq (h : FaithfulMap chain m m0) (net : Network) (nTimeTx : Nat) (txin : CTxIn) :
    inputReward net chain m0 nTimeTx txin = inputReward net chain m nTimeTx txin := by
  unfold inputReward getCoin
  rcases h.cases txin.prevout with ⟨hm, hm0⟩ | ⟨c, c0, hm, hm0, hf⟩
  · rw [hm, hm0]
  · rw [hm, hm0]
    dsimp only
    rw [hf.out, originTime_congr_height hf.nHeight]

/-- **The kernel check agrees with the reference.** -/
theorem checkProofOfStake_reread (h : FaithfulMap chain m m0) (t nBits nTimeTx : Nat) :
    checkProofOfStake E chain tx nBits m nTimeTx =
      checkProofOfStake (E.atTime t) chain tx.reread nBits m0 nTimeTx := by
  unfold checkProofOfStake
  rw [CTransaction.isCoinStake_reread, CTransaction.reread_vin, CTransaction.reread_reread]
  congr 1
  funext _
  split
  · next txin vin pindex rest hvin =>
    unfold getCoin
    rcases h.cases txin.prevout with ⟨hm, hm0⟩ | ⟨c, c0, hm, hm0, hf⟩
    · rw [hm, hm0]
    · rw [hm, hm0]
      dsimp only
      rw [hf.nHeight, hf.out]
      congr 1
      funext _
      split
      · rfl
      · next blockFrom _ hanc =>
        have hfrom : originTime (pindex :: rest) c = blockFrom.nTime := by rw [originTime, hanc]
        rw [hf.coinKernelTime_eq hfrom]
        rfl
  · rfl

theorem getCoinstakeMaxReward_reread (h : FaithfulMap chain m m0) (net : Network) (nTimeTx : Nat) :
    getCoinstakeMaxReward net chain tx.reread m0 nTimeTx = getCoinstakeMaxReward net chain tx m nTimeTx := by
  unfold getCoinstakeMaxReward
  rw [CTransaction.reread_vin]
  congr 1
  funext nTotal txin
  rw [h.inputReward_eq]

theorem connectStake_reread {view view0 : CCoinsView} (ht : Timely E block chain view.coins)
    (h : FaithfulMap chain view.coins view0.coins) :
    connectStake E block chain view = connectStake (E.atTime block.nTime) block.reread chain view0 := by
  have htimes := fun tx htx => (ht.txs tx htx).txTimeIn_reread
  unfold connectStake
  rw [CBlock.isProofOfStake_reread, CBlock.reread_vtx, Env.atTime_net]
  rcases hvtx : block.vtx with _ | ⟨tx0, _ | ⟨tx1, rest⟩⟩
  · rfl
  · rfl
  · rw [List.map_cons, List.map_cons]
    dsimp only
    rw [htimes tx1 (by simp [hvtx]), checkProofOfStake_reread h block.nTime, getCoinstakeMaxReward_reread h]
    rfl

end Coins

/-! ## The loop over the transactions -/

/-- The coins while a block is being connected on top of `pprev`: a coin was there before, or it is of the block. -/
structure LoopMap (pindex : CBlockIndex) (pprev : IndexChain) (before m m0 : CoinMap) : Prop where
  faithful : FaithfulMap (pindex :: pprev) m m0
  source : ∀ o c, m.lookup o = some c →
    (before.lookup o = some c ∧ c.nHeight < pprev.length) ∨ (before.lookup o = none ∧ c.nHeight = pprev.length)

/-- A block in its place: the index is that of its header, and time has not gone backwards since the genesis block. -/
structure InPlace (E : Env) (block : CBlock) (pindex : CBlockIndex) (pprev : IndexChain) : Prop where
  pindex_time : pindex.nTime = block.nTime
  times : ∀ p ∈ pprev, p.nTime ≤ block.nTime
  genesis : E.net.params.genesisTime ≤ block.nTime

section Loop

variable {E : Env} {block : CBlock} {pindex : CBlockIndex} {pprev : IndexChain} {before m m0 : CoinMap}
  {tx : CTransaction} {c c0 : Coin} {o : COutPoint} {s s0 : ConnectState}

theorem isProtocolV3_1_of_genesis (net : Network) {t : Int} (h : (net.params.genesisTime : Int) ≤ t) :
    net.params.isProtocolV3_1 t = true := by
  rw [Params.isProtocolV3_1, decide_eq_true_eq]
  cases net <;>
    simp only [Network.params, Network.mainParams, Network.testNetParams, Network.sigNetParams, Network.regTestParams]
      at h ⊢ <;> omega

theorem originTime_le_of_forall {chain : IndexChain} {t : Nat} (h : ∀ p ∈ chain, p.nTime ≤ t) :
    originTime chain c ≤ t := by
  unfold originTime
  split
  · exact Int.natCast_nonneg t
  · next blockFrom rest hanc =>
    have hmem : blockFrom ∈ chain := by
      unfold getAncestor at hanc
      split at hanc
      · cases hanc
      · exact List.mem_of_mem_drop (hanc ▸ List.mem_cons_self)
    exact_mod_cast h blockFrom hmem

theorem InPlace.originTime_le (h : InPlace E block pindex pprev) : originTime (pindex :: pprev) c ≤ block.nTime := by
  refine originTime_le_of_forall fun p hp => ?_
  rcases List.mem_cons.1 hp with rfl | hp
  · exact le_of_eq h.pindex_time
  · exact h.times p hp

theorem inputCheckTime_of_version_lt (tx : CTransaction) (h : tx.nVersion < 2) : inputCheckTime E tx = tx.nTime := by
  rw [inputCheckTime, if_neg (by omega)]

theorem Timely.inputCheckTime_ge (ht : Timely E block pprev before) (htx : tx ∈ block.vtx) (hv : ¬ tx.nVersion < 2) :
    (block.nTime : Int) ≤ inputCheckTime E tx ∧ inputCheckTime E tx < 2 ^ 32 := by
  have htime := ht.txs tx htx
  have hclock := ht.clock
  have hlt := ht.clock_lt
  rw [TimelyTx, if_neg hv] at htime
  unfold inputCheckTime
  split
  · omega
  · next hne =>
    rcases htime with h0 | h
    · exact absurd ⟨h0, by omega⟩ hne
    · omega

theorem inputCheckTime_reference (hv : ¬ tx.nVersion < 2) (t : Nat) : inputCheckTime (E.atTime t) tx.reread = t := by
  rw [inputCheckTime, if_pos]
  · rfl
  · exact ⟨by rw [CTransaction.reread, if_neg hv], by rw [CTransaction.reread_nVersion]; omega⟩

theorem LoopMap.input_times (hm : LoopMap pindex pprev before m m0) (ht : Timely E block pprev before)
    (hp : InPlace E block pindex pprev) (htx : tx ∈ block.vtx) (hcb : tx.isCoinBase = false) {txin : CTxIn}
    (hin : txin ∈ tx.vin) (hc : m.lookup txin.prevout = some c) (hf : Faithful (pindex :: pprev) c c0) :
    (c.nTime : Int) ≤ inputCheckTime E tx ∧ (c0.nTime : Int) ≤ inputCheckTime (E.atTime block.nTime) tx.reread := by
  have hle := hf.time_le
  have href := hf.reference_le
  by_cases hv : tx.nVersion < 2
  · have horigin : originTime (pindex :: pprev) c ≤ tx.nTime := by
      have htime := ht.txs tx htx
      rw [TimelyTx, if_pos hv] at htime
      have hspent := htime.2 hcb txin hin
      unfold spentTime at hspent
      rcases hm.source _ c hc with ⟨hbefore, hheight⟩ | ⟨hbefore, hheight⟩
      · rw [hbefore] at hspent
        rw [originTime_cons hheight]
        exact hspent
      · rw [hbefore] at hspent
        rw [originTime_self hheight, hp.pindex_time]
        exact hspent
    have hreread : tx.reread.nTime = tx.nTime := by rw [CTransaction.reread, if_pos hv]
    rw [inputCheckTime_of_version_lt tx hv, inputCheckTime_of_version_lt tx.reread hv, hreread]
    omega
  · have horigin := hp.originTime_le (c := c)
    have hge := (ht.inputCheckTime_ge htx hv).1
    rw [inputCheckTime_reference hv]
    omega

theorem Timely.isProtocolV3_1_eq (ht : Timely E block pprev before) (hp : InPlace E block pindex pprev)
    (htx : tx ∈ block.vtx) :
    E.net.params.isProtocolV3_1 (inputCheckTime (E.atTime block.nTime) tx.reread) =
        E.net.params.isProtocolV3_1 (inputCheckTime E tx) ∧
      getMinFee E.net tx.reread (inputCheckTime (E.atTime block.nTime) tx.reread) =
        getMinFee E.net tx (inputCheckTime E tx) := by
  have hsize : tx.reread.virtualSize = tx.virtualSize := by
    simp [CTransaction.virtualSize, CTransaction.weight]
  by_cases hv : tx.nVersion < 2
  · have hreread : tx.reread.nTime = tx.nTime := by rw [CTransaction.reread, if_pos hv]
    rw [inputCheckTime_of_version_lt tx hv, inputCheckTime_of_version_lt tx.reread hv, hreread]
    exact ⟨rfl, by rw [getMinFee, getMinFee, hsize]⟩
  · obtain ⟨hge, hlt⟩ := ht.inputCheckTime_ge htx hv
    have hgen := hp.genesis
    have hclock := ht.clock
    have hclock_lt := ht.clock_lt
    rw [inputCheckTime_reference hv]
    have hnode := isProtocolV3_1_of_genesis E.net (t := inputCheckTime E tx) (by omega)
    have href := isProtocolV3_1_of_genesis E.net (t := (block.nTime : Int)) (by omega)
    refine ⟨href.trans hnode.symm, ?_⟩
    rw [getMinFee, getMinFee, hsize, Int.emod_eq_of_lt (by omega) hlt, Int.emod_eq_of_lt (by omega) (by omega), href,
      hnode]

theorem checkTxInput_reread (hm : LoopMap pindex pprev before m m0) (ht : Timely E block pprev before)
    (hp : InPlace E block pindex pprev) (htx : tx ∈ block.vtx) (hcb : tx.isCoinBase = false) {txin : CTxIn}
    (hin : txin ∈ tx.vin) (nSpendHeight : Nat) (nValueIn : Int) :
    checkTxInput E m nSpendHeight (inputCheckTime E tx) nValueIn txin =
      checkTxInput (E.atTime block.nTime) m0 nSpendHeight (inputCheckTime (E.atTime block.nTime) tx.reread) nValueIn
        txin := by
  have hmaturity : inputMaturity (E.atTime block.nTime) (inputCheckTime (E.atTime block.nTime) tx.reread) =
      inputMaturity E (inputCheckTime E tx) := by
    unfold inputMaturity
    rw [Env.atTime_net, (ht.isProtocolV3_1_eq hp htx).1]
  unfold checkTxInput getCoin
  rcases hm.faithful.cases txin.prevout with ⟨hc, hc0⟩ | ⟨c, c0, hc, hc0, hf⟩
  · rw [hc, hc0]
  · obtain ⟨htime, htime0⟩ := hm.input_times ht hp htx hcb hin hc hf
    rw [hc, hc0]
    dsimp only
    rw [hf.coinBase, hf.coinStake, hf.nHeight, hf.out, hmaturity, decide_eq_true htime, decide_eq_true htime0]

/-- **`CheckTxInputs` agrees with the reference.** -/
theorem checkTxInputs_reread (hm : LoopMap pindex pprev before m m0) (ht : Timely E block pprev before)
    (hp : InPlace E block pindex pprev) (htx : tx ∈ block.vtx) (hcb : tx.isCoinBase = false) (nSpendHeight : Nat) :
    checkTxInputs E tx m nSpendHeight = checkTxInputs (E.atTime block.nTime) tx.reread m0 nSpendHeight := by
  obtain ⟨hv31, hfee⟩ := ht.isProtocolV3_1_eq hp htx
  have hhave : haveInputs m0 tx.reread = haveInputs m tx := by
    unfold haveInputs
    simp only [hm.faithful.haveCoin_eq]
    rfl
  have hloop : tx.reread.vin.foldlM
      (checkTxInput (E.atTime block.nTime) m0 nSpendHeight (inputCheckTime (E.atTime block.nTime) tx.reread)) 0 =
      tx.vin.foldlM (checkTxInput E m nSpendHeight (inputCheckTime E tx)) 0 :=
    foldlM_congr fun txin hin s => (checkTxInput_reread hm ht hp htx hcb hin nSpendHeight s).symm
  unfold checkTxInputs
  dsimp only
  rw [hhave, hloop, Env.atTime_net, hv31, hfee]
  rfl

theorem spentScript_reread (hf : FaithfulMap (pindex :: pprev) m m0) (txin : CTxIn) :
    spentScript m0 txin = spentScript m txin := by
  have hscript := hf.map_eq (f := (·.out.scriptPubKey)) (fun _ _ hc => by rw [hc.out]) txin.prevout
  exact congrArg (·.getD []) hscript

theorem getTransactionSigOpCost_reread (hf : FaithfulMap (pindex :: pprev) m m0) (flags : ScriptFlags) :
    getTransactionSigOpCost tx.reread m0 flags = getTransactionSigOpCost tx m flags := by
  unfold getTransactionSigOpCost getP2SHSigOpCount
  simp only [spentScript_reread hf]
  rfl

theorem getValueIn_reread (hf : FaithfulMap (pindex :: pprev) m m0) : getValueIn m0 tx.reread = getValueIn m tx := by
  have hvalue := hf.map_eq (f := (·.out.nValue)) fun _ _ hc => by rw [hc.out]
  unfold getValueIn
  simp only [hvalue]
  rfl

theorem checkInputScripts_reread (hf : FaithfulMap (pindex :: pprev) m m0) (flags : ScriptFlags) (t : Nat) :
    checkInputScripts (E.atTime t) tx.reread m0 flags = checkInputScripts E tx m flags := by
  unfold checkInputScripts
  rw [CTransaction.isCoinBase_reread, CTransaction.reread_vin, CTransaction.reread_reread]
  refine congrArg (tx.isCoinBase || List.all tx.vin.zipIdx ·) (funext fun ⟨txin, nIn⟩ => ?_)
  unfold getCoin
  dsimp only
  rcases hf.cases txin.prevout with ⟨hc, hc0⟩ | ⟨c, c0, hc, hc0, hfc⟩
  · rw [hc, hc0]
  · rw [hc, hc0]
    dsimp only
    rw [hfc.out]
    rfl

theorem connectInputs_reread (hm : LoopMap pindex pprev before s.coins s0.coins)
    (hfees : s0.nFees = s.nFees) (ht : Timely E block pprev before) (hp : InPlace E block pindex pprev)
    (htx : tx ∈ block.vtx) (chain : IndexChain) :
    connectInputs E chain s tx = connectInputs (E.atTime block.nTime) chain s0 tx.reread := by
  unfold connectInputs
  rw [CTransaction.isCoinBase_reread, hfees]
  cases hcb : tx.isCoinBase with
  | true => rfl
  | false =>
    simp only [Bool.false_eq_true, if_false]
    rw [checkTxInputs_reread hm ht hp htx hcb, CTransaction.reread_vin]
    simp only [hm.faithful.map_eq (f := (·.nHeight)) fun _ _ hc => hc.nHeight]
    rfl

theorem connectValues_reread (hf : FaithfulMap (pindex :: pprev) s.coins s0.coins)
    (hreward : s0.nActualStakeReward = s.nActualStakeReward) (flags : ScriptFlags) (nFees : Int) (t : Nat) :
    connectValues E flags s nFees tx = connectValues (E.atTime t) flags s0 nFees tx.reread := by
  unfold connectValues
  rw [CTransaction.isCoinBase_reread, hreward, getValueIn_reread hf, checkInputScripts_reread hf]
  rfl

theorem LoopMap.erase (hm : LoopMap pindex pprev before m m0) (o : COutPoint) :
    LoopMap pindex pprev before (m.erase o) (m0.erase o) := by
  refine ⟨fun o' => ?_, fun o' c hc => ?_⟩
  · by_cases heq : o' = o
    · rw [heq, Finmap.lookup_erase, Finmap.lookup_erase]
      exact .none
    · rw [Finmap.lookup_erase_ne heq, Finmap.lookup_erase_ne heq]
      exact hm.faithful o'
  · by_cases heq : o' = o
    · rw [heq, Finmap.lookup_erase] at hc
      cases hc
    · rw [Finmap.lookup_erase_ne heq] at hc
      exact hm.source o' c hc

theorem LoopMap.insert (hm : LoopMap pindex pprev before m m0) (hf : Faithful (pindex :: pprev) c c0)
    (hnew : before.lookup o = none) (hheight : c.nHeight = pprev.length) :
    LoopMap pindex pprev before (m.insert o c) (m0.insert o c0) := by
  refine ⟨fun o' => ?_, fun o' c' hc => ?_⟩
  · by_cases heq : o' = o
    · rw [heq, Finmap.lookup_insert, Finmap.lookup_insert]
      exact .some hf
    · rw [Finmap.lookup_insert_of_ne _ heq, Finmap.lookup_insert_of_ne _ heq]
      exact hm.faithful o'
  · by_cases heq : o' = o
    · subst heq
      rw [Finmap.lookup_insert] at hc
      cases hc
      exact .inr ⟨hnew, hheight⟩
    · rw [Finmap.lookup_insert_of_ne _ heq] at hc
      exact hm.source o' c' hc

theorem spendInputs_agree (hm : LoopMap pindex pprev before m m0) (vin : List CTxIn) :
    Agree (fun r r0 => LoopMap pindex pprev before r.2 r0.2) (spendInputs vin m) (spendInputs vin m0) := by
  induction vin generalizing m m0 with
  | nil => exact .ok hm
  | cons txin vin ih =>
    unfold spendInputs spendCoin
    rcases hm.faithful.cases txin.prevout with ⟨hc, hc0⟩ | ⟨c, c0, hc, hc0, -⟩
    · rw [hc, hc0]
      exact .error _
    · rw [hc, hc0]
      exact (ih (hm.erase txin.prevout)).bind fun r r0 hr => .ok hr

theorem TimelyTx.faithful {out : CTxOut} {hout : out.nValue ≠ -1} (h : TimelyTx block pprev before tx)
    (hp : InPlace E block pindex pprev) :
    Faithful (pindex :: pprev) ⟨out, tx.isCoinBase, tx.isCoinStake, pprev.length, tx.nTime, hout⟩
      ⟨out, tx.isCoinBase, tx.isCoinStake, pprev.length, tx.reread.nTime, hout⟩ := by
  have horigin : originTime (pindex :: pprev) ⟨out, tx.isCoinBase, tx.isCoinStake, pprev.length, tx.nTime, hout⟩ =
      block.nTime := by
    rw [originTime_self rfl, hp.pindex_time]
  unfold TimelyTx at h
  split at h
  · next hv =>
    refine ⟨rfl, rfl, rfl, rfl, by simp, ?_, .inl ?_⟩
    · rw [horigin]
      exact_mod_cast h.1
    · rw [CTransaction.reread, if_pos hv]
  · next hv =>
    have hzero : tx.reread.nTime = 0 := by rw [CTransaction.reread, if_neg hv]
    refine ⟨rfl, rfl, rfl, rfl, by simp, ?_, ?_⟩
    · rw [horigin]
      show (tx.nTime : Int) ≤ block.nTime
      omega
    · rcases h with h | h
      · exact .inl (hzero.trans h.symm)
      · exact .inr ⟨hzero, by rw [horigin, ← h]⟩

theorem addOutputs_agree {txid : Uint256} (hp : InPlace E block pindex pprev) (ht : TimelyTx block pprev before tx)
    (vout : List CTxOut) (i : Nat) (hnew : ∀ j, i ≤ j → j < i + vout.length → before.lookup ⟨txid, j⟩ = none)
    (hm : LoopMap pindex pprev before m m0) :
    Agree (LoopMap pindex pprev before) (addOutputs txid tx pprev.length i vout m)
      (addOutputs txid tx.reread pprev.length i vout m0) := by
  induction vout generalizing i m m0 with
  | nil => exact .ok hm
  | cons out vout ih =>
    unfold addOutputs
    refine Agree.bind (R := LoopMap pindex pprev before) ?_ fun m1 m10 hm1 => ih (i + 1) (fun j hj hj' => ?_) hm1
    · unfold addCoin
      rw [hm.faithful.haveCoin_eq]
      split
      · split
        · exact .ok hm
        · rw [CTransaction.isCoinBase_reread]
          split
          · exact .error _
          · exact .ok (hm.insert (ht.faithful hp) (hnew i (Nat.le_refl i) (by simp)) rfl)
      · exact .error _
    · exact hnew j (by omega) (by rw [List.length_cons]; omega)

theorem updateCoins_agree {C : Crypto} (hp : InPlace E block pindex pprev) (ht : TimelyTx block pprev before tx)
    (hnew : ∀ j < tx.vout.length, before.lookup ⟨tx.getHash C, j⟩ = none) (hm : LoopMap pindex pprev before m m0) :
    Agree (fun r r0 => LoopMap pindex pprev before r.2 r0.2) (updateCoins m C tx pprev.length)
      (updateCoins m0 C tx.reread pprev.length) := by
  unfold updateCoins addCoins
  rw [CTransaction.getHash_reread]
  refine (spendInputs_agree hm _).bind fun r r0 hr => ?_
  refine (addOutputs_agree hp ht tx.vout 0 (fun j _ hj => hnew j (by omega)) hr).bind fun m1 m10 hm1 => ?_
  exact .ok hm1

/-- The variables of the loop for the node and for the reference. -/
structure LoopState (pindex : CBlockIndex) (pprev : IndexChain) (before : CoinMap) (s s0 : ConnectState) : Prop where
  coins : LoopMap pindex pprev before s.coins s0.coins
  nFees : s0.nFees = s.nFees
  nActualStakeReward : s0.nActualStakeReward = s.nActualStakeReward
  nSigOpsCost : s0.nSigOpsCost = s.nSigOpsCost

/-- **One round of the loop agrees with the reference.** -/
theorem connectTx_agree (ht : Timely E block pprev before) (hp : InPlace E block pindex pprev)
    (htx : tx ∈ block.vtx) (hnew : ∀ j < tx.vout.length, before.lookup ⟨tx.getHash E.crypto, j⟩ = none)
    (flags : ScriptFlags) (hs : LoopState pindex pprev before s s0) :
    Agree (LoopState pindex pprev before) (connectTx E (pindex :: pprev) flags s tx)
      (connectTx (E.atTime block.nTime) (pindex :: pprev) flags s0 tx.reread) := by
  unfold connectTx
  rw [connectInputs_reread hs.coins hs.nFees ht hp htx, hs.nSigOpsCost, getTransactionSigOpCost_reread hs.coins.faithful]
  refine Agree.refl.bind ?_
  rintro nFees _ rfl
  refine Agree.require_bind rfl fun _ => ?_
  rw [connectValues_reread hs.coins.faithful hs.nActualStakeReward flags nFees block.nTime]
  refine Agree.refl.bind ?_
  rintro values _ rfl
  refine (updateCoins_agree hp (ht.txs tx htx) hnew hs.coins).bind fun r r0 hr => ?_
  exact .ok ⟨hr, rfl, rfl, rfl⟩

end Loop

/-! ## A whole block -/

section Block

variable {E : Env} {block : CBlock} {pindex : CBlockIndex} {pprev : IndexChain} {view view0 : CCoinsView}

theorem noOverwrite_reread (hf : FaithfulMap pprev view.coins view0.coins) (t : Nat) :
    noOverwrite (E.atTime t) block.reread view0 = noOverwrite E block view := by
  unfold noOverwrite
  simp only [hf.haveCoin_eq, CBlock.reread_vtx, List.all_map, Function.comp_def, CTransaction.getHash_reread,
    Env.atTime_crypto, CTransaction.reread_vout]

theorem connectLoop_agree (ht : Timely E block pprev view.coins) (hp : InPlace E block pindex pprev)
    (hf : FaithfulMap pprev view.coins view0.coins) (hnew : noOverwrite E block view = true) (flags : ScriptFlags) :
    Agree (LoopState pindex pprev view.coins)
      (block.vtx.foldlM (connectTx E (pindex :: pprev) flags) { coins := view.coins })
      (block.reread.vtx.foldlM (connectTx (E.atTime block.nTime) (pindex :: pprev) flags) { coins := view0.coins }) := by
  have hitems : List.Forall₂ (fun tx tx0 => tx ∈ block.vtx ∧ tx0 = tx.reread) block.vtx block.reread.vtx := by
    rw [CBlock.reread_vtx, List.forall₂_map_right_iff, List.forall₂_same]
    exact fun tx htx => ⟨htx, rfl⟩
  have hstart : LoopMap pindex pprev view.coins view.coins view0.coins := by
    refine ⟨hf.cons, fun o c hc => .inl ⟨hc, ?_⟩⟩
    rcases hf.cases o with ⟨hnone, -⟩ | ⟨c', c0, hc', -, hfc⟩
    · rw [hc] at hnone
      cases hnone
    · rw [hc] at hc'
      cases hc'
      exact hfc.height
  refine Agree.foldlM hitems ?_ ⟨hstart, rfl, rfl, rfl⟩
  rintro s s0 tx _ hs ⟨htx, rfl⟩
  refine connectTx_agree ht hp htx (fun j hj => ?_) flags hs
  exact Finmap.lookup_eq_none.2 (noOverwrite_iff.1 hnew tx htx j hj)

theorem checkRewards_reread {s s0 : ConnectState} (hs : LoopState pindex pprev view.coins s s0) (nMaxStakeReward : Int)
    (t : Nat) :
    checkRewards (E.atTime t) block.reread pprev nMaxStakeReward s0 = checkRewards E block pprev nMaxStakeReward s := by
  have hhead : (block.reread.vtx.headD ⟨[], [], 2, 0, 0⟩).getValueOut =
      (block.vtx.headD ⟨[], [], 2, 0, 0⟩).getValueOut := by
    rw [CBlock.reread_vtx]
    cases block.vtx <;> rfl
  unfold checkRewards
  rw [CBlock.isProofOfStake_reread, hhead, hs.nFees, hs.nActualStakeReward]
  rfl

/-- What `ConnectBlock` leaves behind for the node and for the reference. -/
structure ResultAgrees (pindex : CBlockIndex) (pprev : IndexChain) (r r0 : ConnectResult) : Prop where
  coins : FaithfulMap (pindex :: pprev) r.view.coins r0.view.coins
  hashBlock : r0.view.hashBlock = r.view.hashBlock
  nStakeModifier : r0.nStakeModifier = r.nStakeModifier

/-- **`ConnectBlock` agrees with the reference** on a timely block: the verdict, the error and the stake modifier are the
same, and the coins stay faithful. -/
theorem connectBlock_agree (ht : Timely E block pprev view.coins) (hp : InPlace E block pindex pprev)
    (hf : FaithfulMap pprev view.coins view0.coins) (hbest : view0.hashBlock = view.hashBlock) (fJustCheck : Bool) :
    Agree (ResultAgrees pindex pprev) (connectBlock E block pindex pprev view fJustCheck)
      (connectBlock (E.atTime block.nTime) block.reread pindex pprev view0 fJustCheck) := by
  unfold connectBlock
  rw [Env.atTime_crypto, Env.atTime_net, CBlock.getHash_reread, ← checkBlock_reread ht, ← connectStake_reread ht hf,
    hbest]
  refine Agree.require_bind rfl fun _ => ?_
  refine Agree.require_bind rfl fun _ => ?_
  refine Agree.refl.bind ?_
  rintro ⟨⟩ _ rfl
  refine Agree.require_bind rfl fun _ => ?_
  refine Agree.refl.bind ?_
  rintro nMax _ rfl
  split
  · exact .ok ⟨hf.cons, rfl, rfl⟩
  · unfold connectBody
    rw [noOverwrite_reread hf, modifierKernel_reread]
    refine Agree.require_bind rfl fun hnew => ?_
    refine (connectLoop_agree ht hp hf hnew _).bind fun s s0 hs => ?_
    rw [checkRewards_reread hs]
    refine Agree.refl.bind ?_
    rintro ⟨⟩ _ rfl
    exact .ok ⟨hs.coins.faithful, by rw [hbest], rfl⟩

end Block

/-! ## Runs of nodes -/

/-- A node that has connected a sequence of serialized blocks with their index flags, tip first, from the genesis block
on. The blocks may have been built on the node, and the clock moves from block to block; `P` is a condition on the
steps. -/
inductive NodeRun (P : Env → CBlock → IndexChain → CoinMap → Prop) (rules : Env) :
    List (CBlock × Bool) → IndexChain → CCoinsView → Prop
  | start : NodeRun P rules [] [] ⟨∅, 0⟩
  | next {bs : List (CBlock × Bool)} {chain : IndexChain} {view : CCoinsView} {E : Env} {block : CBlock}
      {fProofOfStake : Bool} {r : ConnectResult} (hrun : NodeRun P rules bs chain view) (hE : E.atTime 0 = rules)
      (hgenesis : chain = [] → block = rules.net.genesis rules.crypto) (hP : P E block chain view.coins)
      (h : connectBlock E block (.ofHeader rules.crypto block.getBlockHeader fProofOfStake) chain view false = .ok r) :
      NodeRun P rules ((block.reread, fProofOfStake) :: bs)
        (connectedIndex rules.crypto block fProofOfStake r :: chain) r.view

def connectBlocks (env : CBlock → Env) : List (CBlock × Bool) → Option (IndexChain × CCoinsView)
  | [] => some ([], ⟨∅, 0⟩)
  | (block, fProofOfStake) :: bs =>
    (connectBlocks env bs).bind fun s =>
      match connectBlock (env block) block (.ofHeader (env block).crypto block.getBlockHeader fProofOfStake) s.1 s.2
          false with
      | .ok r => some (connectedIndex (env block).crypto block fProofOfStake r :: s.1, r.view)
      | .error _ => none

section Runs

variable {rules E : Env} {bs : List (CBlock × Bool)} {chain : IndexChain} {view : CCoinsView} {block : CBlock}

/-- A node next to the reference after the same blocks. -/
structure RunAgrees (rules : Env) (bs : List (CBlock × Bool)) (chain : IndexChain) (view view0 : CCoinsView) : Prop where
  reference : connectBlocks (fun block => rules.atTime block.nTime) bs = some (chain, view0)
  coins : FaithfulMap chain view.coins view0.coins
  hashBlock : view0.hashBlock = view.hashBlock
  times : ∀ p ∈ chain, rules.net.params.genesisTime ≤ p.nTime ∧ p.nTime ≤ tipTime chain

theorem Env.atTime_eq (hE : E.atTime 0 = rules) (t : Nat) : E.atTime t = rules.atTime t := by
  rw [← hE]
  rfl

theorem RunAgrees.inPlace {view0 : CCoinsView} (h : RunAgrees rules bs chain view view0) (hE : E.atTime 0 = rules)
    (hgenesis : chain = [] → block = rules.net.genesis rules.crypto) (ht : Timely E block chain view.coins)
    {pindex : CBlockIndex} (hp : pindex.nTime = block.nTime) : InPlace E block pindex chain := by
  have hnet : E.net = rules.net := by rw [← hE]; rfl
  have hparent := ht.parent
  refine ⟨hp, fun p hmem => ?_, ?_⟩
  · have := (h.times p hmem).2
    omega
  · rw [hnet]
    cases hchain : chain with
    | nil =>
      rw [hgenesis hchain]
      exact Nat.le_refl _
    | cons tip rest =>
      have htip := h.times tip (by rw [hchain]; exact List.mem_cons_self)
      omega

/-- **A run of timely blocks stays next to the reference.** -/
theorem NodeRun.agrees (h : NodeRun Timely rules bs chain view) : ∃ view0, RunAgrees rules bs chain view view0 := by
  induction h with
  | start => exact ⟨⟨∅, 0⟩, rfl, fun o => .none, rfl, by simp⟩
  | @next bs chain view E block fProofOfStake r hrun hE hgenesis ht hconnect ih =>
    obtain ⟨view0, hagree⟩ := ih
    have hp : InPlace E block (.ofHeader rules.crypto block.getBlockHeader fProofOfStake) chain :=
      hagree.inPlace hE hgenesis ht rfl
    have hblock := connectBlock_agree ht hp hagree.coins hagree.hashBlock false
    rw [hconnect, Env.atTime_eq hE] at hblock
    generalize hx : connectBlock (rules.atTime block.nTime) block.reread _ chain view0 false = x at hblock
    cases hblock with
    | @ok _ r0 hr =>
      refine ⟨r0.view, ?_, hr.coins.congr rfl, hr.hashBlock, ?_⟩
      · have hindex : connectedIndex rules.crypto block.reread fProofOfStake r0 =
            connectedIndex rules.crypto block fProofOfStake r := by
          rw [connectedIndex, connectedIndex, hr.nStakeModifier]
          rfl
        rw [connectBlocks, hagree.reference, Option.bind_some]
        show (match connectBlock (rules.atTime block.nTime) block.reread
            (.ofHeader rules.crypto block.getBlockHeader fProofOfStake) chain view0 false with
          | .ok r => some (connectedIndex rules.crypto block.reread fProofOfStake r :: chain, r.view)
          | .error _ => none) = _
        rw [hx]
        show some (_ :: chain, r0.view) = _
        rw [hindex]
      · have hnet : E.net = rules.net := by rw [← hE]; rfl
        intro p hmem
        rcases List.mem_cons.1 hmem with rfl | hmem
        · exact ⟨hnet ▸ hp.genesis, Nat.le_refl _⟩
        · exact ⟨(hagree.times p hmem).1, hp.times p hmem⟩

theorem connectBlock_verdicts_agree {E1 E2 : Env} {chain1 chain2 : IndexChain} {view1 view2 : CCoinsView}
    {block1 block2 : CBlock} (h1 : NodeRun Timely rules bs chain1 view1) (h2 : NodeRun Timely rules bs chain2 view2)
    (hE1 : E1.atTime 0 = rules) (hE2 : E2.atTime 0 = rules) (hblock : block1.reread = block2.reread)
    (hgenesis1 : chain1 = [] → block1 = rules.net.genesis rules.crypto)
    (hgenesis2 : chain2 = [] → block2 = rules.net.genesis rules.crypto)
    (ht1 : Timely E1 block1 chain1 view1.coins) (ht2 : Timely E2 block2 chain2 view2.coins) (fProofOfStake : Bool) :
    chain1 = chain2 ∧
      Agree (fun r1 r2 => r1.nStakeModifier = r2.nStakeModifier)
        (connectBlock E1 block1 (.ofHeader rules.crypto block1.getBlockHeader fProofOfStake) chain1 view1 false)
        (connectBlock E2 block2 (.ofHeader rules.crypto block2.getBlockHeader fProofOfStake) chain2 view2 false) := by
  obtain ⟨view0, hagree1⟩ := h1.agrees
  obtain ⟨view0', hagree2⟩ := h2.agrees
  -- both runs are next to the one run of the reference
  have hsame := hagree1.reference.symm.trans hagree2.reference
  simp only [Option.some.injEq, Prod.mk.injEq] at hsame
  obtain ⟨rfl, rfl⟩ := hsame
  have hpindex : CBlockIndex.ofHeader rules.crypto block2.getBlockHeader fProofOfStake =
      .ofHeader rules.crypto block1.getBlockHeader fProofOfStake :=
    (congrArg (fun b => CBlockIndex.ofHeader rules.crypto b.getBlockHeader fProofOfStake) hblock).symm
  have htime : block2.nTime = block1.nTime := (congrArg (fun b : CBlock => b.nTime) hblock).symm
  have hp1 : InPlace E1 block1 (.ofHeader rules.crypto block1.getBlockHeader fProofOfStake) chain1 :=
    hagree1.inPlace hE1 hgenesis1 ht1 rfl
  have hp2 : InPlace E2 block2 (.ofHeader rules.crypto block2.getBlockHeader fProofOfStake) chain1 :=
    hagree2.inPlace hE2 hgenesis2 ht2 rfl
  have hagrees1 := connectBlock_agree ht1 hp1 hagree1.coins hagree1.hashBlock false
  have hagrees2 := connectBlock_agree ht2 hp2 hagree2.coins hagree2.hashBlock false
  rw [Env.atTime_eq hE1] at hagrees1
  rw [Env.atTime_eq hE2, ← hblock, htime, hpindex] at hagrees2
  refine ⟨rfl, ?_⟩
  rw [hpindex]
  refine (hagrees1.join hagrees2).mono ?_
  rintro r1 r2 ⟨r0, hr1, hr2⟩
  rw [← hr1.nStakeModifier, ← hr2.nStakeModifier]

end Runs

instance (block : CBlock) (chain : IndexChain) (m : CoinMap) (tx : CTransaction) :
    Decidable (TimelyTx block chain m tx) := by
  unfold TimelyTx
  infer_instance

instance (E : Env) (block : CBlock) (chain : IndexChain) (m : CoinMap) : Decidable (Timely E block chain m) :=
  decidable_of_iff (block.nTime ≤ E.adjustedTime ∧ E.adjustedTime < 2 ^ 32 ∧ tipTime chain < block.nTime ∧
      E.net.params.signetBlocks = false ∧ ∀ tx ∈ block.vtx, TimelyTx block chain m tx)
    ⟨fun ⟨h1, h2, h3, h4, h5⟩ => ⟨h1, h2, h3, h4, h5⟩, fun h => ⟨h.clock, h.clock_lt, h.parent, h.noSignet, h.txs⟩⟩

/-! ## Two nodes on regtest -/

/-- A block as the node that made it has it: the transactions of version 2 have the time of the block. -/
def CBlock.stamped (block : CBlock) : CBlock :=
  { block with vtx := block.vtx.map fun tx => if tx.nVersion < 2 then tx else { tx with nTime := block.nTime } }

theorem mintBlock_verdicts_agree :
    let block := mintBlock 1 (Network.regtest.genesis .sample)
    ∃ r, connectBlock mintEnv (Network.regtest.genesis .sample)
        (.ofHeader .sample (Network.regtest.genesis .sample).getBlockHeader false) [] ⟨∅, 0⟩ false = .ok r ∧
      block.stamped ≠ block ∧
      Agree (fun r1 r2 => r1.nStakeModifier = r2.nStakeModifier)
        (connectBlock mintEnv block.stamped (.ofHeader .sample block.getBlockHeader false)
          [connectedIndex .sample (Network.regtest.genesis .sample) false r] r.view false)
        (connectBlock (.sample .regtest 1785333600) block (.ofHeader .sample block.getBlockHeader false)
          [connectedIndex .sample (Network.regtest.genesis .sample) false r] r.view false) := by
  intro block
  have hrun : holdsOk (fun r : ConnectResult =>
      let chain := [connectedIndex .sample (Network.regtest.genesis .sample) false r]
      decide (Timely mintEnv block.stamped chain r.view.coins) &&
        decide (Timely (.sample .regtest 1785333600) block chain r.view.coins))
      (connectBlock mintEnv (Network.regtest.genesis .sample)
        (.ofHeader .sample (Network.regtest.genesis .sample).getBlockHeader false) [] ⟨∅, 0⟩ false) = true := by
    decide +kernel
  obtain ⟨r, hr, hp⟩ := holdsOk_iff.1 hrun
  obtain ⟨ht1, ht2⟩ := Bool.and_eq_true_iff.1 hp
  have hnode : NodeRun Timely (mintEnv.atTime 0) [((Network.regtest.genesis .sample).reread, false)]
      [connectedIndex .sample (Network.regtest.genesis .sample) false r] r.view :=
    .next .start rfl (fun _ => rfl) (by decide +kernel) hr
  have hE2 : (Env.sample .regtest 1785333600).atTime 0 = mintEnv.atTime 0 := rfl
  have hsame : block.stamped.reread = block.reread := by decide +kernel
  refine ⟨r, hr, by decide +kernel, ?_⟩
  exact And.right (connectBlock_verdicts_agree hnode hnode rfl hE2 hsame (by simp) (by simp)
    (of_decide_eq_true ht1) (of_decide_eq_true ht2) false)

theorem mintChain_nodeRun {n : Nat} {links : List ChainLink} (h : mintChain n = some links) :
    ∃ tip rest, links = tip :: rest ∧ NodeRun (fun _ _ _ _ => True) (mintEnv.atTime 0)
      (links.map fun link => (link.block.reread, false)) (linkIndexes links) tip.after := by
  induction n generalizing links with
  | zero =>
    simp only [mintChain, connectGenesis] at h
    split at h
    · next r hr =>
      cases h
      exact ⟨_, _, rfl, .next (E := mintEnv) .start rfl (fun _ => rfl) trivial hr⟩
    · cases h
  | succ n ih =>
    obtain ⟨links1, h1, h⟩ := Option.bind_eq_some_iff.1 h
    obtain ⟨tip, rest, rfl, hnode⟩ := ih h1
    rw [List.head?_cons, Option.bind_some] at h
    simp only [connectNext] at h
    split at h
    · split at h
      · next r hr =>
        cases h
        exact ⟨_, _, rfl, .next (E := mintEnv) hnode rfl (by simp) trivial hr⟩
      · cases h
    · cases h

/-- A block with a payment of version 2 that spends the first coinbase, and a payment of version 1 that spends it on and
is one second older than the block. -/
def splitBlock (prev : CBlock) : CBlock :=
  let coinbase := mintCoinbase 11 ⟨0, []⟩
  let first : CTransaction :=
    { vin := [{ prevout := ⟨(mintCoinbase 1 ⟨281479271743489, mintScript⟩).getHash .sample, 0⟩, scriptSig := [] }]
      vout := [⟨281479200000000, mintScript⟩]
      nVersion := 2 }
  let second : CTransaction :=
    { vin := [{ prevout := ⟨first.getHash .sample, 0⟩, scriptSig := [] }]
      vout := [⟨281479100000000, mintScript⟩]
      nVersion := 1
      nTime := prev.nTime + 15 }
  let txs := [coinbase, first, second]
  { hashPrevBlock := prev.getHash .sample
    hashMerkleRoot := (computeMerkleRoot .sample (txs.map (·.getHash .sample))).1
    nTime := prev.nTime + 16
    nBits := 0x207fffff
    vtx := txs }

theorem verdicts_differ : ∃ bs chain view block1 block2 r,
    NodeRun (fun _ _ _ _ => True) (mintEnv.atTime 0) bs chain view ∧ CBlock.reread block1 = CBlock.reread block2 ∧
      connectBlock mintEnv block1 (.ofHeader .sample block1.getBlockHeader false) chain view false =
        .error (.invalid .blockConsensus "bad-txns-time-earlier-than-input") ∧
      connectBlock mintEnv block2 (.ofHeader .sample block2.getBlockHeader false) chain view false = .ok r := by
  have hrun : ((mintChain 10).bind fun links => links.head?.map fun tip =>
      let block := splitBlock tip.block
      decide (block.stamped.reread = block.reread) &&
        (match connectBlock mintEnv block.stamped (.ofHeader .sample block.stamped.getBlockHeader false)
            (linkIndexes links) tip.after false with
          | .error e => decide (e = .invalid .blockConsensus "bad-txns-time-earlier-than-input")
          | .ok _ => false) &&
        holdsOk (fun _ => true) (connectBlock mintEnv block (.ofHeader .sample block.getBlockHeader false)
          (linkIndexes links) tip.after false)) = some true := by decide +kernel
  obtain ⟨links, hlinks, hrun⟩ := Option.bind_eq_some_iff.1 hrun
  obtain ⟨tip, rest, rfl, hnode⟩ := mintChain_nodeRun hlinks
  rw [List.head?_cons, Option.map_some, Option.some.injEq] at hrun
  simp only [Bool.and_eq_true, decide_eq_true_eq] at hrun
  obtain ⟨⟨hsame, herror⟩, hok⟩ := hrun
  obtain ⟨r, hr, -⟩ := holdsOk_iff.1 hok
  refine ⟨_, _, _, _, _, r, hnode, hsame, ?_, hr⟩
  generalize connectBlock mintEnv (splitBlock tip.block).stamped _ _ _ _ = x at herror ⊢
  cases x with
  | error e => rw [of_decide_eq_true herror]
  | ok r => cases herror

end CodexaCoin
