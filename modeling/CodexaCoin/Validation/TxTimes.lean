import CodexaCoin.Validation.Inflation

/-!
# Transaction times and the block they are in

`CheckBlock` compares the time of a coinstake with the header. The test on the other transactions stands after a `return`
and never runs, so that their times are whatever the block says, and so are those of the coins they create.
-/

namespace CodexaCoin

open Check Consensus CoinMap IndexChain

/-! ## One block -/

namespace CBlock

variable (block : CBlock)

/-- The unreachable test of `CheckBlock`, which would refuse the block with `bad-tx-time`. -/
def badTxTime (tx : CTransaction) : Bool :=
  decide (block.nTime < txTimeIn block tx)

/-- The transactions whose times `CheckBlock` does not compare with the header: all but the coinstake. -/
def timeUnchecked : List CTransaction :=
  if block.isProofOfStake then block.vtx.take 1 ++ block.vtx.drop 2 else block.vtx

/-- No transaction is later than the header. -/
def TimesBounded : Prop :=
  ∀ tx ∈ block.vtx, tx.nTime ≠ 0 → tx.nTime ≤ block.nTime

/-- The unreachable test would find nothing among the transactions that have no other time check. -/
def NoBadTxTime : Prop :=
  ∀ tx ∈ block.timeUnchecked, block.badTxTime tx = false

instance : Decidable block.NoBadTxTime := inferInstanceAs (Decidable (∀ tx ∈ block.timeUnchecked, _))

variable {block} {tx : CTransaction}

theorem badTxTime_eq_false : block.badTxTime tx = false ↔
    (tx.nTime ≠ 0 → tx.nTime ≤ block.nTime) := by
  unfold badTxTime txTimeIn
  rw [decide_eq_false_iff_not]
  by_cases h : tx.nTime = 0
  · simp [h]
  · rw [if_pos h]
    simp [h]

theorem mem_of_mem_timeUnchecked (h : tx ∈ block.timeUnchecked) : tx ∈ block.vtx := by
  unfold timeUnchecked at h
  split at h
  · rcases List.mem_append.1 h with h | h
    · exact List.mem_of_mem_take h
    · exact List.mem_of_mem_drop h
  · exact h

end CBlock

theorem nTime_le_of_checkCoinStakeTimestamp {net : Network} {block : CBlock} {tx : CTransaction}
    (h : checkCoinStakeTimestamp net block.nTime (txTimeIn block tx) = true) : tx.nTime ≤ block.nTime := by
  have heq : block.nTime = txTimeIn block tx := by
    unfold checkCoinStakeTimestamp at h
    split at h
    · exact (of_decide_eq_true h).1
    · exact of_decide_eq_true h
  unfold txTimeIn at heq
  split at heq <;> omega

/-- **The times of a block that passes `CheckBlock`.** -/
theorem CheckedBlock.timesBounded_iff {E : Env} {block : CBlock} (h : CheckedBlock E block) :
    block.TimesBounded ↔ block.NoBadTxTime := by
  constructor
  · exact fun hall tx htx => CBlock.badTxTime_eq_false.2 (hall tx (CBlock.mem_of_mem_timeUnchecked htx))
  · intro hnone tx htx
    cases hpos : block.isProofOfStake with
    | false => exact CBlock.badTxTime_eq_false.1 (hnone tx (by rwa [CBlock.timeUnchecked, hpos, if_neg (by simp)]))
    | true =>
      obtain ⟨tx0, tx1, rest, hvtx, -, -, hstamp⟩ := h.stake hpos
      have hunchecked : block.timeUnchecked = tx0 :: rest := by simp [CBlock.timeUnchecked, hpos, hvtx]
      rw [hvtx] at htx
      simp only [List.mem_cons] at htx
      rcases htx with rfl | rfl | hrest
      · exact CBlock.badTxTime_eq_false.1 (hnone tx (by simp [hunchecked]))
      · exact fun _ => nTime_le_of_checkCoinStakeTimestamp hstamp
      · exact CBlock.badTxTime_eq_false.1 (hnone tx (by simp [hunchecked, hrest]))

/-! ## Coins of a chain -/

/-- A coin of the chain that is not younger than its block. -/
structure Punctual (chain : IndexChain) (c : Coin) : Prop where
  height : c.nHeight < chain.length
  time : (c.nTime : Int) ≤ originTime chain c

def AllPunctual (chain : IndexChain) (m : CoinMap) : Prop :=
  ∀ o c, m.lookup o = some c → Punctual chain c

section Coins

variable {chain pprev : IndexChain} {pindex pindex' : CBlockIndex} {c : Coin} {m m' : CoinMap} {C : Crypto}
  {tx : CTransaction} {undo : CTxUndo}

theorem Punctual.next (h : Punctual pprev c) : Punctual (pindex :: pprev) c :=
  ⟨Nat.lt_succ_of_lt h.height, by rw [originTime_cons h.height]; exact h.time⟩

theorem Punctual.congr (htime : pindex.nTime = pindex'.nTime) (h : Punctual (pindex :: pprev) c) :
    Punctual (pindex' :: pprev) c :=
  ⟨h.height, originTime_congr pindex pindex' htime c ▸ h.time⟩

/-- **One block**: transactions no later than it leave punctual coins. -/
theorem Connected.punctual {E : Env} {block : CBlock} {view : CCoinsView} {r : ConnectResult} {nMax : Int}
    {s : ConnectState} (h : Connected E block pindex pprev view r nMax s) (hindex : pindex.nTime = block.nTime)
    (htimes : block.TimesBounded) (hm : AllPunctual pprev view.coins) : AllPunctual (pindex :: pprev) r.view.coins := by
  refine h.coins_induction (P := fun _ m => AllPunctual (pindex :: pprev) m) (fun o c hc => (hm o c hc).next) ?_
  intro _ tx m undo htx _ hm1
  refine Ledger.forall_apply hm1 fun kv hkv => ?_
  obtain ⟨out, -, hc⟩ := newItems_coin hkv
  obtain ⟨-, -, -, -, hheight, htime⟩ := newCoin_eq_some hc
  refine ⟨by rw [hheight]; simp, ?_⟩
  rw [originTime_self hheight, htime, hindex]
  by_cases h0 : tx.nTime = 0
  · omega
  · exact_mod_cast htimes tx htx h0

end Coins

/-! ## Chains -/

section Chain

variable {net : Network} {C : Crypto} {tip : ChainLink} {links : List ChainLink}

/-- **No coin of a chain is younger than its block**, if the unreachable test would have found nothing in any block. -/
theorem connectedChain_punctual (h : ConnectedChain net C links) (htimes : ∀ link ∈ links, link.block.NoBadTxTime) :
    ∀ tip ∈ links.head?, AllPunctual (linkIndexes links) tip.after.coins := by
  induction h with
  | genesis hnet hC h =>
    rintro tip ⟨⟩ o c hc
    subst hnet hC
    rw [connectBlock_genesis rfl h] at hc
    cases hc
  | @next tip links E block fProofOfStake r hlinks hnet hC hgenesis _ _ h ih =>
    rintro tip' ⟨⟩
    subst hnet hC
    have hold := ih (fun link hlink => htimes link (List.mem_cons_of_mem _ hlink)) tip rfl
    obtain ⟨nMax, s, hc⟩ := connectBlock_eq_ok hgenesis h
    have hbounded := hc.checked.timesBounded_iff.2 (htimes _ (List.mem_cons_self ..))
    intro o c hlook
    have hpunctual := hc.punctual rfl hbounded hold o c hlook
    exact Punctual.congr (by rfl) hpunctual

theorem connectedChain_nTime_le (h : ConnectedChain net C links) :
    ∀ tip ∈ links.head?, ∀ pindex ∈ linkIndexes links, pindex.nTime ≤ tip.block.nTime := by
  induction h with
  | genesis hnet hC h =>
    rintro tip ⟨⟩ pindex hp
    rw [List.mem_singleton.1 hp]
    exact le_refl _
  | @next tip links E block fProofOfStake r hlinks hnet hC hgenesis htime _ h ih =>
    rintro tip' ⟨⟩ pindex hp
    rcases List.mem_cons.1 hp with rfl | hp
    · exact le_refl _
    · exact (ih tip rfl pindex hp).trans htime.le

theorem Punctual.kernelTime_le {chain : IndexChain} {c : Coin} {t : Nat} (h : Punctual chain c)
    (hchain : ∀ pindex ∈ chain, pindex.nTime ≤ t) :
    ∃ blockFrom rest, getAncestor chain c.nHeight = blockFrom :: rest ∧ c.nTime ≤ blockFrom.nTime ∧
      ∀ nTimeTx ≥ t, coinKernelTime c blockFrom ≤ nTimeTx := by
  have hheight := h.height
  have htime := h.time
  have hne : getAncestor chain c.nHeight ≠ [] := by
    unfold getAncestor nHeight
    rw [if_neg (by omega)]
    simp only [ne_eq, List.drop_eq_nil_iff]
    omega
  obtain ⟨blockFrom, rest, hfrom⟩ := List.exists_cons_of_ne_nil hne
  have hmem : blockFrom ∈ chain := by
    have hsub : getAncestor chain c.nHeight ⊆ chain := by
      unfold getAncestor
      split
      · exact List.nil_subset _
      · exact List.drop_subset _ _
    exact hsub (by simp [hfrom])
  have horigin : originTime chain c = blockFrom.nTime := by rw [originTime, hfrom]
  have hle : c.nTime ≤ blockFrom.nTime := by omega
  refine ⟨blockFrom, rest, hfrom, hle, fun nTimeTx ht => ?_⟩
  have hblock := hchain blockFrom hmem
  unfold coinKernelTime
  split <;> omega

end Chain

theorem txTimes_bounded_iff (E : Env) (block : CBlock) (chainHeight : Int) (fCheckPOW fCheckMerkleRoot fCheckSig : Bool)
    (net : Network) (C : Crypto) (tip : ChainLink) (links : List ChainLink) :
    (checkBlock E block chainHeight fCheckPOW fCheckMerkleRoot fCheckSig = .ok () →
      (block.TimesBounded ↔ block.NoBadTxTime)) ∧
    (ConnectedChain net C (tip :: links) → (∀ link ∈ tip :: links, link.block.NoBadTxTime) →
      ∀ o c, tip.after.coins.lookup o = some c →
        ∃ blockFrom rest, getAncestor (linkIndexes (tip :: links)) c.nHeight = blockFrom :: rest ∧
          c.nTime ≤ blockFrom.nTime ∧ ∀ nTimeTx ≥ tip.block.nTime, coinKernelTime c blockFrom ≤ nTimeTx) := by
  constructor
  · intro h
    exact (checkBlock_eq_ok E h).timesBounded_iff
  · intro h htimes o c hc
    have hpunctual := connectedChain_punctual h htimes tip rfl o c hc
    exact hpunctual.kernelTime_le (connectedChain_nTime_le h tip rfl)

theorem mintChain_txTimes : (mintBlock 1 (Network.regtest.genesis .sample)).TimesBounded ∧
    ∃ tip links, ConnectedChain .regtest .sample (tip :: links) ∧ ∀ o c, tip.after.coins.lookup o = some c →
      ∃ blockFrom rest, getAncestor (linkIndexes (tip :: links)) c.nHeight = blockFrom :: rest ∧
        c.nTime ≤ blockFrom.nTime ∧ ∀ nTimeTx ≥ tip.block.nTime, coinKernelTime c blockFrom ≤ nTimeTx := by
  have hcheck : holdsOk (fun _ => true)
      (checkBlock mintEnv (mintBlock 1 (Network.regtest.genesis .sample)) 0 true true true) = true := by decide +kernel
  obtain ⟨⟨⟩, hok, -⟩ := holdsOk_iff.1 hcheck
  have hrun : (mintChain 2).any (fun links => decide (∀ link ∈ links, link.block.NoBadTxTime)) = true := by decide +kernel
  cases hlinks : mintChain 2 with
  | none =>
    rw [hlinks] at hrun
    cases hrun
  | some links =>
    rw [hlinks] at hrun
    have hchain := mintChain_connected hlinks
    have htimes : ∀ link ∈ links, link.block.NoBadTxTime := of_decide_eq_true hrun
    obtain ⟨tip, rest, rfl⟩ := hchain.exists_tip
    obtain ⟨hblock, hcoins⟩ := txTimes_bounded_iff mintEnv
      (mintBlock 1 (Network.regtest.genesis .sample)) 0 true true true
      .regtest .sample tip rest
    exact ⟨(hblock hok).2 (by decide +kernel), tip, rest, hchain, hcoins hchain htimes⟩

/-! ## A chain with a late coinbase -/

/-- A first block on the genesis block whose coinbase is stamped a day later than its header. -/
def lateBlock (prev : CBlock) : CBlock :=
  let coinbase := { mintCoinbase 1 ⟨281479271743489, mintScript⟩ with nVersion := 1, nTime := prev.nTime + 16 + 86400 }
  { hashPrevBlock := prev.getHash .sample
    hashMerkleRoot := (computeMerkleRoot .sample [coinbase.getHash .sample]).1
    nTime := prev.nTime + 16
    nBits := 0x207fffff
    vtx := [coinbase] }

/-- The late block and `n` proof-of-work blocks on top of it. -/
def lateChain : (n : Nat) → Option (List ChainLink)
  | 0 => (connectGenesis mintEnv).bind fun links =>
    links.head?.bind fun tip => connectNext mintEnv false (lateBlock tip.block) links
  | n + 1 => (lateChain n).bind fun links =>
    links.head?.bind fun tip => connectNext mintEnv false (mintBlock (n + 2) tip.block) links

theorem lateChain_connected {n : Nat} {links : List ChainLink} (h : lateChain n = some links) :
    ConnectedChain .regtest .sample links := by
  induction n generalizing links with
  | zero =>
    obtain ⟨links1, h1, h⟩ := Option.bind_eq_some_iff.1 h
    obtain ⟨tip, -, h⟩ := Option.bind_eq_some_iff.1 h
    exact connectNext_connected (E := mintEnv) (connectGenesis_connected h1) h
  | succ n ih =>
    obtain ⟨links1, h1, h⟩ := Option.bind_eq_some_iff.1 h
    obtain ⟨tip, -, h⟩ := Option.bind_eq_some_iff.1 h
    exact connectNext_connected (E := mintEnv) (ih h1) h

/-- Whether a coin of the tip of a chain is later than its block, mature, refused as a kernel sixteen seconds after the
tip, and would be accepted at the time of its block. -/
def lateCoinRefused (nBits : Nat) (o : COutPoint) : List ChainLink → Bool
  | [] => false
  | tip :: links =>
    let chain := linkIndexes (tip :: links)
    let t := tip.block.nTime + 16
    match tip.after.coins.lookup o with
    | none => false
    | some c =>
      match getAncestor chain c.nHeight with
      | [] => false
      | blockFrom :: _ =>
        decide (blockFrom.nTime < c.nTime ∧ nHeight chain + 1 - c.nHeight ≥ Network.regtest.params.nCoinbaseMaturity) &&
          !checkKernel .regtest .sample chain nBits t o tip.after.coins &&
          checkStakeKernelHash .sample tip.pindex.nStakeModifier nBits blockFrom.nTime c.out.nValue o t

theorem lateCoinRefused_iff {nBits : Nat} {o : COutPoint} {tip : ChainLink} {links : List ChainLink} :
    lateCoinRefused nBits o (tip :: links) = true ↔
      ∃ c blockFrom rest, tip.after.coins.lookup o = some c ∧
        getAncestor (linkIndexes (tip :: links)) c.nHeight = blockFrom :: rest ∧ blockFrom.nTime < c.nTime ∧
        nHeight (linkIndexes (tip :: links)) + 1 - c.nHeight ≥ Network.regtest.params.nCoinbaseMaturity ∧
        checkKernel .regtest .sample (linkIndexes (tip :: links)) nBits (tip.block.nTime + 16) o tip.after.coins = false ∧
        checkStakeKernelHash .sample tip.pindex.nStakeModifier nBits blockFrom.nTime c.out.nValue o
          (tip.block.nTime + 16) = true := by
  simp only [lateCoinRefused]
  cases hc : tip.after.coins.lookup o with
  | none => simp
  | some c =>
    dsimp only
    cases hfrom : getAncestor (linkIndexes (tip :: links)) c.nHeight with
    | nil => simp [hfrom]
    | cons blockFrom rest => simp [hfrom, and_assoc]

def lateOutpoint : COutPoint :=
  ⟨((lateBlock (Network.regtest.genesis .sample)).vtx.headD ⟨[], [], 2, 0, 0⟩).getHash .sample, 0⟩

/-- **A block with a coinbase of tomorrow passes `CheckBlock` and connects**, and when its coin is mature, no kernel of
the coin is accepted, although it would be at the time of its block. -/
theorem lateCoin_refused :
    (checkBlock mintEnv (lateBlock (Network.regtest.genesis .sample)) 0 true true true = .ok () ∧
      ¬(lateBlock (Network.regtest.genesis .sample)).TimesBounded) ∧
    ∃ tip links, ConnectedChain .regtest .sample (tip :: links) ∧
      ∃ c blockFrom rest, tip.after.coins.lookup lateOutpoint = some c ∧
        getAncestor (linkIndexes (tip :: links)) c.nHeight = blockFrom :: rest ∧ blockFrom.nTime < c.nTime ∧
        nHeight (linkIndexes (tip :: links)) + 1 - c.nHeight ≥ Network.regtest.params.nCoinbaseMaturity ∧
        checkKernel .regtest .sample (linkIndexes (tip :: links)) 0x1b00ffff (tip.block.nTime + 16) lateOutpoint
          tip.after.coins = false ∧
        checkStakeKernelHash .sample tip.pindex.nStakeModifier 0x1b00ffff blockFrom.nTime c.out.nValue lateOutpoint
          (tip.block.nTime + 16) = true := by
  have hcheck : holdsOk (fun _ => true)
      (checkBlock mintEnv (lateBlock (Network.regtest.genesis .sample)) 0 true true true) = true := by decide +kernel
  obtain ⟨⟨⟩, hok, -⟩ := holdsOk_iff.1 hcheck
  have hrun : (lateChain 9).any (lateCoinRefused 0x1b00ffff lateOutpoint) = true := by decide +kernel
  refine ⟨⟨hok, fun hall => ?_⟩, ?_⟩
  · have hle := hall _ (List.mem_cons_self ..) (by decide +kernel)
    revert hle
    decide +kernel
  · cases hlinks : lateChain 9 with
    | none =>
      rw [hlinks] at hrun
      cases hrun
    | some links =>
      rw [hlinks] at hrun
      cases links with
      | nil => cases hrun
      | cons tip links => exact ⟨tip, links, lateChain_connected hlinks, lateCoinRefused_iff.1 hrun⟩

end CodexaCoin
