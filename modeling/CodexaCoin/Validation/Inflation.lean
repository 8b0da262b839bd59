import CodexaCoin.Validation.Conservation

/-!
# The inflation bound

Every coin carries coin-seconds: its value times the age that `GetCoinstakeMaxReward` would count for it. Time adds the
whole supply to them, a new coin starts with none, and a coinstake loses those of its inputs, which is what its reward
cap is computed from.
-/

namespace CodexaCoin

open Check Consensus CoinMap IndexChain FinmapSum

/-! ## Chains connected block by block -/

/-- A block of a chain with its index entry and the coins before and after it. -/
structure ChainLink where
  block : CBlock
  pindex : CBlockIndex
  before : CCoinsView
  after : CCoinsView

/-- The index entry that `ConnectBlock` leaves for a block. -/
def connectedIndex (C : Crypto) (block : CBlock) (fProofOfStake : Bool) (r : ConnectResult) : CBlockIndex :=
  { CBlockIndex.ofHeader C block.getBlockHeader fProofOfStake with nStakeModifier := r.nStakeModifier }

def linkIndexes (links : List ChainLink) : IndexChain :=
  links.map (·.pindex)

/-- A chain that `ConnectBlock` has connected block by block from the genesis block on, tip first. Clocks, script
verification and the proof-of-stake flag of the index may differ from block to block; the times increase and are past
V3. Index entries are found by hash, so the genesis block has no second entry. -/
inductive ConnectedChain (net : Network) (C : Crypto) : List ChainLink → Prop
  | genesis {E : Env} {fProofOfStake : Bool} {r : ConnectResult} (hnet : E.net = net) (hC : E.crypto = C)
      (h : connectBlock E (net.genesis C) (.ofHeader C (net.genesis C).getBlockHeader fProofOfStake) [] ⟨∅, 0⟩ false
        = .ok r) :
      ConnectedChain net C [⟨net.genesis C, connectedIndex C (net.genesis C) fProofOfStake r, ⟨∅, 0⟩, r.view⟩]
  | next {tip : ChainLink} {links : List ChainLink} {E : Env} {block : CBlock} {fProofOfStake : Bool}
      {r : ConnectResult} (hlinks : ConnectedChain net C (tip :: links)) (hnet : E.net = net) (hC : E.crypto = C)
      (hgenesis : block.getHash C ≠ net.hashGenesisBlock C) (htime : tip.block.nTime < block.nTime)
      (hv3 : net.params.isProtocolV3 block.nTime = true)
      (h : connectBlock E block (.ofHeader C block.getBlockHeader fProofOfStake) (linkIndexes (tip :: links)) tip.after
        false = .ok r) :
      ConnectedChain net C (⟨block, connectedIndex C block fProofOfStake r, tip.after, r.view⟩ :: tip :: links)

def stakeCap (net : Network) (pprev : IndexChain) (m : CoinMap) (block : CBlock) : Int :=
  if block.isProofOfStake then rewardCap net pprev m block else 0

/-- The sum of the reward caps of the proof-of-stake blocks of a chain. -/
def stakeCaps (net : Network) : List ChainLink → Int
  | [] => 0
  | link :: links => stakeCaps net links + stakeCap net (linkIndexes links) link.before.coins link.block

/-- The supply after each block times the time to the next block, summed over a chain. -/
def supplySeconds : List ChainLink → Int
  | link :: prev :: links =>
    supplySeconds (prev :: links) + utxoTotal prev.after.coins * ((link.block.nTime : Int) - prev.block.nTime)
  | _ => 0

/-! ## Coin-seconds -/

def coinSeconds (chain : IndexChain) (t : Nat) (c : Coin) : Int :=
  c.value * ((t : Int) - originTime chain c)

/-- A coin of a chain at a time: its value is an amount and its block is on the chain and not later. -/
structure Seasoned (chain : IndexChain) (t : Nat) (c : Coin) : Prop where
  range : moneyRange c.value = true
  height : c.nHeight < chain.length
  origin : originTime chain c ≤ t

def AllSeasoned (chain : IndexChain) (t : Nat) (m : CoinMap) : Prop :=
  ∀ o c, m.lookup o = some c → Seasoned chain t c

section Coins

variable {chain pprev : IndexChain} {pindex : CBlockIndex} {t : Nat} {c : Coin} {m m' : CoinMap} {C : Crypto}
  {tx : CTransaction} {undo : CTxUndo}

theorem Seasoned.coinSeconds_nonneg (h : Seasoned chain t c) : 0 ≤ coinSeconds chain t c :=
  mul_nonneg (moneyRange_iff.1 h.range).1 (by have := h.origin; omega)

theorem originTime_self (h : c.nHeight = pprev.length) : originTime (pindex :: pprev) c = pindex.nTime := by
  unfold originTime getAncestor nHeight
  rw [if_neg (by simp; omega)]
  simp [h]

theorem originTime_cons (h : c.nHeight < pprev.length) : originTime (pindex :: pprev) c = originTime pprev c := by
  unfold originTime getAncestor nHeight
  rw [if_neg (by simp; omega), if_neg (by omega)]
  have hdrop : (pindex :: pprev).length - 1 - (c.nHeight : Int).toNat =
      (pprev.length - 1 - (c.nHeight : Int).toNat) + 1 := by
    simp; omega
  rw [hdrop, List.drop_succ_cons]

theorem newItems_seasoned {txid : Uint256} {kv : COutPoint × Coin} (hout : ∀ out ∈ tx.vout, moneyRange out.nValue = true)
    (h : kv ∈ newItems txid tx pprev.length 0 tx.vout) :
    Seasoned (pindex :: pprev) pindex.nTime kv.2 ∧ coinSeconds (pindex :: pprev) pindex.nTime kv.2 = 0 := by
  obtain ⟨out, hmem, hc⟩ := newItems_coin h
  obtain ⟨-, hval, -, -, hheight, -⟩ := newCoin_eq_some hc
  have horigin : originTime (pindex :: pprev) kv.2 = pindex.nTime := originTime_self hheight
  constructor
  · exact ⟨by rw [Coin.value, hval]; exact hout out hmem, by rw [hheight]; simp, le_of_eq horigin⟩
  · rw [coinSeconds, horigin]
    simp

theorem coinSeconds_apply (hm' : m' = (tx.entry C pprev.length).apply m)
    (hvalid : Ledger.Valid m (tx.entry C pprev.length) undo) (hout : ∀ out ∈ tx.vout, moneyRange out.nValue = true)
    (hm : AllSeasoned (pindex :: pprev) pindex.nTime m) :
    AllSeasoned (pindex :: pprev) pindex.nTime m' ∧
      Ledger.total (coinSeconds (pindex :: pprev) pindex.nTime) m' =
        Ledger.total (coinSeconds (pindex :: pprev) pindex.nTime) m -
          (undo.map (coinSeconds (pindex :: pprev) pindex.nTime)).sum := by
  have hnew : ∀ kv ∈ (tx.entry C pprev.length).creates, Seasoned (pindex :: pprev) pindex.nTime kv.2 ∧
      coinSeconds (pindex :: pprev) pindex.nTime kv.2 = 0 := fun kv hkv => newItems_seasoned hout hkv
  subst hm'
  constructor
  · exact Ledger.forall_apply hm fun kv hkv => (hnew kv hkv).1
  · have hzero : ((tx.entry C pprev.length).creates.map fun kv => coinSeconds (pindex :: pprev) pindex.nTime kv.2).sum
        = 0 := List.sum_eq_zero fun x hx => by
      obtain ⟨kv, hkv, rfl⟩ := List.mem_map.1 hx
      exact (hnew kv hkv).2
    rw [Ledger.total_apply _ hvalid, hzero, add_zero]

theorem undo_coinSeconds_nonneg {ks : List COutPoint} (hm : AllSeasoned chain t m)
    (h : List.Forall₂ (fun o c => m.lookup o = some c) ks undo) : 0 ≤ (undo.map (coinSeconds chain t)).sum := by
  refine List.sum_nonneg fun x hx => ?_
  obtain ⟨c, hc, rfl⟩ := List.mem_map.1 hx
  obtain ⟨o, -, ho⟩ := exists_of_mem_of_forall₂ h.flip hc
  exact (hm o c ho).coinSeconds_nonneg

end Coins

/-! ## One block -/

section Block

variable {E : Env} {block : CBlock} {pindex : CBlockIndex} {pprev : IndexChain} {view : CCoinsView} {r : ConnectResult}
  {nMax : Int} {s s' s1 : ConnectState} {flags : ScriptFlags} {tx : CTransaction} {txs : List CTransaction}
  {undo : CTxUndo} {t : Nat}

theorem connectLoop_coinSeconds (hcb : ∀ tx ∈ txs, tx.isCoinBase = false)
    (hout : ∀ tx ∈ txs, ∀ out ∈ tx.vout, moneyRange out.nValue = true)
    (hm : AllSeasoned (pindex :: pprev) pindex.nTime s.coins)
    (h : txs.foldlM (connectTx E (pindex :: pprev) flags) s = .ok s') :
    AllSeasoned (pindex :: pprev) pindex.nTime s'.coins ∧
      Ledger.total (coinSeconds (pindex :: pprev) pindex.nTime) s'.coins ≤
        Ledger.total (coinSeconds (pindex :: pprev) pindex.nTime) s.coins := by
  refine foldlM_invariant (fun s' : ConnectState => AllSeasoned (pindex :: pprev) pindex.nTime s'.coins ∧
    Ledger.total (coinSeconds (pindex :: pprev) pindex.nTime) s'.coins ≤
      Ledger.total (coinSeconds (pindex :: pprev) pindex.nTime) s.coins) ?_ ⟨hm, le_refl _⟩ h
  rintro s1 tx s2 htx ⟨hm1, hle⟩ hstep
  obtain ⟨undo, hcoins, hvalid, -⟩ := connectTx_entry (by simp [hcb tx htx]) hstep
  obtain ⟨hm2, htotal⟩ := coinSeconds_apply hcoins hvalid (hout tx htx) hm1
  have hlost := undo_coinSeconds_nonneg hm1 hvalid.spends_lookup
  exact ⟨hm2, by omega⟩

theorem inputReward_le_coinSeconds {net : Network} {txin : CTxIn} {c : Coin}
    (hkeep : ∀ c', view.coins.lookup txin.prevout = some c' → c' = c ∧ c.nHeight < pprev.length)
    (hc : Seasoned (pindex :: pprev) t c) :
    inputReward net pprev view.coins t txin * (10000 * secondsPerYear) ≤ coinSeconds (pindex :: pprev) t c * 1368 := by
  have hnonneg := hc.coinSeconds_nonneg
  unfold inputReward getCoin
  cases hlook : view.coins.lookup txin.prevout with
  | none => exact (zero_mul (10000 * secondsPerYear)).trans_le (by omega)
  | some c' =>
    obtain ⟨rfl, hheight⟩ := hkeep c' hlook
    have hrange := moneyRange_iff.1 hc.range
    have horigin := hc.origin
    rw [originTime_cons hheight] at horigin
    refine (computeCoinAgeReward_mul_le net hrange.1 hrange.2).trans (le_of_eq ?_)
    rw [coinSeconds, originTime_cons hheight, max_eq_left (by omega)]

theorem maxReward_le_coinSeconds (net : Network) {vin : List CTxIn}
    (hkeep : ∀ o c, view.coins.lookup o = some c → s.coins.lookup o = some c ∧ c.nHeight < pprev.length)
    (hm : AllSeasoned (pindex :: pprev) t s.coins)
    (h : List.Forall₂ (fun o c => s.coins.lookup o = some c) (vin.map (·.prevout)) undo) :
    (vin.map (inputReward net pprev view.coins t)).sum * (10000 * secondsPerYear) ≤
      (undo.map (coinSeconds (pindex :: pprev) t)).sum * 1368 := by
  induction vin generalizing undo with
  | nil => cases h; simp
  | cons txin vin ih =>
    cases h with
    | @cons _ c _ undo hc hrest =>
      have hone : inputReward net pprev view.coins t txin * (10000 * secondsPerYear) ≤
          coinSeconds (pindex :: pprev) t c * 1368 := by
        refine inputReward_le_coinSeconds (fun c' hc' => ?_) (hm _ c hc)
        obtain ⟨hlook, hheight⟩ := hkeep _ c' hc'
        rw [hc] at hlook
        cases hlook
        exact ⟨rfl, hheight⟩
      rw [List.map_cons, List.sum_cons, List.map_cons, List.sum_cons, add_mul, add_mul]
      exact add_le_add hone (ih hrest)

/-- **One block**: the coins stay those of the chain, and the cap of the coinstake is paid from coin-seconds. -/
theorem connected_coinSeconds (h : Connected E block pindex pprev view r nMax s) (htime : pindex.nTime = block.nTime)
    (hv3 : E.net.params.isProtocolV3 block.nTime = true) (hm : AllSeasoned (pindex :: pprev) pindex.nTime view.coins)
    (hold : ∀ o c, view.coins.lookup o = some c → c.nHeight < pprev.length) :
    AllSeasoned (pindex :: pprev) pindex.nTime r.view.coins ∧
      stakeCap E.net pprev view.coins block * (10000 * secondsPerYear) +
          Ledger.total (coinSeconds (pindex :: pprev) pindex.nTime) r.view.coins * 1368 ≤
        Ledger.total (coinSeconds (pindex :: pprev) pindex.nTime) view.coins * 1368 := by
  obtain ⟨tx0, rest, hvtx, hcb, hrest⟩ := h.checked.head
  have hout : ∀ tx ∈ tx0 :: rest, ∀ out ∈ tx.vout, moneyRange out.nValue = true := fun tx htx =>
    (h.checked.txs tx (hvtx ▸ htx)).out_range
  have hloop := h.loop
  rw [hvtx] at hloop
  obtain ⟨s1, h1, h2⟩ := foldlM_cons_eq_ok.1 hloop
  obtain ⟨undo0, hcoins1, hvalid0, -⟩ := connectTx_entry (fun _ => h.fresh tx0 (by simp [hvtx])) h1
  obtain ⟨hm1, htotal1⟩ := coinSeconds_apply (m := view.coins) hcoins1 hvalid0 (hout tx0 (List.mem_cons_self ..)) hm
  have hlost0 := undo_coinSeconds_nonneg hm hvalid0.spends_lookup
  rw [h.coins]
  cases hpos : block.isProofOfStake with
  | false =>
    obtain ⟨hm', hle⟩ := connectLoop_coinSeconds hrest (fun tx htx => hout tx (List.mem_cons_of_mem _ htx)) hm1 h2
    refine ⟨hm', ?_⟩
    rw [stakeCap, hpos, if_neg (by simp), zero_mul]
    omega
  | true =>
    obtain ⟨tx0', tx1, rest', hvtx', -, -, hstamp⟩ := h.checked.stake hpos
    rw [hvtx] at hvtx'
    cases hvtx'
    -- the coinstake comes right after the coinbase, which leaves the coins of the view alone
    obtain ⟨s2, h2, h3⟩ := foldlM_cons_eq_ok.1 h2
    have hcb1 : tx1.isCoinBase = false := hrest tx1 (List.mem_cons_self ..)
    obtain ⟨undo1, hcoins2, hvalid1, -⟩ := connectTx_entry (by simp [hcb1]) h2
    obtain ⟨hm2, htotal2⟩ := coinSeconds_apply hcoins2 hvalid1 (hout tx1 (by simp)) hm1
    obtain ⟨hm', hle⟩ := connectLoop_coinSeconds (fun tx htx => hrest tx (List.mem_cons_of_mem _ htx))
      (fun tx htx => hout tx (by simp [htx])) hm2 h3
    refine ⟨hm', ?_⟩
    have htx1 : txTimeIn block tx1 = pindex.nTime := by
      rw [checkCoinStakeTimestamp, if_pos (Network.isProtocolV2_of_isProtocolV3 _ hv3)] at hstamp
      rw [htime, ← (of_decide_eq_true hstamp).1]
    have hkeep : ∀ o c, view.coins.lookup o = some c → s1.coins.lookup o = some c ∧ c.nHeight < pprev.length := by
      intro o c hc
      refine ⟨?_, hold o c hc⟩
      rw [hcoins1]
      exact hvalid0.lookup_apply (by simp [CTransaction.entry, hcb]) hc
    have hspent := hvalid1.spends_lookup
    simp only [CTransaction.entry, hcb1, Bool.false_eq_true, if_false] at hspent
    have hcap := maxReward_le_coinSeconds E.net hkeep hm1 hspent
    have hexact := getCoinstakeMaxReward_le E.net pprev tx1 view.coins pindex.nTime
    have hdenom : (0 : Int) ≤ 10000 * secondsPerYear := by decide
    have hcap' := (mul_le_mul_of_nonneg_right hexact hdenom).trans hcap
    rw [stakeCap, if_pos hpos, rewardCap, if_pos hpos, hvtx]
    simp only [List.getElem?_cons_succ, List.getElem?_cons_zero, htx1]
    omega

end Block

/-! ## A whole chain -/

section Chain

variable {net : Network} {C : Crypto} {E : Env} {block : CBlock} {pindex pindex' : CBlockIndex} {pprev : IndexChain}
  {view : CCoinsView} {r : ConnectResult} {tip : ChainLink} {links : List ChainLink} {m : CoinMap} {t t' : Nat}

theorem ConnectedChain.exists_tip (h : ConnectedChain net C links) : ∃ tip rest, links = tip :: rest := by
  cases h
  · exact ⟨_, _, rfl⟩
  · exact ⟨_, _, rfl⟩

theorem connectBlock_genesis (hg : block.getHash E.crypto = E.net.hashGenesisBlock E.crypto)
    (h : connectBlock E block pindex pprev view false = .ok r) : r.view.coins = view.coins := by
  obtain ⟨-, h⟩ := require_bind_eq_ok.1 h
  obtain ⟨-, h⟩ := require_bind_eq_ok.1 h
  obtain ⟨⟨⟩, -, h⟩ := bind_eq_ok.1 h
  obtain ⟨-, h⟩ := require_bind_eq_ok.1 h
  obtain ⟨nMax, -, h⟩ := bind_eq_ok.1 h
  rw [if_pos hg] at h
  cases h
  rfl

theorem originTime_congr (pindex pindex' : CBlockIndex) (h : pindex.nTime = pindex'.nTime) (c : Coin) :
    originTime (pindex :: pprev) c = originTime (pindex' :: pprev) c := by
  rcases Nat.lt_trichotomy c.nHeight pprev.length with hlt | heq | hgt
  · rw [originTime_cons hlt, originTime_cons hlt]
  · rw [originTime_self heq, originTime_self heq, h]
  · have hnone : ∀ p : CBlockIndex, originTime (p :: pprev) c = 0 := by
      intro p
      unfold originTime getAncestor nHeight
      rw [if_pos (by simp; omega)]
    rw [hnone, hnone]

theorem Seasoned.congr {c : Coin} (h : pindex.nTime = pindex'.nTime) (hc : Seasoned (pindex :: pprev) t c) :
    Seasoned (pindex' :: pprev) t c :=
  ⟨hc.range, hc.height, originTime_congr pindex pindex' h c ▸ hc.origin⟩

theorem Seasoned.next {c : Coin} (ht : t ≤ t') (hc : Seasoned pprev t c) : Seasoned (pindex :: pprev) t' c := by
  have horigin := hc.origin
  refine ⟨hc.range, Nat.lt_succ_of_lt hc.height, ?_⟩
  rw [originTime_cons hc.height]
  omega

theorem total_coinSeconds_next (pindex : CBlockIndex) (t' : Nat) (hm : AllSeasoned pprev t m) :
    Ledger.total (coinSeconds (pindex :: pprev) t') m =
      Ledger.total (coinSeconds pprev t) m + utxoTotal m * ((t' : Int) - t) := by
  have hsplit : Ledger.total (coinSeconds (pindex :: pprev) t') m =
      wsum (fun _ c => coinSeconds pprev t c + c.value * ((t' : Int) - t)) m := by
    refine wsum_congr fun o c hc => ?_
    rw [coinSeconds, coinSeconds, originTime_cons (hm o c hc).height]
    ring
  rw [hsplit, wsum_add, wsum_mul_right]
  rfl

/-- What every connected chain keeps: its coins are coins of the chain, and the caps so far together with the
coin-seconds that are left are covered by the supply over time. -/
structure Budget (net : Network) (tip : ChainLink) (links : List ChainLink) : Prop where
  seasoned : AllSeasoned (linkIndexes (tip :: links)) tip.block.nTime tip.after.coins
  covered : stakeCaps net (tip :: links) * (10000 * secondsPerYear) +
      Ledger.total (coinSeconds (linkIndexes (tip :: links)) tip.block.nTime) tip.after.coins * 1368 ≤
    supplySeconds (tip :: links) * 1368

theorem budget_genesis {pindex : CBlockIndex} {before after : CCoinsView} (hafter : after.coins = ∅) :
    Budget net ⟨net.genesis C, pindex, before, after⟩ [] := by
  refine ⟨?_, ?_⟩
  · intro o c hc
    rw [hafter] at hc
    cases hc
  · have hpos : (net.genesis C).isProofOfStake = false := rfl
    simp [hafter, stakeCaps, stakeCap, hpos, supplySeconds]

theorem budget_next {fProofOfStake : Bool} (hb : Budget E.net tip links)
    (hgenesis : block.getHash E.crypto ≠ E.net.hashGenesisBlock E.crypto) (htime : tip.block.nTime < block.nTime)
    (hv3 : E.net.params.isProtocolV3 block.nTime = true)
    (h : connectBlock E block (.ofHeader E.crypto block.getBlockHeader fProofOfStake) (linkIndexes (tip :: links))
      tip.after false = .ok r) :
    Budget E.net ⟨block, connectedIndex E.crypto block fProofOfStake r, tip.after, r.view⟩ (tip :: links) := by
  obtain ⟨nMax, s, hc⟩ := connectBlock_eq_ok hgenesis h
  have hm : AllSeasoned (.ofHeader E.crypto block.getBlockHeader fProofOfStake :: linkIndexes (tip :: links)) block.nTime
      tip.after.coins := fun o c hlook => (hb.seasoned o c hlook).next htime.le
  obtain ⟨hseasoned, hpaid⟩ := connected_coinSeconds hc rfl hv3 hm fun o c hlook => (hb.seasoned o c hlook).height
  have hgrow := total_coinSeconds_next (.ofHeader E.crypto block.getBlockHeader fProofOfStake) block.nTime hb.seasoned
  -- the entry that stays in the chain differs by its stake modifier alone
  have hsame : coinSeconds (connectedIndex E.crypto block fProofOfStake r :: linkIndexes (tip :: links)) block.nTime =
      coinSeconds (.ofHeader E.crypto block.getBlockHeader fProofOfStake :: linkIndexes (tip :: links)) block.nTime := by
    funext c
    rw [coinSeconds, coinSeconds, originTime_congr (connectedIndex E.crypto block fProofOfStake r)
      (.ofHeader E.crypto block.getBlockHeader fProofOfStake) rfl]
  have hkept : AllSeasoned (connectedIndex E.crypto block fProofOfStake r :: linkIndexes (tip :: links)) block.nTime
      r.view.coins := by
    intro o c hlook
    have hc := hseasoned o c hlook
    exact Seasoned.congr (by rfl) hc
  refine ⟨hkept, ?_⟩
  have hcovered := hb.covered
  show (stakeCaps E.net (tip :: links) + stakeCap E.net (linkIndexes (tip :: links)) tip.after.coins block) *
      (10000 * secondsPerYear) + Ledger.total (coinSeconds (connectedIndex E.crypto block fProofOfStake r ::
        linkIndexes (tip :: links)) block.nTime) r.view.coins * 1368 ≤
    (supplySeconds (tip :: links) + utxoTotal tip.after.coins * ((block.nTime : Int) - tip.block.nTime)) * 1368
  change stakeCap E.net _ tip.after.coins block * _ + Ledger.total (coinSeconds _ block.nTime) _ * 1368 ≤
    Ledger.total (coinSeconds _ block.nTime) _ * 1368 at hpaid
  rw [hsame, add_mul, add_mul]
  rw [hgrow, add_mul] at hpaid
  omega

theorem connectedChain_budget {link : ChainLink} (h : ConnectedChain net C (link :: links)) : Budget net link links := by
  generalize hall : link :: links = all at h
  induction h generalizing link links with
  | genesis hnet hC h =>
    cases hall
    subst hnet hC
    exact budget_genesis (connectBlock_genesis rfl h)
  | next _ hnet hC hgenesis htime hv3 h ih =>
    cases hall
    subst hnet hC
    exact budget_next (ih rfl) hgenesis htime hv3 h

theorem stakeCaps_le (h : ConnectedChain net C links) :
    stakeCaps net links ≤ net.params.nStakeRewardAnnualBP * supplySeconds links / (10000 * secondsPerYear) := by
  obtain ⟨tip, rest, rfl⟩ := h.exists_tip
  obtain ⟨hseasoned, hcovered⟩ := connectedChain_budget h
  have hleft : 0 ≤ Ledger.total (coinSeconds (linkIndexes (tip :: rest)) tip.block.nTime) tip.after.coins :=
    wsum_nonneg fun o c hc => (hseasoned o c hc).coinSeconds_nonneg
  rw [(params_stakeReward net).1]
  refine Int.le_ediv_of_mul_le (by decide) ?_
  rw [mul_comm 1368]
  omega

end Chain

/-! ## A chain with a coinstake

Ten proof-of-work blocks on regtest and a coinstake that spends the first coinbase at the first mature height. -/

def connectGenesis (E : Env) : Option (List ChainLink) :=
  let block := E.net.genesis E.crypto
  match connectBlock E block (.ofHeader E.crypto block.getBlockHeader false) [] ⟨∅, 0⟩ false with
  | .ok r => some [⟨block, connectedIndex E.crypto block false r, ⟨∅, 0⟩, r.view⟩]
  | .error _ => none

/-- Extend a chain by a block, if `ConnectBlock` connects it. -/
def connectNext (E : Env) (fProofOfStake : Bool) (block : CBlock) : List ChainLink → Option (List ChainLink)
  | [] => none
  | tip :: links =>
    if block.getHash E.crypto ≠ E.net.hashGenesisBlock E.crypto ∧ tip.block.nTime < block.nTime ∧
        E.net.params.isProtocolV3 block.nTime = true then
      match connectBlock E block (.ofHeader E.crypto block.getBlockHeader fProofOfStake) (linkIndexes (tip :: links))
          tip.after false with
      | .ok r => some (⟨block, connectedIndex E.crypto block fProofOfStake r, tip.after, r.view⟩ :: tip :: links)
      | .error _ => none
    else none

theorem connectGenesis_connected {E : Env} {links : List ChainLink} (h : connectGenesis E = some links) :
    ConnectedChain E.net E.crypto links := by
  simp only [connectGenesis] at h
  split at h
  · next r hr => cases h; exact .genesis rfl rfl hr
  · cases h

theorem connectNext_connected {E : Env} {fProofOfStake : Bool} {block : CBlock} {links links' : List ChainLink}
    (hlinks : ConnectedChain E.net E.crypto links) (h : connectNext E fProofOfStake block links = some links') :
    ConnectedChain E.net E.crypto links' := by
  unfold connectNext at h
  split at h
  · cases h
  · split at h
    · next hcond =>
      split at h
      · next r hr => cases h; exact .next hlinks rfl rfl hcond.1 hcond.2.1 hcond.2.2 hr
      · cases h
    · cases h

def mintScript : CScript := 33 :: 2 :: List.replicate 32 7 ++ [opChecksig]

def mintCoinbase (nHeight : Nat) (out : CTxOut) : CTransaction where
  vin := [{ prevout := .null, scriptSig := [1, UInt8.ofNat nHeight] }]
  vout := [out]
  nVersion := 2

/-- A proof-of-work block at a height, which pays part of the subsidy. -/
def mintBlock (nHeight : Nat) (prev : CBlock) : CBlock :=
  let coinbase := mintCoinbase nHeight ⟨281479271743489, mintScript⟩
  { hashPrevBlock := prev.getHash .sample
    hashMerkleRoot := (computeMerkleRoot .sample [coinbase.getHash .sample]).1
    nTime := prev.nTime + 16
    nBits := 0x207fffff
    vtx := [coinbase] }

/-- A proof-of-stake block that stakes the first coinbase. -/
def stakeBlock (prev : CBlock) : CBlock :=
  let coinbase := mintCoinbase 11 ⟨0, []⟩
  let prevout := ⟨(mintCoinbase 1 ⟨281479271743489, mintScript⟩).getHash .sample, 0⟩
  let coinstake : CTransaction :=
    { vin := [{ prevout := prevout, scriptSig := [] }], vout := [⟨0, []⟩, ⟨281479271743489, mintScript⟩]
      nVersion := 2 }
  { hashPrevBlock := prev.getHash .sample
    hashMerkleRoot := (computeMerkleRoot .sample [coinbase.getHash .sample, coinstake.getHash .sample]).1
    nTime := prev.nTime + 16
    nBits := 0x1b00ffff
    vtx := [coinbase, coinstake]
    vchBlockSig := [1] }

def mintEnv : Env := .sample .regtest 1785330000

/-- A chain of `n` proof-of-work blocks after the genesis block. -/
def mintChain : (n : Nat) → Option (List ChainLink)
  | 0 => connectGenesis mintEnv
  | n + 1 => (mintChain n).bind fun links =>
    links.head?.bind fun tip => connectNext mintEnv false (mintBlock (n + 1) tip.block) links

def stakeChain : Option (List ChainLink) :=
  (mintChain 10).bind fun links => links.head?.bind fun tip => connectNext mintEnv true (stakeBlock tip.block) links

theorem mintChain_connected {n : Nat} {links : List ChainLink} (h : mintChain n = some links) :
    ConnectedChain .regtest .sample links := by
  induction n generalizing links with
  | zero => exact connectGenesis_connected h
  | succ n ih =>
    obtain ⟨links1, h1, h⟩ := Option.bind_eq_some_iff.1 h
    obtain ⟨tip, -, h⟩ := Option.bind_eq_some_iff.1 h
    exact connectNext_connected (E := mintEnv) (ih h1) h

theorem stakeChain_connected {links : List ChainLink} (h : stakeChain = some links) :
    ConnectedChain .regtest .sample links := by
  obtain ⟨links1, h1, h⟩ := Option.bind_eq_some_iff.1 h
  obtain ⟨tip, -, h⟩ := Option.bind_eq_some_iff.1 h
  exact connectNext_connected (E := mintEnv) (mintChain_connected h1) h

theorem stakeChain_inflation : ∃ links, ConnectedChain .regtest .sample links ∧ 0 < stakeCaps .regtest links ∧
    stakeCaps .regtest links ≤
      Network.regtest.params.nStakeRewardAnnualBP * supplySeconds links / (10000 * secondsPerYear) := by
  have hrun : stakeChain.any (fun links => decide (0 < stakeCaps .regtest links)) = true := by decide +kernel
  cases hlinks : stakeChain with
  | none =>
    rw [hlinks] at hrun
    cases hrun
  | some links =>
    rw [hlinks] at hrun
    have hchain := stakeChain_connected hlinks
    exact ⟨links, hchain, of_decide_eq_true hrun, stakeCaps_le hchain⟩

end CodexaCoin
