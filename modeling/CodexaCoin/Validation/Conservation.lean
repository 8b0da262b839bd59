import CodexaCoin.Validation.ConnectBlock

/-!
# What connecting a block does to the money supply

The loop of `ConnectBlock` is a replay of the block's ledger entries. Summing over it gives the exact change of the
total value of all coins:
-/

namespace CodexaCoin

open Check Consensus CoinMap IndexChain

/-! ## Fees, gains and burnt value -/

def Coin.value (c : Coin) : Int := c.out.nValue

def utxoTotal (m : CoinMap) : Int := Ledger.total Coin.value m

def txFee (m : CoinMap) (tx : CTransaction) : Int :=
  if tx.isCoinBase || tx.isCoinStake then 0 else m.valueIn tx - tx.valueOut

def stakeGain (m : CoinMap) (tx : CTransaction) : Int :=
  if tx.isCoinStake then tx.valueOut - m.valueIn tx else 0

def burnt (tx : CTransaction) : Int :=
  ((tx.vout.filter fun out => isUnspendable out.scriptPubKey).map (·.nValue)).sum

def blockFees (C : Crypto) (nHeight : Nat) (m : CoinMap) (txs : List CTransaction) : Int :=
  Ledger.sumReplay (CTransaction.entry C nHeight) txFee m txs

def blockStakeGain (C : Crypto) (nHeight : Nat) (m : CoinMap) (txs : List CTransaction) : Int :=
  Ledger.sumReplay (CTransaction.entry C nHeight) stakeGain m txs

def blockBurnt (txs : List CTransaction) : Int :=
  (txs.map burnt).sum

theorem blockStakeGain_eq_zero (C : Crypto) (nHeight : Nat) (m : CoinMap) {txs : List CTransaction}
    (hcs : ∀ tx ∈ txs, tx.isCoinStake = false) : blockStakeGain C nHeight m txs = 0 := by
  unfold blockStakeGain
  induction txs generalizing m with
  | nil => rfl
  | cons tx txs ih =>
    rw [Ledger.sumReplay, ih _ fun tx' htx' => hcs tx' (List.mem_cons_of_mem tx htx'), stakeGain,
      hcs tx List.mem_cons_self, if_neg Bool.false_ne_true, add_zero]

/-! ## One transaction -/

section Step

variable {E : Env} {chain : IndexChain} {flags : ScriptFlags} {s s' : ConnectState} {tx : CTransaction} {m : CoinMap}
  {C : Crypto} {nHeight : Nat} {undo : CTxUndo}

theorem newItems_value {txid : Uint256} {i : Nat} {vout : List CTxOut} (h : ∀ out ∈ vout, out.nValue ≠ -1) :
    ((newItems txid tx nHeight i vout).map fun kv => kv.2.value).sum =
      (vout.map (·.nValue)).sum - ((vout.filter fun out => isUnspendable out.scriptPubKey).map (·.nValue)).sum := by
  have hspendable : ∀ kv ∈ newItems txid tx nHeight i vout,
      kv.2.value = if isUnspendable kv.2.out.scriptPubKey then 0 else kv.2.out.nValue := by
    intro kv hkv
    obtain ⟨out, -, hc⟩ := newItems_coin hkv
    obtain ⟨hu, hout, -⟩ := newCoin_eq_some hc
    simp [Coin.value, hout, hu]
  rw [List.map_congr_left hspendable, sum_newItems
    (f := fun out => if isUnspendable out.scriptPubKey then 0 else out.nValue) h fun out hu => if_pos hu]
  clear h hspendable
  induction vout with
  | nil => rfl
  | cons out vout ih =>
    cases hu : isUnspendable out.scriptPubKey <;> simp [hu, ih]; omega

theorem undo_value (h : List.Forall₂ (fun o c => m.lookup o = some c) (tx.vin.map (·.prevout)) undo) :
    (undo.map Coin.value).sum = m.valueIn tx := by
  unfold CoinMap.valueIn
  generalize tx.vin = vin at h
  induction vin generalizing undo with
  | nil => cases h; rfl
  | cons txin vin ih =>
    cases h with
    | cons hc hrest =>
      rw [List.map_cons, List.sum_cons, List.map_cons, List.sum_cons, ih hrest]
      rw [inputValue, inputValueOr_eq hc, Coin.value]

theorem utxoTotal_apply (hvalid : Ledger.Valid m (tx.entry C nHeight) undo) (hvalues : ∀ out ∈ tx.vout, out.nValue ≠ -1) :
    utxoTotal ((tx.entry C nHeight).apply m) =
      utxoTotal m - (if tx.isCoinBase then 0 else m.valueIn tx) + tx.valueOut - burnt tx := by
  have hcreated : ((tx.entry C nHeight).creates.map fun kv => kv.2.value).sum = tx.valueOut - burnt tx :=
    newItems_value hvalues
  have hspent : (undo.map Coin.value).sum = if tx.isCoinBase then 0 else m.valueIn tx := by
    have hlook := hvalid.spends_lookup
    cases hcb : tx.isCoinBase with
    | true =>
      simp only [CTransaction.entry, hcb, if_true, List.map_nil, List.forall₂_nil_left_iff] at hlook
      simp [hlook]
    | false =>
      simp only [CTransaction.entry, hcb, Bool.false_eq_true, if_false] at hlook
      simpa using undo_value hlook
  rw [utxoTotal, utxoTotal, Ledger.total_apply Coin.value hvalid, hcreated, hspent]
  omega

theorem connectTx_ledger (hcb : tx.isCoinBase = false) (h : connectTx E chain flags s tx = .ok s') :
    s'.coins = (tx.entry E.crypto (chain.length - 1)).apply s.coins ∧
      utxoTotal s'.coins = utxoTotal s.coins - txFee s.coins tx + stakeGain s.coins tx - burnt tx ∧
      0 ≤ txFee s.coins tx ∧
      (-2 ^ 63 ≤ s.nFees → -2 ^ 63 ≤ s'.nFees ∧ ∃ j : Nat, s'.nFees + 2 ^ 64 * j = s.nFees + 2 * txFee s.coins tx) ∧
      s'.nActualStakeReward = if tx.isCoinStake then stakeGain s.coins tx else s.nActualStakeReward := by
  obtain ⟨-, -, hstep⟩ := connectTx_eq_ok h
  obtain ⟨fee, -, hstep⟩ := hstep hcb
  obtain ⟨undo, hcoins, hvalid, hvalues⟩ := connectTx_entry (by simp [hcb]) h
  have htotal := utxoTotal_apply hvalid hvalues
  rw [← hcoins] at htotal
  refine ⟨hcoins, ?_⟩
  cases hcs : tx.isCoinStake with
  | true =>
    obtain ⟨hfees, hactual⟩ := hstep.coinStake hcs
    have hfee := hstep.inputs.coinStake_fee hcs
    simp only [txFee, stakeGain, hcs, hcb, Bool.or_true, if_true, Bool.false_eq_true, if_false] at htotal ⊢
    refine ⟨by omega, le_refl _, fun hlow => ?_, hactual⟩
    obtain ⟨j, hj⟩ := exists_wrap64_add (x := s.nFees + fee) (by omega)
    exact ⟨hfees ▸ (wrap64_range _).1, j, by omega⟩
  | false =>
    obtain ⟨hfees, hactual⟩ := hstep.ordinary hcs
    obtain ⟨hle, hfee, -⟩ := hstep.inputs.covered hcs
    simp only [txFee, stakeGain, hcs, hcb, Bool.or_self, Bool.false_eq_true, if_false] at htotal ⊢
    refine ⟨by omega, by omega, fun hlow => ?_, hactual⟩
    -- each of the two additions can only wrap downwards
    have hlow1 := (wrap64_range (s.nFees + fee)).1
    obtain ⟨j1, hj1⟩ := exists_wrap64_add (x := s.nFees + fee) (by omega)
    obtain ⟨j2, hj2⟩ := exists_wrap64_add (x := wrap64 (s.nFees + fee) + fee) (by omega)
    exact ⟨hfees ▸ (wrap64_range _).1, j1 + j2, by push_cast; omega⟩

end Step

/-! ## The whole loop -/

section Loop

variable {E : Env} {chain : IndexChain} {flags : ScriptFlags} {s s' : ConnectState} {txs : List CTransaction}

/-- What a run of rounds over transactions that are no coinbases does, in terms of the ledger: the fees of the register
are twice those of the ledger, up to its wraps. -/
structure LoopTotals (E : Env) (chain : IndexChain) (s : ConnectState) (txs : List CTransaction) (s' : ConnectState) :
    Prop where
  coins : s'.coins = Ledger.replay s.coins (txs.map (CTransaction.entry E.crypto (chain.length - 1)))
  total : utxoTotal s'.coins = utxoTotal s.coins - blockFees E.crypto (chain.length - 1) s.coins txs
    + blockStakeGain E.crypto (chain.length - 1) s.coins txs - blockBurnt txs
  fees_nonneg : 0 ≤ blockFees E.crypto (chain.length - 1) s.coins txs
  fees_low : -2 ^ 63 ≤ s'.nFees
  fees_twice : ∃ j : Nat, s'.nFees + 2 ^ 64 * j = s.nFees + 2 * blockFees E.crypto (chain.length - 1) s.coins txs
  no_stake : (∀ tx ∈ txs, tx.isCoinStake = false) → s'.nActualStakeReward = s.nActualStakeReward

theorem connectLoop (hcb : ∀ tx ∈ txs, tx.isCoinBase = false) (hlow : -2 ^ 63 ≤ s.nFees)
    (h : txs.foldlM (connectTx E chain flags) s = .ok s') : LoopTotals E chain s txs s' := by
  induction txs generalizing s with
  | nil =>
    cases h
    exact ⟨rfl, by simp [blockFees, blockStakeGain, blockBurnt, Ledger.sumReplay], by simp [blockFees, Ledger.sumReplay],
      hlow, ⟨0, by simp [blockFees, Ledger.sumReplay]⟩, fun _ => rfl⟩
  | cons tx txs ih =>
    obtain ⟨s1, h1, h2⟩ := foldlM_cons_eq_ok.1 h
    obtain ⟨hcoins, htotal, hfee, hfees, hactual⟩ := connectTx_ledger (hcb tx (List.mem_cons_self ..)) h1
    obtain ⟨hlow1, j1, hj1⟩ := hfees hlow
    obtain ⟨ihcoins, ihtotal, ihnonneg, ihlow, ⟨j2, hj2⟩, ihstake⟩ :=
      ih (fun tx' htx' => hcb tx' (List.mem_cons_of_mem _ htx')) hlow1 h2
    rw [hcoins] at ihcoins ihtotal ihnonneg hj2
    simp only [blockFees, blockStakeGain, blockBurnt] at ihtotal ihnonneg hj2 ⊢
    refine ⟨ihcoins, ?_, ?_, ihlow, ⟨j1 + j2, ?_⟩, fun hcs => ?_⟩
    · simp only [Ledger.sumReplay, blockFees, blockStakeGain, blockBurnt, List.map_cons, List.sum_cons]
      rw [hcoins] at htotal
      omega
    · simp only [blockFees, Ledger.sumReplay]; omega
    · simp only [blockFees, Ledger.sumReplay]; push_cast; omega
    · have hactual2 := ihstake fun tx' htx' => hcs tx' (List.mem_cons_of_mem _ htx')
      rw [hcs tx List.mem_cons_self, if_neg Bool.false_ne_true] at hactual
      exact hactual2.trans hactual

end Loop

/-! ## The whole block -/

section Block

variable {E : Env} {block : CBlock} {pindex : CBlockIndex} {pprev : IndexChain} {view : CCoinsView}
  {r : ConnectResult} {nMax : Int} {s : ConnectState}

/-- What a block claims: the outputs of its coinbase and what its coinstakes pay beyond their inputs. -/
def claimedReward (C : Crypto) (nHeight : Nat) (m : CoinMap) (block : CBlock) : Int :=
  ((block.vtx.head?.map CTransaction.valueOut).getD 0) + blockStakeGain C nHeight m block.vtx

/-- The reward that a block may mint: the subsidy of a proof-of-work block, and for a proof-of-stake block the cap of
its coinstake in the view before the block. -/
def rewardCap (net : Network) (pprev : IndexChain) (m : CoinMap) (block : CBlock) : Int :=
  if block.isProofOfStake then
    match block.vtx[1]? with
    | some tx1 => getCoinstakeMaxReward net pprev tx1 m (txTimeIn block tx1)
    | none => 0
  else getBlockSubsidy net pprev.length

theorem getBlockSubsidy_nonneg (net : Network) (nHeight : Nat) : 0 ≤ getBlockSubsidy net nHeight := by
  unfold getBlockSubsidy
  cases net <;> decide

theorem connected_loop (h : Connected E block pindex pprev view r nMax s) :
    ∃ tx0 rest s1, block.vtx = tx0 :: rest ∧ tx0.isCoinBase = true ∧
      s1.coins = (tx0.entry E.crypto pprev.length).apply view.coins ∧ s1.nFees = 0 ∧ s1.nActualStakeReward = 0 ∧
      utxoTotal s1.coins = utxoTotal view.coins + tx0.valueOut - burnt tx0 ∧
      (∀ o c, view.coins.lookup o = some c → s1.coins.lookup o = some c) ∧
      rest.foldlM (connectTx E (pindex :: pprev) (getBlockScriptFlags E.net pindex pprev)) s1 = .ok s ∧
      LoopTotals E (pindex :: pprev) s1 rest s := by
  obtain ⟨tx0, rest, hvtx, hcb, hrest⟩ := h.checked.head
  have hloop := h.loop
  rw [hvtx] at hloop
  obtain ⟨s1, h1, h2⟩ := foldlM_cons_eq_ok.1 hloop
  obtain ⟨hfees, hactual⟩ := (connectTx_eq_ok h1).2.1 hcb
  obtain ⟨undo, hcoins, hvalid, hvalues⟩ := connectTx_entry (fun _ => h.fresh tx0 (by simp [hvtx])) h1
  have htotal := utxoTotal_apply hvalid hvalues
  simp only [hcb, if_true] at htotal
  refine ⟨tx0, rest, s1, hvtx, hcb, hcoins, hfees, hactual, ?_, fun o c hc => ?_, h2,
    connectLoop hrest (by rw [hfees]; norm_num) h2⟩
  · rw [hcoins]
    simpa using htotal
  · rw [hcoins]
    exact hvalid.lookup_apply (by simp [CTransaction.entry, hcb]) hc

theorem sumReplay_coinbase {tx0 : CTransaction} (hcb : tx0.isCoinBase = true) (C : Crypto) (nHeight : Nat) (m : CoinMap)
    (rest : List CTransaction) :
    blockFees C nHeight m (tx0 :: rest) = blockFees C nHeight ((tx0.entry C nHeight).apply m) rest ∧
      blockStakeGain C nHeight m (tx0 :: rest) = blockStakeGain C nHeight ((tx0.entry C nHeight).apply m) rest := by
  have hcs : tx0.isCoinStake = false := by
    cases hcs : tx0.isCoinStake with
    | false => rfl
    | true => exact absurd (hcb.symm.trans (tx0.isCoinBase_eq_false_of_isCoinStake hcs)) (by simp)
  constructor
  · simp [blockFees, Ledger.sumReplay, txFee, hcb]
  · simp [blockStakeGain, Ledger.sumReplay, stakeGain, hcs]

/-- **The exact change of the supply**: what the block claims, less its fees and what it burns. -/
theorem connected_total (h : Connected E block pindex pprev view r nMax s) :
    utxoTotal r.view.coins - utxoTotal view.coins =
      claimedReward E.crypto pprev.length view.coins block - blockFees E.crypto pprev.length view.coins block.vtx
        - blockBurnt block.vtx := by
  obtain ⟨tx0, rest, s1, hvtx, hcb, hcoins, -, -, htotal, -, -, hrest⟩ := connected_loop h
  obtain ⟨hF, hG⟩ := sumReplay_coinbase hcb E.crypto pprev.length view.coins rest
  have hsum := hrest.total
  rw [hcoins] at hsum htotal
  simp only [List.length_cons, Nat.add_sub_cancel] at hsum
  rw [h.coins, claimedReward, hvtx, hF, hG]
  simp only [List.head?_cons, Option.map_some, Option.getD_some, blockBurnt, List.map_cons, List.sum_cons] at hsum ⊢
  omega

/-! ### What the checks of the reward allow -/

/-- What the coinstakes of a proof-of-work block pay beyond their inputs, which no check of `ConnectBlock` looks at. -/
def uncheckedGain (C : Crypto) (nHeight : Nat) (m : CoinMap) (block : CBlock) : Int :=
  if block.isProofOfStake then 0 else blockStakeGain C nHeight m block.vtx

theorem connectStake_eq_rewardCap (hblock : CheckedBlock E block) (hpos : block.isProofOfStake = true)
    (hv3 : E.net.params.isProtocolV3 block.nTime = true) (h : connectStake E block pprev view = .ok nMax) :
    nMax = rewardCap E.net pprev view.coins block := by
  obtain ⟨tx0, tx1, rest, hvtx, -⟩ := hblock.stake hpos
  simp only [connectStake, hpos, hv3, Bool.and_self, if_true, hvtx] at h
  obtain ⟨⟨⟩, -, hok⟩ := bind_eq_ok.1 h
  cases hok
  simp [rewardCap, hpos, hvtx]

theorem neg_two_pow_le_rewardCap (net : Network) (pprev : IndexChain) (m : CoinMap) (block : CBlock) :
    -2 ^ 63 ≤ rewardCap net pprev m block := by
  unfold rewardCap
  split
  · split
    · exact neg_two_pow_le_getCoinstakeMaxReward net pprev _ m _
    · norm_num
  · exact le_trans (by norm_num) (getBlockSubsidy_nonneg net pprev.length)

theorem wrap64_fees_add_le {nFees fees cap : Int} {j : Nat} (hj : nFees + 2 ^ 64 * j = 2 * fees) (hfees : 0 ≤ fees)
    (hlow : -2 ^ 63 ≤ nFees) (hcap : -2 ^ 63 ≤ cap) : wrap64 (nFees + cap) ≤ cap + 2 * fees := by
  by_cases hx : -2 ^ 63 ≤ nFees + cap
  · have hle := wrap64_le hx
    omega
  · have hwrapped : wrap64 (nFees + cap) = nFees + cap + 2 ^ 64 := by
      unfold wrap64
      omega
    have hj1 : 1 ≤ j := by omega
    omega

theorem connected_stakeGain (h : Connected E block pindex pprev view r nMax s) (hpos : block.isProofOfStake = true) :
    claimedReward E.crypto pprev.length view.coins block = s.nActualStakeReward := by
  obtain ⟨tx0, rest, s1, hvtx, hcb, hcoins, hfees1, hactual1, -, -, hloop, -⟩ := connected_loop h
  obtain ⟨-, hG⟩ := sumReplay_coinbase hcb E.crypto pprev.length view.coins rest
  obtain ⟨_, tx1, rest', hvtx', hempty, hrest', -⟩ := h.checked.stake hpos
  obtain ⟨rfl, rfl⟩ := List.cons.inj (hvtx.symm.trans hvtx')
  obtain ⟨_, _, hvtx'', -, hncb⟩ := h.checked.head
  obtain ⟨rfl, rfl⟩ := List.cons.inj (hvtx.symm.trans hvtx'')
  obtain ⟨s2, h2, h3⟩ := foldlM_cons_eq_ok.1 hloop
  obtain ⟨-, -, -, hlow2, hactual2⟩ := connectTx_ledger (hncb tx1 List.mem_cons_self) h2
  -- nothing after the coinstake changes the reward that is paid
  have hlater := connectLoop (fun tx htx => hncb tx (List.mem_cons_of_mem tx1 htx))
    (hlow2 (by rw [hfees1]; norm_num)).1 h3
  have hgain := blockStakeGain_eq_zero E.crypto pprev.length
    ((tx1.entry E.crypto pprev.length).apply ((tx0.entry E.crypto pprev.length).apply view.coins)) hrest'
  rw [claimedReward, hvtx, hG, hlater.no_stake hrest', hactual2, hactual1, hcoins, List.head?_cons, Option.map_some,
    Option.getD_some, hempty, zero_add]
  simp only [blockStakeGain, Ledger.sumReplay] at hgain ⊢
  rw [hgain, add_zero, stakeGain]
  split <;> rfl

/-- **A block claims at most its cap and its fees twice**, coinstakes of a proof-of-work block apart. -/
theorem connected_claimed_le (h : Connected E block pindex pprev view r nMax s)
    (hv3 : E.net.params.isProtocolV3 block.nTime = true) :
    claimedReward E.crypto pprev.length view.coins block ≤ rewardCap E.net pprev view.coins block +
      2 * blockFees E.crypto pprev.length view.coins block.vtx +
        uncheckedGain E.crypto pprev.length view.coins block := by
  obtain ⟨tx0, rest, s1, hvtx, hcb, hcoins, hfees1, -, -, -, -, htotals⟩ := connected_loop h
  obtain ⟨hF, -⟩ := sumReplay_coinbase hcb E.crypto pprev.length view.coins rest
  obtain ⟨j, hj⟩ := htotals.fees_twice
  have hnonneg := htotals.fees_nonneg
  simp only [List.length_cons, Nat.add_sub_cancel, hcoins, ← hF, ← hvtx, hfees1, zero_add] at hj hnonneg
  have hallowed := wrap64_fees_add_le hj hnonneg htotals.fees_low (neg_two_pow_le_rewardCap E.net pprev view.coins block)
  have hrewards := h.rewards
  simp only [checkRewards, hv3, Bool.and_true] at hrewards
  rw [uncheckedGain]
  cases hpos : block.isProofOfStake with
  | false =>
    simp only [hpos, Bool.not_false, when_true] at hrewards
    obtain ⟨⟨⟩, hpow, -⟩ := bind_eq_ok.1 hrewards
    obtain ⟨v, hv, hle⟩ := bind_eq_ok.1 hpow
    obtain ⟨rfl, -⟩ := getValueOut_eq_ok (TxCheck.toBlock_eq_ok.1 hv)
    have hsubsidy : rewardCap E.net pprev view.coins block = getBlockSubsidy E.net pprev.length := by
      simp [rewardCap, hpos]
    rw [← hsubsidy] at hle
    have hle' := of_decide_eq_true (require_eq_ok.1 hle)
    simp only [hvtx, List.headD_cons] at hle'
    rw [claimedReward, if_neg Bool.false_ne_true]
    simp only [hvtx, List.head?_cons, Option.map_some, Option.getD_some] at hallowed ⊢
    omega
  | true =>
    simp only [hpos, Bool.not_true, when_false, when_true, ok_bind, require_eq_ok] at hrewards
    have hle := of_decide_eq_true hrewards
    rw [connectStake_eq_rewardCap h.checked hpos hv3 h.stake] at hle
    rw [if_pos rfl, connected_stakeGain h hpos]
    omega

/-- **The most that a block adds to the supply**: its cap, its fees once more, and the unchecked gains, less what it
burns. -/
theorem connected_supply_le (h : Connected E block pindex pprev view r nMax s)
    (hv3 : E.net.params.isProtocolV3 block.nTime = true) :
    utxoTotal r.view.coins - utxoTotal view.coins ≤ rewardCap E.net pprev view.coins block +
      blockFees E.crypto pprev.length view.coins block.vtx + uncheckedGain E.crypto pprev.length view.coins block
        - blockBurnt block.vtx := by
  have htotal := connected_total h
  have hclaimed := connected_claimed_le h hv3
  omega

theorem blockBurnt_nonneg (h : CheckedBlock E block) : 0 ≤ blockBurnt block.vtx := by
  refine List.sum_nonneg fun x hx => ?_
  obtain ⟨tx, htx, rfl⟩ := List.mem_map.1 hx
  refine List.sum_nonneg fun y hy => ?_
  obtain ⟨out, hout, rfl⟩ := List.mem_map.1 hy
  exact (moneyRange_iff.1 ((h.txs tx htx).out_range out (List.mem_filter.1 hout).1)).1

theorem connected_conserves_of_feeless (h : Connected E block pindex pprev view r nMax s)
    (hv3 : E.net.params.isProtocolV3 block.nTime = true)
    (hfees : blockFees E.crypto pprev.length view.coins block.vtx = 0)
    (hcs : block.isProofOfStake = false → ∀ tx ∈ block.vtx, tx.isCoinStake = false) :
    utxoTotal r.view.coins - utxoTotal view.coins ≤ rewardCap E.net pprev view.coins block := by
  have hgain : uncheckedGain E.crypto pprev.length view.coins block = 0 := by
    unfold uncheckedGain
    cases hpos : block.isProofOfStake with
    | false => exact blockStakeGain_eq_zero _ _ _ (hcs hpos)
    | true => rfl
  have hadded := connected_supply_le h hv3
  have hburnt := blockBurnt_nonneg h.checked
  omega

end Block

/-! ## Conservation -/

section Conservation

variable {E : Env} {block : CBlock} {pindex : CBlockIndex} {pprev : IndexChain} {view : CCoinsView}
  {r : ConnectResult}

theorem connectBlock_conserves (hg : block.getHash E.crypto ≠ E.net.hashGenesisBlock E.crypto)
    (hv3 : E.net.params.isProtocolV3 block.nTime = true)
    (h : connectBlock E block pindex pprev view false = .ok r) :
    (blockFees E.crypto pprev.length view.coins block.vtx + uncheckedGain E.crypto pprev.length view.coins block ≤
        blockBurnt block.vtx →
      utxoTotal r.view.coins - utxoTotal view.coins ≤ rewardCap E.net pprev view.coins block) ∧
    (claimedReward E.crypto pprev.length view.coins block = rewardCap E.net pprev view.coins block +
        2 * blockFees E.crypto pprev.length view.coins block.vtx + uncheckedGain E.crypto pprev.length view.coins block →
      (utxoTotal r.view.coins - utxoTotal view.coins ≤ rewardCap E.net pprev view.coins block ↔
        blockFees E.crypto pprev.length view.coins block.vtx + uncheckedGain E.crypto pprev.length view.coins block ≤
          blockBurnt block.vtx)) := by
  obtain ⟨nMax, s, hc⟩ := connectBlock_eq_ok hg h
  have hadded := connected_supply_le hc hv3
  have htotal := connected_total hc
  constructor
  · intro hdefect
    omega
  · intro hall
    constructor <;> intro hle <;> omega

end Conservation

/-! ## A block that collects its fees twice -/

section DoubleFee

/-- The payment with half of its fee sent to an output that nobody can spend. -/
def burningTx : CTransaction where
  vin := [{ prevout := ⟨1, 0⟩ }]
  vout := [⟨50000000, [0x51]⟩, ⟨25000000, [opReturn]⟩]

theorem burningBlock_conserves :
    ∃ r, connectPayment (2800000000000000 + 2 * 25000000) burningTx (paymentView [0x51] 0) = .ok r ∧
      0 < blockFees .sample 1 (paymentView [0x51] 0).coins
        (paymentBlock (2800000000000000 + 2 * 25000000) burningTx).vtx ∧
      utxoTotal r.view.coins - utxoTotal (paymentView [0x51] 0).coins ≤ rewardCap .main paymentChain
        (paymentView [0x51] 0).coins (paymentBlock (2800000000000000 + 2 * 25000000) burningTx) := by
  have hrun : holdsOk (fun _ => true)
      (connectPayment (2800000000000000 + 2 * 25000000) burningTx (paymentView [0x51] 0)) = true := by decide +kernel
  obtain ⟨r, hr, -⟩ := holdsOk_iff.1 hrun
  exact ⟨r, hr, by decide +kernel, (connectBlock_conserves (E := .sample .main 1785326464) (by decide +kernel)
    (by decide +kernel) hr).1 (by decide +kernel)⟩

/-- **A proof-of-work block whose coinbase collects the fee twice connects**, and the supply grows by more than the
subsidy. -/
theorem doubleFee_mints :
    Network.main.params.isProtocolV3 (paymentBlock (2800000000000000 + 2 * 50000000) paymentTx).nTime = true ∧
      (paymentBlock (2800000000000000 + 2 * 50000000) paymentTx).getHash .sample ≠
        Network.main.hashGenesisBlock .sample ∧
      (paymentBlock (2800000000000000 + 2 * 50000000) paymentTx).isProofOfStake = false ∧
      ∃ r, connectPayment (2800000000000000 + 2 * 50000000) paymentTx (paymentView [0x51] 0) = .ok r ∧
        getBlockSubsidy .main 1 < utxoTotal r.view.coins - utxoTotal (paymentView [0x51] 0).coins := by
  have hrun : holdsOk (fun r => decide (getBlockSubsidy .main 1 <
      utxoTotal r.view.coins - utxoTotal (paymentView [0x51] 0).coins))
      (connectPayment (2800000000000000 + 2 * 50000000) paymentTx (paymentView [0x51] 0)) = true := by decide +kernel
  obtain ⟨r, hr, hlt⟩ := holdsOk_iff.1 hrun
  exact ⟨by decide +kernel, by decide +kernel, by decide +kernel, r, hr, of_decide_eq_true hlt⟩

end DoubleFee

end CodexaCoin
