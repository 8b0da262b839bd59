import CodexaCoin.Validation.ConnectBlock

/-!
# Disconnecting a block

`ApplyTxInUndo` and `Chainstate::DisconnectBlock` of `validation.cpp`, and that they take `ConnectBlock` back.
-/

namespace CodexaCoin

open Check Consensus CoinMap IndexChain

inductive DisconnectResult where
  | ok
  | unclean
  | failed
deriving DecidableEq, Repr

def maxOutputsPerBlock : Nat := maxBlockWeight / (witnessScaleFactor * 9)

/-- The loop of `AccessByTxid` from index `n` on. -/
def accessByTxidFrom (m : CoinMap) (txid : Uint256) : (fuel n : Nat) → Option Coin
  | 0, _ => none
  | fuel + 1, n =>
    match m.lookup ⟨txid, n⟩ with
    | some alternate => some alternate
    | none => accessByTxidFrom m txid fuel (n + 1)

def accessByTxid (m : CoinMap) (txid : Uint256) : Option Coin :=
  accessByTxidFrom m txid maxOutputsPerBlock 0

/-- The coin that `ApplyTxInUndo` restores: one of height `0` takes its metadata from another output of its
transaction, and there has to be one. -/
def undoMetadata (undo : Coin) (m : CoinMap) (out : COutPoint) : Option Coin :=
  if undo.nHeight = 0 then
    (accessByTxid m out.hash).map fun alternate =>
      { undo with nHeight := alternate.nHeight, fCoinBase := alternate.fCoinBase, fCoinStake := alternate.fCoinStake,
                  nTime := alternate.nTime }
  else some undo

def applyTxInUndo (s : CoinMap × Bool) (input : COutPoint × Coin) : Option (CoinMap × Bool) :=
  (undoMetadata input.2 s.1 input.1).map fun coin =>
    (if isUnspendable coin.out.scriptPubKey then s.1 else s.1.insert input.1 coin, s.2 && !haveCoin s.1 input.1)

def outputMatches (tx : CTransaction) (nHeight : Nat) (out : CTxOut) (coin : Coin) : Bool :=
  decide (out = coin.out ∧ nHeight = coin.nHeight ∧ tx.isCoinBase = coin.fCoinBase ∧ tx.isCoinStake = coin.fCoinStake)

/-- The loop of `DisconnectBlock` over the outputs of a transaction, from index `o` on. -/
def disconnectOutputs (txid : Uint256) (tx : CTransaction) (nHeight : Nat) :
    (o : Nat) → (vout : List CTxOut) → CoinMap × Bool → CoinMap × Bool
  | _, [], s => s
  | o, out :: vout, s =>
    if isUnspendable out.scriptPubKey then disconnectOutputs txid tx nHeight (o + 1) vout s
    else match spendCoin s.1 ⟨txid, o⟩ with
      | none => disconnectOutputs txid tx nHeight (o + 1) vout (s.1, false)
      | some (coin, m) => disconnectOutputs txid tx nHeight (o + 1) vout (m, s.2 && outputMatches tx nHeight out coin)

/-- The round of `DisconnectBlock` for a transaction other than the first: its outputs and then its inputs, the last
one first. -/
def disconnectTx (C : Crypto) (nHeight : Nat) (tx : CTransaction) (txundo : CTxUndo) (s : CoinMap × Bool) :
    Option (CoinMap × Bool) :=
  if txundo.length ≠ tx.vin.length then none
  else ((tx.vin.map (·.prevout)).zip txundo).reverse.foldlM applyTxInUndo
    (disconnectOutputs (tx.getHash C) tx nHeight 0 tx.vout s)

/-- The rounds for the transactions after the first, in reverse order. -/
def disconnectTxs (C : Crypto) (nHeight : Nat) : List (CTransaction × CTxUndo) → CoinMap × Bool → Option (CoinMap × Bool)
  | [], s => some s
  | (tx, txundo) :: rest, s => (disconnectTxs C nHeight rest s).bind (disconnectTx C nHeight tx txundo)

/-- `DisconnectBlock` of a block on top of `pprev`. When it fails the view is indeterminate, here the one before. -/
def disconnectBlock (C : Crypto) (block : CBlock) (pprev : IndexChain) (blockUndo : CBlockUndo) (view : CCoinsView) :
    DisconnectResult × CCoinsView :=
  match block.vtx, pprev with
  | tx0 :: rest, parent :: _ =>
    if blockUndo.length ≠ rest.length then (.failed, view)
    else match disconnectTxs C pprev.length (rest.zip blockUndo) (view.coins, true) with
      | none => (.failed, view)
      | some s =>
        let s := disconnectOutputs (tx0.getHash C) tx0 pprev.length 0 tx0.vout s
        (if s.2 then .ok else .unclean, { coins := s.1, hashBlock := parent.hash })
  | _, _ => (.failed, view)

/-! ## One transaction -/

section Tx

variable {C : Crypto} {m m' : CoinMap} {tx : CTransaction} {nHeight i : Nat} {txid : Uint256} {undo : CTxUndo}
  {fClean : Bool} {vout : List CTxOut}

/-- A coin as `AddCoin` stores it in a block after the genesis block: it has a height, and its script can be spent. -/
def Coin.Stored (c : Coin) : Prop := c.nHeight ≠ 0 ∧ isUnspendable c.out.scriptPubKey = false

theorem newItems_stored (hh : nHeight ≠ 0) {kv : COutPoint × Coin} (h : kv ∈ newItems txid tx nHeight i vout) :
    kv.2.Stored := by
  obtain ⟨out, -, hc⟩ := newItems_coin h
  obtain ⟨hspendable, hout, -, -, hheight, -⟩ := newCoin_eq_some hc
  exact ⟨by rw [hheight]; exact hh, by rw [hout]; exact hspendable⟩

theorem disconnectOutputs_eq (hvalues : ∀ out ∈ vout, out.nValue ≠ -1)
    (hcoins : ∀ kv ∈ newItems txid tx nHeight i vout, m.lookup kv.1 = some kv.2) :
    disconnectOutputs txid tx.reread nHeight i vout (m, fClean) =
      (Ledger.spend m ((newItems txid tx nHeight i vout).map Prod.fst), fClean) := by
  induction vout generalizing i m with
  | nil => rfl
  | cons out vout ih =>
    have hv : out.nValue ≠ -1 := hvalues out (List.mem_cons_self ..)
    have hvs : ∀ out' ∈ vout, out'.nValue ≠ -1 := fun out' h => hvalues out' (List.mem_cons_of_mem _ h)
    have hnodup : ((newItems txid tx nHeight i (out :: vout)).map Prod.fst).Nodup := newItems_nodup
    cases hu : isUnspendable out.scriptPubKey with
    | true =>
      have hnone : newCoin tx nHeight out = none := by simp [newCoin, hv, hu]
      rw [newItems, hnone] at hcoins ⊢
      rw [disconnectOutputs, if_pos hu]
      exact ih hvs hcoins
    | false =>
      obtain ⟨c, hc⟩ : ∃ c, newCoin tx nHeight out = some c := ⟨_, by simp [newCoin, hv, hu]; rfl⟩
      obtain ⟨-, hout, hcb, hcs, hheight, -⟩ := newCoin_eq_some hc
      rw [newItems, hc] at hcoins hnodup ⊢
      have hlook : m.lookup ⟨txid, i⟩ = some c := hcoins (⟨txid, i⟩, c) (List.mem_cons_self ..)
      have hmatch : outputMatches tx.reread nHeight out c = true := by simp [outputMatches, hout, hcb, hcs, hheight]
      rw [disconnectOutputs, if_neg (by simp [hu]), spendCoin, hlook]
      simp only [Option.map_some, hmatch, Bool.and_true, List.map_cons, Ledger.spend_cons]
      refine ih hvs fun kv hkv => ?_
      -- the other outputs have other outpoints
      have hne : kv.1 ≠ ⟨txid, i⟩ := by
        intro heq
        have hmem : kv.1 ∈ (newItems txid tx nHeight (i + 1) vout).map Prod.fst := List.mem_map_of_mem hkv
        exact (List.nodup_cons.1 hnodup).1 (heq ▸ hmem)
      rw [Finmap.lookup_erase_ne hne]
      exact hcoins kv (List.mem_cons_of_mem _ hkv)

theorem applyTxInUndo_foldlM {l : List (COutPoint × Coin)} (hnodup : (l.map Prod.fst).Nodup)
    (hfresh : ∀ k ∈ l.map Prod.fst, k ∉ m) (hstored : ∀ kv ∈ l, kv.2.Stored) :
    l.foldlM applyTxInUndo (m, fClean) = some (Ledger.create m l, fClean) := by
  induction l generalizing m with
  | nil => rfl
  | cons kv l ih =>
    obtain ⟨hheight, hspendable⟩ := hstored kv (List.mem_cons_self ..)
    have hhave : haveCoin m kv.1 = false := by
      simpa [haveCoin, Finmap.lookup_eq_none] using hfresh kv.1 (List.mem_cons_self ..)
    rw [List.map_cons, List.nodup_cons] at hnodup
    have happly : applyTxInUndo (m, fClean) kv = some (m.insert kv.1 kv.2, fClean) := by
      simp [applyTxInUndo, undoMetadata, hheight, hspendable, hhave]
    rw [List.foldlM_cons, happly, Ledger.create_cons]
    refine ih hnodup.2 (fun k hk hmem => ?_) fun kv' h => hstored kv' (List.mem_cons_of_mem _ h)
    rcases Finmap.mem_insert.1 hmem with rfl | hmem
    · exact hnodup.1 hk
    · exact hfresh k (List.mem_cons_of_mem _ hk) hmem

/-- **`DisconnectBlock` takes one transaction back.** -/
theorem disconnectTx_updateCoins (hcb : tx.isCoinBase = false) (hstored : ∀ o c, m.lookup o = some c → c.Stored)
    (h : updateCoins m C tx nHeight = .ok (undo, m')) :
    disconnectTx C nHeight tx.reread undo (m', fClean) = some (m, fClean) := by
  obtain ⟨rfl, hvalid, hvalues⟩ := updateCoins_eq_ok h (by simp [hcb])
  have hspends : (tx.entry C nHeight).spends = tx.vin.map (·.prevout) := by simp [CTransaction.entry, hcb]
  have hlook := hvalid.spends_lookup
  have hnodup := hvalid.spends_nodup
  rw [hspends] at hlook hnodup
  have hlen : undo.length = tx.vin.length := by simpa using hlook.length_eq.symm
  -- the outputs
  have houts : disconnectOutputs (tx.getHash C) tx.reread nHeight 0 tx.vout ((tx.entry C nHeight).apply m, fClean) =
      (Ledger.spend m (tx.vin.map (·.prevout)), fClean) := by
    have hnew : ∀ kv ∈ newItems (tx.getHash C) tx nHeight 0 tx.vout,
        ((tx.entry C nHeight).apply m).lookup kv.1 = some kv.2 := fun kv hkv =>
      Ledger.lookup_create_of_mem newItems_nodup hkv
    rw [disconnectOutputs_eq hvalues hnew, Ledger.Entry.apply]
    rw [← hspends]
    exact congrArg (·, fClean) (Ledger.spend_create hvalid.creates_fresh fun k => Iff.rfl)
  -- the inputs
  have hkeys : ((tx.vin.map (·.prevout)).zip undo).map Prod.fst = tx.vin.map (·.prevout) :=
    List.map_fst_zip (by simp [hlen])
  have hins : ((tx.vin.map (·.prevout)).zip undo).reverse.foldlM applyTxInUndo
      (Ledger.spend m (tx.vin.map (·.prevout)), fClean) = some (m, fClean) := by
    have hpair : ∀ kv ∈ (tx.vin.map (·.prevout)).zip undo, m.lookup kv.1 = some kv.2 := fun kv hkv =>
      List.forall₂_iff_zip.1 hlook |>.2 hkv
    rw [applyTxInUndo_foldlM]
    · rw [Ledger.create_spend]
      · rw [List.map_reverse, hkeys]
        exact List.nodup_reverse.2 hnodup
      · intro k
        rw [List.map_reverse, hkeys, List.mem_reverse]
      · exact fun kv hkv => hpair kv (List.mem_reverse.1 hkv)
    · rw [List.map_reverse, hkeys]
      exact List.nodup_reverse.2 hnodup
    · intro k hk
      rw [List.map_reverse, hkeys, List.mem_reverse] at hk
      rw [← Finmap.lookup_eq_none, Ledger.lookup_spend, if_pos hk]
    · exact fun kv hkv => hstored _ _ (hpair kv (List.mem_reverse.1 hkv))
  rw [disconnectTx, if_neg (by simp [hlen]), CTransaction.getHash_reread, CTransaction.reread_vout, houts,
    CTransaction.reread_vin, hins]

end Tx

/-! ## The whole block -/

section Block

variable {E : Env} {chain : IndexChain} {flags : ScriptFlags} {s s' : ConnectState} {txs : List CTransaction}

theorem disconnectTxs_connectLoop (hheight : chain.length - 1 ≠ 0) (hcb : ∀ tx ∈ txs, tx.isCoinBase = false)
    (hstored : ∀ o c, s.coins.lookup o = some c → c.Stored)
    (h : txs.foldlM (connectTx E chain flags) s = .ok s') :
    ∃ undos, s'.undos = s.undos ++ undos ∧ undos.length = txs.length ∧
      disconnectTxs E.crypto (chain.length - 1) ((txs.map CTransaction.reread).zip undos) (s'.coins, true) =
        some (s.coins, true) := by
  induction txs generalizing s with
  | nil => cases h; exact ⟨[], by simp, rfl, rfl⟩
  | cons tx txs ih =>
    obtain ⟨s1, h1, h2⟩ := foldlM_cons_eq_ok.1 h
    obtain ⟨⟨undo, hupdate, hundos⟩, -⟩ := connectTx_eq_ok h1
    have hcb1 := hcb tx (List.mem_cons_self ..)
    obtain ⟨hcoins, -⟩ := updateCoins_eq_ok hupdate (by simp [hcb1])
    have hstored1 : ∀ o c, s1.coins.lookup o = some c → c.Stored := by
      rw [hcoins]
      exact Ledger.forall_apply hstored fun kv hkv => newItems_stored hheight hkv
    obtain ⟨undos, hlist, hlen, hback⟩ := ih (fun tx' h' => hcb tx' (List.mem_cons_of_mem _ h')) hstored1 h2
    refine ⟨undo :: undos, by rw [hlist, hundos, List.append_assoc]; rfl, by simp [hlen], ?_⟩
    rw [List.map_cons, List.zip_cons_cons, disconnectTxs, hback]
    exact disconnectTx_updateCoins hcb1 hstored hupdate

variable {block : CBlock} {pindex : CBlockIndex} {pprev : IndexChain} {view : CCoinsView} {r : ConnectResult} {c : Coin}

/-- **Disconnecting takes connecting back.** The block is the one read back from disk, whose transactions of version 2
have no `nTime`. -/
theorem disconnectBlock_connectBlock (hg : block.getHash E.crypto ≠ E.net.hashGenesisBlock E.crypto) (hprev : pprev ≠ [])
    (hcoins : ∀ o c, view.coins.lookup o = some c → 1 ≤ c.nHeight ∧ isUnspendable c.out.scriptPubKey = false)
    (h : connectBlock E block pindex pprev view false = .ok r) :
    disconnectBlock E.crypto block.reread pprev r.blockundo r.view = (.ok, view) := by
  obtain ⟨nMax, s, hc⟩ := connectBlock_eq_ok hg h
  obtain ⟨tx0, rest, hvtx, hcb, hrest⟩ := hc.checked.head
  have hloop := hc.loop
  rw [hvtx] at hloop
  obtain ⟨s1, h1, h2⟩ := foldlM_cons_eq_ok.1 hloop
  obtain ⟨⟨undo0, hupdate, hundos⟩, -⟩ := connectTx_eq_ok h1
  obtain ⟨hcoins1, hvalid, hvalues⟩ := updateCoins_eq_ok hupdate fun _ => hc.fresh tx0 (by simp [hvtx])
  have hheight : (pindex :: pprev).length - 1 ≠ 0 := by
    cases pprev with
    | nil => exact absurd rfl hprev
    | cons p ps => simp
  -- the transactions after the coinbase
  have hstored1 : ∀ o c, s1.coins.lookup o = some c → c.Stored := by
    rw [hcoins1]
    refine Ledger.forall_apply (fun o c hoc => ?_) fun kv hkv => newItems_stored hheight hkv
    obtain ⟨hpos, hspendable⟩ := hcoins o c hoc
    exact ⟨by omega, hspendable⟩
  obtain ⟨undos, hlist, hlen, hback⟩ := disconnectTxs_connectLoop hheight hrest hstored1 h2
  have hblockundo : r.blockundo = undos := by
    rw [hc.blockundo, hlist, hundos]
    rfl
  -- the coinbase
  have hspends : (tx0.entry E.crypto ((pindex :: pprev).length - 1)).spends = [] := by simp [CTransaction.entry, hcb]
  have hfirst : disconnectOutputs (tx0.getHash E.crypto) tx0.reread ((pindex :: pprev).length - 1) 0 tx0.vout
      (s1.coins, true) = (view.coins, true) := by
    have hnew : ∀ kv ∈ newItems (tx0.getHash E.crypto) tx0 ((pindex :: pprev).length - 1) 0 tx0.vout,
        s1.coins.lookup kv.1 = some kv.2 := by
      rw [hcoins1]
      exact fun kv hkv => Ledger.lookup_create_of_mem newItems_nodup hkv
    have hfresh := hvalid.creates_fresh
    rw [hspends] at hfresh
    rw [disconnectOutputs_eq hvalues hnew, hcoins1, Ledger.Entry.apply, hspends]
    exact congrArg (·, true) (Ledger.spend_create hfresh fun k => Iff.rfl)
  obtain ⟨parent, ps, rfl⟩ := List.exists_cons_of_ne_nil hprev
  have hbest : parent.hash = view.hashBlock := by simpa using hc.best
  have hreread : block.reread.vtx = tx0.reread :: rest.map CTransaction.reread := by simp [hvtx]
  simp only [List.length_cons, Nat.add_sub_cancel] at hback hfirst
  simp only [disconnectBlock, hreread, hblockundo, hlen, List.length_map, hc.coins, List.length_cons, hback,
    CTransaction.getHash_reread, CTransaction.reread_vout, hfirst, hbest]
  simp

theorem applyTxInUndo_height_zero {m : CoinMap} {o : COutPoint} (h0 : c.nHeight = 0)
    (hnone : ∀ k ∈ m, k.hash ≠ o.hash) (fClean : Bool) : applyTxInUndo (m, fClean) (o, c) = none := by
  have hfrom : ∀ fuel n, accessByTxidFrom m o.hash fuel n = none := by
    intro fuel
    induction fuel with
    | zero => exact fun n => rfl
    | succ fuel ih =>
      intro n
      have hlook : m.lookup ⟨o.hash, n⟩ = none := Finmap.lookup_eq_none.2 fun hmem => hnone _ hmem rfl
      rw [accessByTxidFrom, hlook]
      exact ih (n + 1)
  have hacc : accessByTxid m o.hash = none := hfrom _ _
  rw [applyTxInUndo, undoMetadata, if_pos h0, hacc]
  rfl

theorem disconnectTx_height_zero {C : Crypto} {nHeight : Nat} {tx : CTransaction} {txin : CTxIn}
    {s : CoinMap × Bool} (hvin : tx.vin = [txin]) (h0 : c.nHeight = 0)
    (hnone : ∀ k ∈ (disconnectOutputs (tx.getHash C) tx nHeight 0 tx.vout s).1, k.hash ≠ txin.prevout.hash) :
    disconnectTx C nHeight tx [c] s = none := by
  have hfail := applyTxInUndo_height_zero h0 hnone (disconnectOutputs (tx.getHash C) tx nHeight 0 tx.vout s).2
  simp [disconnectTx, hvin, hfail]

end Block

/-! ## Coins that are not restored -/

section NotRestored

def undoBlock : CBlock := paymentBlock 0 paymentTx

/-- The block spends a coin with the given script and height. -/
def connectUndoBlock (scriptPubKey : CScript) (nHeight : Nat) : BlockCheck ConnectResult :=
  connectPayment 0 paymentTx (paymentView scriptPubKey nHeight)

theorem undoBlock_not_genesis : undoBlock.getHash .sample ≠ Network.main.hashGenesisBlock .sample := by
  decide +kernel

theorem undoBlock_taken_back :
    ∃ r, connectUndoBlock [0x51] 1 = .ok r ∧
      disconnectBlock .sample undoBlock.reread paymentChain r.blockundo r.view = (.ok, paymentView [0x51] 1) := by
  have hrun : holdsOk (fun _ => true) (connectUndoBlock [0x51] 1) = true := by decide +kernel
  obtain ⟨r, hr, -⟩ := holdsOk_iff.1 hrun
  refine ⟨r, hr, disconnectBlock_connectBlock (E := .sample .main 1785326464) undoBlock_not_genesis (by decide) ?_ hr⟩
  intro o c hoc
  have ho : o = ⟨1, 0⟩ := by
    have hmem : o ∈ (paymentView [0x51] 1).coins := Finmap.mem_iff.2 ⟨c, hoc⟩
    exact (Finmap.mem_singleton _ _ _).1 hmem
  subst ho
  rw [paymentView, Finmap.lookup_singleton_eq] at hoc
  cases hoc
  decide

/-- **A block that spends a coin of height 0 connects and cannot be disconnected.** -/
theorem undoBlock_height_zero :
    ∃ r, connectUndoBlock [0x51] 0 = .ok r ∧
      (disconnectBlock .sample undoBlock.reread paymentChain r.blockundo r.view).1 = .failed := by
  have hrun : holdsOk (fun r => decide (r.blockundo.map (·.map (·.nHeight)) = [[0]] ∧
      ∀ k ∈ (disconnectOutputs (paymentTx.getHash .sample) paymentTx.reread 1 0 paymentTx.vout
        (r.view.coins, true)).1.keys, k.hash ≠ 1)) (connectUndoBlock [0x51] 0) = true := by decide +kernel
  obtain ⟨r, hr, hfacts⟩ := holdsOk_iff.1 hrun
  obtain ⟨hundo, hkeys⟩ := of_decide_eq_true hfacts
  refine ⟨r, hr, ?_⟩
  obtain ⟨txundo, hb, ht⟩ := List.map_eq_singleton_iff.1 hundo
  obtain ⟨c, hc, h0⟩ := List.map_eq_singleton_iff.1 ht
  have hfail : disconnectTx .sample 1 paymentTx.reread txundo (r.view.coins, true) = none := by
    rw [hc]
    exact disconnectTx_height_zero rfl h0 fun k hk => hkeys k (Finmap.mem_keys.2 hk)
  have hvtx : undoBlock.reread.vtx = [(paymentCoinbase 0).reread, paymentTx.reread] := rfl
  simp only [disconnectBlock, hvtx, paymentChain, hb]
  simp [disconnectTxs, hfail]

/-- **A block that spends a coin with an unspendable script leaves it spent when it is disconnected**, since `AddCoin`
does not take it back. -/
theorem undoBlock_unspendable :
    ∃ r, connectUndoBlock [opReturn] 1 = .ok r ∧
      (disconnectBlock .sample undoBlock.reread paymentChain r.blockundo r.view).1 = .ok ∧
      (disconnectBlock .sample undoBlock.reread paymentChain r.blockundo r.view).2.coins.lookup ⟨1, 0⟩ = none := by
  have hrun : holdsOk (fun r => decide
      ((disconnectBlock .sample undoBlock.reread paymentChain r.blockundo r.view).1 = .ok ∧
        (disconnectBlock .sample undoBlock.reread paymentChain r.blockundo r.view).2.coins.lookup ⟨1, 0⟩ = none))
      (connectUndoBlock [opReturn] 1) = true := by decide +kernel
  obtain ⟨r, hr, hlost⟩ := holdsOk_iff.1 hrun
  exact ⟨r, hr, of_decide_eq_true hlost⟩

end NotRestored

end CodexaCoin
