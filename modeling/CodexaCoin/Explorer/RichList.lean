import CodexaCoin.Validation.Inflation

/-!
# The rich list of the explorer

`richlist` of `explorer/app.py` has no address index: it walks the blocks of the chain, credits every output to its
address and debits every input from the address of the output that it spends, which it looks up by transaction id.
-/

namespace CodexaCoin.Explorer

open Check

variable {A : Type}

/-! ## Balances -/

structure Balances (A : Type) where
  items : List (A × Int)
  nodup : (items.map Prod.fst).Nodup

/-- `ranked` before it is cut: by falling balance, and the positive ones only. -/
def Balances.ranked (b : Balances A) : List (A × Int) :=
  (b.items.mergeSort fun x y => decide (y.2 ≤ x.2)).filter fun kv => decide (0 < kv.2)

theorem mem_ranked {b : Balances A} {kv : A × Int} : kv ∈ b.ranked ↔ kv ∈ b.items ∧ 0 < kv.2 := by
  simp [Balances.ranked, (List.mergeSort_perm b.items _).mem_iff]

theorem pairwise_ranked (b : Balances A) : b.ranked.Pairwise fun x y => y.2 ≤ x.2 := by
  have hsorted : (b.items.mergeSort fun x y => decide (y.2 ≤ x.2)).Pairwise fun x y => decide (y.2 ≤ x.2) = true := by
    apply List.pairwise_mergeSort
    · intro x y z hxy hyz
      simp only [decide_eq_true_eq] at hxy hyz ⊢
      omega
    · intro x y
      simp only [Bool.or_eq_true, decide_eq_true_eq]
      omega
  exact (hsorted.imp fun h => of_decide_eq_true h).filter _

variable [DecidableEq A]

/-- Add to the value of a key, which starts at 0 and then takes the last place. -/
def addItem : List (A × Int) → A → Int → List (A × Int)
  | [], addr, v => [(addr, v)]
  | (k, w) :: items, addr, v => if k = addr then (k, w + v) :: items else (k, w) :: addItem items addr v

def getItem : List (A × Int) → A → Int
  | [], _ => 0
  | (k, w) :: items, addr => if k = addr then w else getItem items addr

theorem getItem_addItem (items : List (A × Int)) (addr a : A) (v : Int) :
    getItem (addItem items addr v) a = getItem items a + if addr = a then v else 0 := by
  induction items with
  | nil => simp [addItem, getItem]
  | cons kw items ih =>
    obtain ⟨k, w⟩ := kw
    simp only [addItem]
    split <;> simp only [getItem] <;> split <;> grind

theorem mem_keys_addItem {items : List (A × Int)} {addr a : A} {v : Int} :
    a ∈ (addItem items addr v).map Prod.fst ↔ a ∈ items.map Prod.fst ∨ a = addr := by
  induction items with
  | nil => simp [addItem]
  | cons kw items ih =>
    simp only [addItem]
    split <;> simp only [List.map_cons, List.mem_cons, ih] <;> grind

theorem nodup_addItem {items : List (A × Int)} (h : (items.map Prod.fst).Nodup) (addr : A) (v : Int) :
    ((addItem items addr v).map Prod.fst).Nodup := by
  induction items with
  | nil => simp [addItem]
  | cons kw items ih =>
    obtain ⟨k, w⟩ := kw
    obtain ⟨hk, hitems⟩ := List.nodup_cons.1 h
    by_cases heq : k = addr
    · simpa [addItem, heq] using h
    · simp only [addItem, if_neg heq, List.map_cons]
      refine List.nodup_cons.2 ⟨fun hmem => ?_, ih hitems⟩
      exact (mem_keys_addItem.1 hmem).elim hk heq

namespace Balances

/-- `{}`. -/
def empty : Balances A := ⟨[], List.nodup_nil⟩

/-- `balances.get(addr, 0)`. -/
def get (b : Balances A) (addr : A) : Int := getItem b.items addr

/-- `balances[addr] = balances.get(addr, 0) + v`; an output without an address is skipped. -/
def post (b : Balances A) : (addr : Option A) → (v : Int) → Balances A
  | none, _ => b
  | some addr, v => ⟨addItem b.items addr v, nodup_addItem b.nodup addr v⟩

variable {b : Balances A} {a : A} {v : Int}

theorem get_post (addr : Option A) : (b.post addr v).get a = b.get a + if addr = some a then v else 0 := by
  cases addr with
  | none => simp [post]
  | some addr => simp [post, get, getItem_addItem]

theorem get_of_mem (h : (a, v) ∈ b.items) : b.get a = v := by
  obtain ⟨items, hnodup⟩ := b
  simp only [get] at h ⊢
  induction items with
  | nil => cases h
  | cons kw items ih =>
    obtain ⟨hk, hitems⟩ := List.nodup_cons.1 hnodup
    rcases List.mem_cons.1 h with rfl | h
    · simp [getItem]
    · have hne : kw.1 ≠ a := fun heq => hk (heq ▸ List.mem_map_of_mem h)
      simpa [getItem, hne] using ih hitems h

theorem mem_of_get (h : b.get a ≠ 0) : (a, b.get a) ∈ b.items := by
  simp only [get] at h ⊢
  generalize b.items = items at h ⊢
  induction items with
  | nil => exact absurd rfl h
  | cons kw items ih =>
    obtain ⟨k, w⟩ := kw
    by_cases hk : k = a
    · simp [getItem, hk]
    · simp only [getItem, if_neg hk] at h ⊢
      exact List.mem_cons_of_mem _ (ih h)

end Balances

/-! ## The walk -/

/-- What the explorer asks of its node: the blocks of a connected chain, tip first; the address of a script, which no
unspendable script has; and `getrawtransaction`, which finds every transaction of a block after the genesis block. -/
structure Node (A : Type) where
  net : Network
  C : Crypto
  links : List ChainLink
  connected : ConnectedChain net C links
  address : CScript → Option A
  address_unspendable : ∀ script, isUnspendable script = true → address script = none
  getRawTransaction : Uint256 → Option CTransaction
  txindex : ∀ link ∈ links, link.block.getHash C ≠ net.hashGenesisBlock C → ∀ tx ∈ link.block.vtx,
    ∃ tx', getRawTransaction (tx.getHash C) = some tx' ∧ tx'.vout = tx.vout

structure RichList (A : Type) where
  addresses : List (A × Int)
  scannedFromHeight : Int
  scannedToHeight : Int
  truncated : Bool

/-- The end of a slice `[:n]` of a list of length `len`. -/
def sliceEnd (len : Nat) (n : Int) : Nat := if n < 0 then (len + n).toNat else n.toNat

namespace Node

variable (N : Node A)

def creditOutput (b : Balances A) (out : CTxOut) : Balances A :=
  b.post (N.address out.scriptPubKey) out.nValue

/-- The second loop: a transaction that is not found is skipped, and a missing output is an `IndexError`. -/
def debitInput (b : Balances A) (txin : CTxIn) : Option (Balances A) :=
  match N.getRawTransaction txin.prevout.hash with
  | none => some b
  | some prevtx =>
    (prevtx.vout[txin.prevout.n]?).map fun prevout => b.post (N.address prevout.scriptPubKey) (-prevout.nValue)

def scanTx (b : Balances A) (tx : CTransaction) : Option (Balances A) :=
  let b := tx.vout.foldl N.creditOutput b
  if tx.vin = [] then none -- `tx["vin"][0]`
  else if tx.isCoinBase then some b
  else tx.vin.foldlM N.debitInput b

def scanBlock (b : Balances A) (block : CBlock) : Option (Balances A) :=
  block.vtx.foldlM N.scanTx b

def balances (startHeight : Nat) : Option (Balances A) :=
  ((N.links.reverse.map (·.block)).drop startHeight).foldlM N.scanBlock .empty

/-- `blocks` of `getblockchaininfo`. -/
def height : Int := N.links.length - 1

def startHeight (maxBlocks : Int) : Int := max 0 (N.height - maxBlocks + 1)

def richlist (maxBlocks limit : Int) : Option (RichList A) :=
  (N.balances (N.startHeight maxBlocks).toNat).map fun b =>
    { addresses := b.ranked.take (sliceEnd b.ranked.length (min limit 100))
      scannedFromHeight := N.startHeight maxBlocks
      scannedToHeight := N.height
      truncated := decide (N.startHeight maxBlocks > 0) }

end Node

/-! ## The view of the node -/

section Scan

variable {N : Node A} {b : Balances A} {m : CoinMap} {tx : CTransaction} {block : CBlock} {links : List ChainLink}
  {undo : CTxUndo} {nHeight : Nat}

def Node.paid (N : Node A) (a : A) (out : CTxOut) : Int :=
  if N.address out.scriptPubKey = some a then out.nValue else 0

def Node.unspent (N : Node A) (m : CoinMap) (a : A) : Int :=
  Ledger.total (fun c => N.paid a c.out) m

/-- The balances are those of the view, and the output of each of its coins can be looked up. -/
structure Tracks (N : Node A) (b : Balances A) (m : CoinMap) : Prop where
  get : ∀ a, b.get a = N.unspent m a
  found : ∀ o c, m.lookup o = some c → ∃ tx, N.getRawTransaction o.hash = some tx ∧ tx.vout[o.n]? = some c.out

theorem get_creditOutputs (vout : List CTxOut) (a : A) :
    (vout.foldl N.creditOutput b).get a = b.get a + (vout.map (N.paid a)).sum := by
  induction vout generalizing b with
  | nil => simp
  | cons out vout ih =>
    rw [List.foldl_cons, ih, Node.creditOutput, Balances.get_post, List.map_cons, List.sum_cons, Node.paid, add_assoc]

theorem debitInputs (hfound : ∀ o c, m.lookup o = some c →
      ∃ tx, N.getRawTransaction o.hash = some tx ∧ tx.vout[o.n]? = some c.out) {vin : List CTxIn}
    (h : List.Forall₂ (fun o c => m.lookup o = some c) (vin.map (·.prevout)) undo) :
    ∃ b', vin.foldlM N.debitInput b = some b' ∧ ∀ a, b'.get a = b.get a - (undo.map fun c => N.paid a c.out).sum := by
  induction vin generalizing b undo with
  | nil => cases h; exact ⟨b, rfl, by simp⟩
  | cons txin vin ih =>
    cases h with
    | @cons _ c _ undo hc hrest =>
      obtain ⟨prevtx, hget, hout⟩ := hfound _ c hc
      have hdebit : N.debitInput b txin = some (b.post (N.address c.out.scriptPubKey) (-c.out.nValue)) := by
        simp [Node.debitInput, hget, hout]
      obtain ⟨b', hrun, hb'⟩ := ih hrest
      refine ⟨b', by rw [List.foldlM_cons, hdebit]; exact hrun, fun a => ?_⟩
      rw [hb', Balances.get_post, List.map_cons, List.sum_cons, Node.paid]
      split <;> omega

/-- **One transaction.** -/
theorem Tracks.scanTx (h : Tracks N b m) (hvalid : Ledger.Valid m (tx.entry N.C nHeight) undo)
    (hchecked : CheckedTransaction tx)
    (hindexed : ∃ tx', N.getRawTransaction (tx.getHash N.C) = some tx' ∧ tx'.vout = tx.vout) :
    ∃ b', N.scanTx b tx = some b' ∧ Tracks N b' ((tx.entry N.C nHeight).apply m) := by
  have hvalues : ∀ out ∈ tx.vout, out.nValue ≠ -1 := by
    intro out hout hneg
    have := (moneyRange_iff.1 (hchecked.out_range out hout)).1
    omega
  have hcreated : ∀ a, ((tx.entry N.C nHeight).creates.map fun kv => N.paid a kv.2.out).sum =
      (tx.vout.map (N.paid a)).sum :=
    -- what never becomes a coin has no address
    fun a => sum_newItems hvalues fun out hburnt => by simp [Node.paid, N.address_unspendable _ hburnt]
  have hfound : ∀ o c, ((tx.entry N.C nHeight).apply m).lookup o = some c →
      ∃ tx, N.getRawTransaction o.hash = some tx ∧ tx.vout[o.n]? = some c.out := by
    refine Ledger.forall_apply h.found fun kv hkv => ?_
    obtain ⟨tx', hget, hvout⟩ := hindexed
    obtain ⟨j, out, hkey, hout, hcoin⟩ := mem_newItems hkv
    rw [hkey, Nat.zero_add, (newCoin_eq_some hcoin).2.1]
    exact ⟨tx', hget, by rw [hvout]; exact hout⟩
  obtain ⟨b', hrun, hb'⟩ : ∃ b', N.scanTx b tx = some b' ∧
      ∀ a, b'.get a = b.get a + (tx.vout.map (N.paid a)).sum - (undo.map fun c => N.paid a c.out).sum := by
    have hspent := hvalid.spends_lookup
    simp only [Node.scanTx, if_neg hchecked.vin_ne]
    cases hcb : tx.isCoinBase with
    | true =>
      simp only [CTransaction.entry, hcb, if_true, List.map_nil, List.forall₂_nil_left_iff] at hspent
      exact ⟨_, rfl, fun a => by simp [get_creditOutputs, hspent]⟩
    | false =>
      simp only [CTransaction.entry, hcb, Bool.false_eq_true, if_false] at hspent
      obtain ⟨b', hrun, hb'⟩ := debitInputs (b := tx.vout.foldl N.creditOutput b) h.found hspent
      exact ⟨b', hrun, fun a => by rw [hb', get_creditOutputs]⟩
  refine ⟨b', hrun, fun a => ?_, hfound⟩
  rw [hb', h.get, Node.unspent, Node.unspent, Ledger.total_apply _ hvalid, hcreated]
  omega

/-- **One block.** -/
theorem Tracks.scanBlock {E : Env} {pindex : CBlockIndex} {pprev : IndexChain} {view : CCoinsView} {r : ConnectResult}
    {nMax : Int} {s : ConnectState} (h : Tracks N b view.coins) (hC : E.crypto = N.C)
    (hconnected : Connected E block pindex pprev view r nMax s)
    (hindexed : ∀ tx ∈ block.vtx, ∃ tx', N.getRawTransaction (tx.getHash N.C) = some tx' ∧ tx'.vout = tx.vout) :
    ∃ b', N.scanBlock b block = some b' ∧ Tracks N b' r.view.coins := by
  refine hconnected.coins_induction (P := fun done m => ∃ b', done.foldlM N.scanTx b = some b' ∧ Tracks N b' m)
    ⟨b, rfl, h⟩ ?_
  rintro done tx m undo htx hvalid ⟨b', hrun, hb'⟩
  rw [hC] at hvalid ⊢
  obtain ⟨b'', hnext, hb''⟩ := hb'.scanTx hvalid (hconnected.checked.txs tx htx) (hindexed tx htx)
  exact ⟨b'', by rw [List.foldlM_append, hrun]; simpa using hnext, hb''⟩

theorem scanBlock_genesis (N : Node A) : ∃ b', N.scanBlock .empty (N.net.genesis N.C) = some b' ∧ ∀ a, b'.get a = 0 := by
  refine ⟨_, rfl, fun a => ?_⟩
  rw [get_creditOutputs]
  simp [Network.genesisCoinbase, Node.paid, Balances.get, Balances.empty, getItem]

/-- **A whole chain.** -/
theorem tracks_of_connected (h : ConnectedChain N.net N.C links)
    (hindexed : ∀ link ∈ links, link.block.getHash N.C ≠ N.net.hashGenesisBlock N.C → ∀ tx ∈ link.block.vtx,
      ∃ tx', N.getRawTransaction (tx.getHash N.C) = some tx' ∧ tx'.vout = tx.vout) :
    ∃ b, (links.reverse.map (·.block)).foldlM N.scanBlock .empty = some b ∧
      ∀ tip ∈ links.head?, Tracks N b tip.after.coins := by
  generalize hnet : N.net = net, hC : N.C = C at h
  induction h with
  | genesis hnet' hC' h =>
    subst hnet' hC'
    obtain ⟨b, hrun, hb⟩ := scanBlock_genesis N
    rw [hnet, hC] at hrun
    refine ⟨b, by simpa using hrun, ?_⟩
    rintro tip ⟨⟩
    have hempty := connectBlock_genesis rfl h
    refine ⟨fun a => ?_, fun o c hc => ?_⟩
    · rw [hb, Node.unspent]
      simp [hempty]
    · rw [hempty] at hc
      cases hc
  | next hlinks hnet' hC' hgenesis _ _ h ih =>
    subst hnet' hC'
    obtain ⟨b, hrun, hb⟩ := ih fun link hlink => hindexed link (List.mem_cons_of_mem _ hlink)
    obtain ⟨nMax, s, hconnected⟩ := connectBlock_eq_ok hgenesis h
    have hnew := hindexed _ List.mem_cons_self (by rw [hnet, hC]; exact hgenesis)
    obtain ⟨b', hnext, hb'⟩ := (hb _ rfl).scanBlock hC.symm hconnected hnew
    refine ⟨b', ?_, by rintro tip ⟨⟩; exact hb'⟩
    rw [List.reverse_cons, List.map_append, List.foldlM_append, hrun]
    simpa using hnext

end Scan

/-! ## The list -/

theorem get_le_of_notMem_take {b : Balances A} {n : Nat} {a : A} {kv : A × Int}
    (ha : a ∉ (b.ranked.take n).map Prod.fst) (hkv : kv ∈ b.ranked.take n) : b.get a ≤ kv.2 := by
  have hpos : 0 < kv.2 := (mem_ranked.1 (List.mem_of_mem_take hkv)).2
  by_cases hle : b.get a ≤ 0
  · omega
  have hmem : (a, b.get a) ∈ b.ranked := mem_ranked.2 ⟨Balances.mem_of_get (by omega), by simpa using hle⟩
  have hsorted := pairwise_ranked b
  rw [← List.take_append_drop n b.ranked] at hmem hsorted
  rcases List.mem_append.1 hmem with hin | hout
  · exact absurd (List.mem_map_of_mem hin) ha
  · exact (List.pairwise_append.1 hsorted).2.2 kv hkv _ hout

theorem richlist_eq_utxo (N : Node A) (maxBlocks limit : Int) (hlen : (N.links.length : Int) ≤ maxBlocks) :
    ∃ tip rest b res, N.links = tip :: rest ∧ N.balances (N.startHeight maxBlocks).toNat = some b ∧
      N.richlist maxBlocks limit = some res ∧ res.truncated = false ∧
      (∀ a, b.get a = N.unspent tip.after.coins a) ∧
      res.addresses = b.ranked.take (sliceEnd b.ranked.length (min limit 100)) ∧
      (∀ kv ∈ res.addresses, 0 < kv.2 ∧ kv.2 = b.get kv.1) ∧
      res.addresses.Pairwise (fun x y => y.2 ≤ x.2) ∧
      ∀ a, a ∉ res.addresses.map Prod.fst → ∀ kv ∈ res.addresses, b.get a ≤ kv.2 := by
  obtain ⟨tip, rest, hlinks⟩ := N.connected.exists_tip
  have hstart : N.startHeight maxBlocks = 0 := by
    rw [Node.startHeight, Node.height]
    omega
  obtain ⟨b, hrun, hb⟩ := tracks_of_connected N.connected N.txindex
  have hbalances : N.balances (N.startHeight maxBlocks).toNat = some b := by
    rw [hstart]
    exact hrun
  refine ⟨tip, rest, b, _, hlinks, hbalances, by rw [Node.richlist, hbalances]; rfl, ?_, ?_, rfl, ?_, ?_, ?_⟩
  · exact decide_eq_false (by rw [hstart]; decide)
  · exact (hb tip (by rw [hlinks]; rfl)).get
  · intro kv hkv
    obtain ⟨hmem, hpos⟩ := mem_ranked.1 (List.mem_of_mem_take hkv)
    exact ⟨hpos, (Balances.get_of_mem hmem).symm⟩
  · exact (pairwise_ranked b).sublist (List.take_sublist _ _)
  · exact fun a ha kv hkv => get_le_of_notMem_take ha hkv

def mintAddress (script : CScript) : Option Nat := if script = mintScript then some 0 else none

def indexOf (C : Crypto) (links : List ChainLink) (txid : Uint256) : Option CTransaction :=
  (links.flatMap (·.block.vtx)).find? fun tx => tx.getHash C == txid

theorem richlist_eq_utxo_stakeChain : ∃ (N : Node Nat) (tip : ChainLink) (rest : List ChainLink) (b : Balances Nat)
    (res : RichList Nat), N.links = tip :: rest ∧ N.links.length = 12 ∧
      N.balances (N.startHeight 5000).toNat = some b ∧ N.richlist 5000 20 = some res ∧
      0 < N.unspent tip.after.coins 0 ∧ (∀ a, b.get a = N.unspent tip.after.coins a) ∧
      res.addresses = b.ranked.take (sliceEnd b.ranked.length 20) := by
  have hrun : stakeChain.any (fun links => decide (links.length = 12) &&
      links.head?.any (fun tip => decide (0 < Ledger.total
        (fun c => if mintAddress c.out.scriptPubKey = some 0 then c.out.nValue else 0) tip.after.coins)) &&
      links.all fun link => link.block.vtx.all fun tx =>
        (indexOf .sample links (tx.getHash .sample)).any fun tx' => decide (tx'.vout = tx.vout)) = true := by
    decide +kernel
  cases hlinks : stakeChain with
  | none => rw [hlinks] at hrun; cases hrun
  | some links =>
    simp only [hlinks, Option.any_some, Bool.and_eq_true, decide_eq_true_eq, List.all_eq_true] at hrun
    obtain ⟨⟨hlen, hpos⟩, hindex⟩ := hrun
    let N : Node Nat :=
      { net := .regtest, C := .sample, links := links, connected := stakeChain_connected hlinks, address := mintAddress
        address_unspendable := fun script h => if_neg fun heq => by subst heq; revert h; decide
        getRawTransaction := indexOf .sample links
        txindex := fun link hlink _ tx htx => by simpa [Option.any_eq_true] using hindex link hlink tx htx }
    obtain ⟨tip, rest, b, res, hcons, hb, hres, -, hget, hranked, -⟩ := richlist_eq_utxo N 5000 20 (by simp [N, hlen])
    refine ⟨N, tip, rest, b, res, hcons, hlen, hb, hres, ?_, hget, hranked⟩
    rw [show links = tip :: rest from hcons] at hpos
    exact of_decide_eq_true hpos

end CodexaCoin.Explorer
