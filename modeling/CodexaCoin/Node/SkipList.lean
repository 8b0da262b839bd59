import CodexaCoin.Lib.SkipPointer
import CodexaCoin.Node.BlockTree

/-!
# Skip pointers of the block index

`CBlockIndex::GetAncestor` of `chain.cpp` follows `pskip` where that helps and `pprev` elsewhere; `BuildSkip` sets
`pskip` with it when `AddToBlockIndex` links a new entry to its parent. A pointer to an entry is the hash that the
entry is stored under. A header that named its own hash as its parent would find the entry that was just inserted, so
that case is kept.
-/

namespace CodexaCoin

open SkipPointer

/-! ## Skip heights -/

def invertLowestOne (n : Nat) : Nat := n &&& (n - 1)

def getSkipHeight (height : Nat) : Nat :=
  if height < 2 then 0
  else if height &&& 1 ≠ 0 then invertLowestOne (invertLowestOne (height - 1)) + 1
  else invertLowestOne height

/-- The condition of `GetAncestor` on the heights: follow `pskip` unless `pprev->pskip` is better than `pskip->pprev`. -/
def followSkip (heightWalk height : Nat) : Bool :=
  let heightSkip : Int := getSkipHeight heightWalk
  let heightSkipPrev : Int := getSkipHeight (heightWalk - 1)
  decide (heightSkip = height) ||
    decide (heightSkip > height ∧ ¬ (heightSkipPrev < heightSkip - 2 ∧ heightSkipPrev ≥ height))

theorem invertLowestOne_le (n : Nat) : invertLowestOne n ≤ n - 1 := Nat.and_le_right

theorem getSkipHeight_lt (height : Nat) (h : height ≠ 0) : getSkipHeight height < height := by
  have houter := invertLowestOne_le (invertLowestOne (height - 1))
  have hinner := invertLowestOne_le (height - 1)
  have heven := invertLowestOne_le height
  unfold getSkipHeight
  split
  · omega
  · split <;> omega

theorem le_of_followSkip (w h : Nat) (hf : followSkip w h = true) : h ≤ getSkipHeight w := by
  simp only [followSkip, Bool.or_eq_true, decide_eq_true_eq] at hf
  omega

/-! ## The block index -/

/-- A `CBlockIndex` of `m_block_index` with its pointers. -/
structure IndexEntry where
  pindex : CBlockIndex
  pprev : Option Uint256 := none
  pskip : Option Uint256 := none
  nHeight : Nat := 0
  nTimeMax : Nat := 0
  nChainWork : ArithUint256 := 0

def IndexEntry.links (e : IndexEntry) : Links Uint256 := ⟨e.pprev, e.pskip, e.nHeight⟩

abbrev BlockMap := Uint256 → Option IndexEntry

namespace BlockMap

def set (m : BlockMap) (hash : Uint256) (e : IndexEntry) : BlockMap := Function.update m hash (some e)

def links (m : BlockMap) : Memory Uint256 := fun hash => (m hash).map (·.links)

/-- `CBlockIndex::GetAncestor`. Each turn of its loop goes down, so the height bounds their number. -/
def getAncestor (m : BlockMap) (this : Uint256) (height : Int) : Except WalkError (Option Uint256) :=
  match m this with
  | none => .error .nullPrev
  | some e =>
    if height > e.nHeight ∨ height < 0 then .ok none
    else (walk m.links getSkipHeight followSkip e.nHeight this e.nHeight height.toNat).map some

def buildSkip (m : BlockMap) (hash : Uint256) (e : IndexEntry) : Except WalkError BlockMap :=
  match e.pprev with
  | none => .ok m
  | some pprev => do
    let pskip ← m.getAncestor pprev (getSkipHeight e.nHeight)
    .ok (m.set hash { e with pskip := pskip })

/-- The fields that `AddToBlockIndex` computes from the parent once it is linked. -/
def finish (m : BlockMap) (hash : Uint256) : BlockMap :=
  match m hash with
  | none => m
  | some e =>
    let pprev := e.pprev.bind m
    m.set hash { e with
      nTimeMax := pprev.elim e.pindex.nTime fun p => max p.nTimeMax e.pindex.nTime
      nChainWork := pprev.elim 0 (·.nChainWork) + getBlockProof e.pindex.nBits }

def addToBlockIndex (C : Crypto) (m : BlockMap) (header : CBlockHeader) (fSetAsProofOfStake : Bool) :
    Except WalkError BlockMap :=
  let hash := header.getHash C
  match m hash with
  | some _ => .ok m
  | none => do
    let pindexNew : IndexEntry := { pindex := .ofHeader C header (indexFlag header fSetAsProofOfStake) }
    let inserted := m.set hash pindexNew
    let linked ← match inserted header.hashPrevBlock with
      | none => .ok inserted
      | some pprev =>
        let e := { pindexNew with pprev := some header.hashPrevBlock, nHeight := pprev.nHeight + 1 }
        buildSkip (inserted.set hash e) hash e
    .ok (linked.finish hash)

def build (C : Crypto) (headers : List (CBlockHeader × Bool)) : Except WalkError BlockMap :=
  headers.foldlM (fun m header => m.addToBlockIndex C header.1 header.2) fun _ => none

/-! ## Writing entries -/

section Set

variable {m : BlockMap} {hash k : Uint256} {e e' : IndexEntry}

@[simp] theorem set_self : m.set hash e hash = some e := Function.update_self ..

theorem set_of_ne (h : k ≠ hash) : m.set hash e k = m k := Function.update_of_ne h ..

@[simp] theorem set_set : (m.set hash e).set hash e' = m.set hash e' := Function.update_idem ..

theorem links_set : (m.set hash e).links = m.links.set hash e.links := by
  funext k
  by_cases h : k = hash
  · subst h
    simp [links]
  · rw [Memory.set_of_ne h, links, set_of_ne h, links]

theorem links_of_some (h : m k = some e) : m.links k = some e.links := by
  rw [links, h]
  rfl

theorem links_set_of_links_eq (h : m hash = some e) (hlinks : e'.links = e.links) :
    (m.set hash e').links = m.links := by
  rw [links_set, hlinks]
  funext k
  by_cases hk : k = hash
  · subst hk
    rw [Memory.set_self, links_of_some h]
  · rw [Memory.set_of_ne hk]

@[simp] theorem links_finish (m : BlockMap) (hash : Uint256) : (m.finish hash).links = m.links := by
  unfold finish
  split
  · rfl
  · next e he => exact links_set_of_links_eq he rfl

end Set

/-! ## Linked indexes -/

section Linked

variable {C : Crypto} {m : BlockMap} {k : Uint256} {e : IndexEntry}

/-- **`GetAncestor` returns what following `pprev` reaches.** -/
theorem getAncestor_eq (hm : Linked m.links getSkipHeight) (hk : m k = some e) {h : Nat} (hh : h ≤ e.nHeight) :
    ∃ a, m.getAncestor k h = .ok (some a) ∧ climb m.links.prev (e.nHeight - h) k = some a := by
  obtain ⟨a, hwalk, hclimb⟩ := hm.walk getSkipHeight_lt le_of_followSkip (links_of_some hk)
    (w := e.nHeight) (h := h) (.inl rfl) hh (Nat.sub_le _ _)
  refine ⟨a, ?_, hclimb⟩
  simp only [getAncestor, hk]
  rw [if_neg (by omega), Int.toNat_natCast, hwalk]
  rfl

theorem buildSkip_linked (hm : Linked m.links getSkipHeight) (hk : m k = some e) (hheight : e.nHeight ≠ 0) :
    ∃ s, m.buildSkip k e = .ok (m.set k { e with pskip := some s }) ∧
      Linked (m.set k { e with pskip := some s }).links getSkipHeight := by
  obtain ⟨p, ep, hp, hep, hor⟩ := hm.prev k e.links (links_of_some hk) hheight
  obtain ⟨pprev, hpprev, rfl⟩ := Option.map_eq_some_iff.1 hep
  have hprev : m.links.prev k = some p := by rw [Memory.prev, links_of_some hk]; exact hp
  have hlt := getSkipHeight_lt e.nHeight hheight
  -- what `pprev->GetAncestor` returns is the ancestor of the entry itself
  obtain ⟨s, hs, hclimb⟩ : ∃ s, m.getAncestor p (getSkipHeight e.nHeight) = .ok (some s) ∧
      climb m.links.prev (e.nHeight - getSkipHeight e.nHeight) k = some s := by
    rcases hor with hsucc | ⟨rfl, hone⟩
    · have hsucc' : pprev.nHeight + 1 = e.nHeight := hsucc
      obtain ⟨s, hs, hclimb⟩ := getAncestor_eq hm hpprev (h := getSkipHeight e.nHeight) (by omega)
      refine ⟨s, hs, ?_⟩
      rw [show e.nHeight - getSkipHeight e.nHeight = pprev.nHeight - getSkipHeight e.nHeight + 1 by omega,
        climb_succ_of_prev hprev]
      exact hclimb
    · exact getAncestor_eq hm hk hlt.le
  have hpprev' : e.pprev = some p := hp
  refine ⟨s, ?_, ?_⟩
  · simp only [buildSkip, hpprev', hs]
    rfl
  · rw [links_set]
    exact hm.setSkip (links_of_some hk) hclimb

theorem link_linked (hm : Linked m.links getSkipHeight) (hnew : m k = none) {pindex : CBlockIndex}
    {hashPrev : Uint256} {pprev : IndexEntry} (hpprev : m.set k { pindex := pindex } hashPrev = some pprev) :
    Linked (m.set k { pindex := pindex, pprev := some hashPrev, nHeight := pprev.nHeight + 1 }).links getSkipHeight := by
  rw [links_set]
  refine hm.link (by rw [links, hnew]; rfl) rfl fun _ => ?_
  by_cases hself : hashPrev = k
  · subst hself
    rw [set_self] at hpprev
    cases hpprev
    exact ⟨hashPrev, _, rfl, Memory.set_self, .inr ⟨rfl, rfl⟩⟩
  · rw [set_of_ne hself] at hpprev
    refine ⟨hashPrev, pprev.links, rfl, ?_, .inl rfl⟩
    rw [Memory.set_of_ne hself, links_of_some hpprev]

theorem finish_set (m : BlockMap) (k : Uint256) (e : IndexEntry) : (m.set k e).finish k = m.set k { e with
    nTimeMax := (e.pprev.bind (m.set k e)).elim e.pindex.nTime fun p => max p.nTimeMax e.pindex.nTime
    nChainWork := (e.pprev.bind (m.set k e)).elim 0 (·.nChainWork) + getBlockProof e.pindex.nBits } := by
  simp only [finish, set_self, set_set]

/-- **What `AddToBlockIndex` does with a new header**: one entry is added, with the parent that the index has then, and
the skip pointers stay right. -/
theorem addToBlockIndex_new (hm : Linked m.links getSkipHeight) (header : CBlockHeader) (fSetAsProofOfStake : Bool)
    (hnew : m (header.getHash C) = none) :
    ∃ e, m.addToBlockIndex C header fSetAsProofOfStake = .ok (m.set (header.getHash C) e) ∧
      Linked (m.set (header.getHash C) e).links getSkipHeight ∧
      e.pindex = .ofHeader C header (indexFlag header fSetAsProofOfStake) ∧
      (header.hashPrevBlock ≠ header.getHash C →
        e.pprev = (m header.hashPrevBlock).map (fun _ => header.hashPrevBlock) ∧
        e.nHeight = (m header.hashPrevBlock).elim 0 (·.nHeight + 1) ∧
        e.nChainWork = (m header.hashPrevBlock).elim 0 (·.nChainWork) + getBlockProof header.nBits) := by
  simp only [addToBlockIndex, hnew]
  generalize hpindex : CBlockIndex.ofHeader C header (indexFlag header fSetAsProofOfStake) = pindex
  have hbits : pindex.nBits = header.nBits := by rw [← hpindex]; rfl
  cases hparent : m.set (header.getHash C) { pindex := pindex } header.hashPrevBlock with
  | none =>
    refine ⟨_, congrArg Except.ok (finish_set ..), ?_, rfl, fun hne => ?_⟩
    · rw [← finish_set, links_finish, links_set]
      exact hm.link (by rw [links, hnew]; rfl) rfl fun h => absurd rfl h
    · rw [set_of_ne hne] at hparent
      rw [hparent, ← hbits]
      exact ⟨rfl, rfl, rfl⟩
  | some pprev =>
    obtain ⟨s, hbuild, hlinked⟩ := buildSkip_linked (link_linked hm hnew hparent) set_self (Nat.succ_ne_zero _)
    simp only [set_set] at hbuild hlinked ⊢
    rw [hbuild]
    refine ⟨_, congrArg Except.ok (finish_set ..), ?_, rfl, fun hne => ?_⟩
    · rw [← finish_set, links_finish]
      exact hlinked
    · rw [set_of_ne hne] at hparent
      dsimp only
      rw [Option.bind_some, set_of_ne hne, hparent, ← hbits]
      exact ⟨rfl, rfl, rfl⟩

/-- **`AddToBlockIndex` keeps the skip pointers right**, and its `BuildSkip` meets no missing parent. -/
theorem addToBlockIndex_linked (hm : Linked m.links getSkipHeight) (header : CBlockHeader) (fSetAsProofOfStake : Bool) :
    ∃ m', m.addToBlockIndex C header fSetAsProofOfStake = .ok m' ∧ Linked m'.links getSkipHeight := by
  cases hnew : m (header.getHash C) with
  | some _ => exact ⟨m, by simp only [addToBlockIndex, hnew], hm⟩
  | none =>
    obtain ⟨e, hadd, hlinked, -⟩ := addToBlockIndex_new hm header fSetAsProofOfStake hnew
    exact ⟨_, hadd, hlinked⟩

theorem build_linked (C : Crypto) (headers : List (CBlockHeader × Bool)) :
    ∃ m, build C headers = .ok m ∧ Linked m.links getSkipHeight := by
  suffices h : ∀ m : BlockMap, Linked m.links getSkipHeight → ∃ m',
      headers.foldlM (fun m header => m.addToBlockIndex C header.1 header.2) m = .ok m' ∧ Linked m'.links getSkipHeight
    from h _ linked_empty
  induction headers with
  | nil => exact fun m hm => ⟨m, rfl, hm⟩
  | cons header headers ih =>
    intro m hm
    obtain ⟨m1, hadd, hm1⟩ := addToBlockIndex_linked hm header.1 header.2
    obtain ⟨m', hrest, hm'⟩ := ih m1 hm1
    refine ⟨m', ?_, hm'⟩
    rw [List.foldlM_cons, hadd]
    exact hrest

end Linked

/-! ## What the reward and the kernel read -/

section Times

def pindex (m : BlockMap) (hash : Uint256) : CBlockIndex :=
  ((m hash).map (·.pindex)).getD { hash := hash, nTime := 0, nBits := 0 }

/-- An entry and the entries that `pprev` leads to, as a chain. -/
def indexChain (m : BlockMap) (this : Uint256) : IndexChain :=
  match m this with
  | none => []
  | some e => (path m.links.prev e.nHeight this).map m.pindex

/-- `nOriginTime` of `GetCoinstakeMaxReward` for a coin, on top of `pindexPrev`. -/
def coinOriginTime (m : BlockMap) (pindexPrev : Uint256) (coin : Coin) : Except WalkError Int := do
  let blockFrom ← m.getAncestor pindexPrev coin.nHeight
  .ok (blockFrom.elim 0 fun b => (m.pindex b).nTime)

/-- The time of a coin that `CheckProofOfStake` and `CheckKernel` hash, on top of `pindexPrev`; none where the block
cannot be loaded. -/
def coinStakeTime (m : BlockMap) (pindexPrev : Uint256) (coin : Coin) : Except WalkError (Option Nat) := do
  let blockFrom ← m.getAncestor pindexPrev coin.nHeight
  .ok (blockFrom.map fun b => coinKernelTime coin (m.pindex b))

variable {m : BlockMap} {k a : Uint256} {e : IndexEntry}

theorem getAncestor_indexChain (hm : Linked m.links getSkipHeight) (hk : m k = some e) {h : Nat} (hh : h ≤ e.nHeight)
    (ha : climb m.links.prev (e.nHeight - h) k = some a) :
    ∃ rest, IndexChain.getAncestor (m.indexChain k) h = m.pindex a :: rest := by
  obtain ⟨root, -, hroot, -⟩ := hm.climb_of_le (links_of_some hk) (Nat.le_refl _)
  have hlen : (m.indexChain k).length = e.nHeight + 1 := by
    simp only [indexChain, hk]
    rw [List.length_map]
    exact length_path hroot
  have hget : (m.indexChain k)[e.nHeight - h]? = some (m.pindex a) := by
    simp only [indexChain, hk]
    rw [List.getElem?_map, path_getElem? (by omega), ha]
    rfl
  obtain ⟨hlt, hget⟩ := List.getElem?_eq_some_iff.1 hget
  refine ⟨(m.indexChain k).drop (e.nHeight - h + 1), ?_⟩
  rw [IndexChain.getAncestor, if_neg (by rw [IndexChain.nHeight, hlen]; omega), hlen,
    show e.nHeight + 1 - 1 - (h : Int).toNat = e.nHeight - h by omega, List.drop_eq_getElem_cons hlt, hget]

end Times

/-! ## The entries with their paths -/

section Represents

/-- The entries of a node, with their paths, are what the pointers stand for. -/
def Represents (m : BlockMap) (n : Node) : Prop :=
  ∀ hash, (n.index hash).map (fun b => (b.path, b.pindex, b.nChainWork)) =
    (m hash).map fun e => (path m.links.prev e.nHeight hash, e.pindex, e.nChainWork)

variable {E : Env} {m : BlockMap} {n : Node} {header : CBlockHeader}

theorem Represents.index_eq_none (hrep : Represents m n) {hash : Uint256} : n.index hash = none ↔ m hash = none := by
  rw [← Option.map_eq_none_iff, hrep hash, Option.map_eq_none_iff]

/-- **`AddToBlockIndex` on the pointers does what it does on the paths**, for a header that does not name its own hash as
its parent. -/
theorem Represents.addToBlockIndex (hm : Linked m.links getSkipHeight) (hrep : Represents m n)
    (hself : header.hashPrevBlock ≠ header.getHash E.crypto) (fSetAsProofOfStake : Bool) :
    ∃ m', m.addToBlockIndex E.crypto header fSetAsProofOfStake = .ok m' ∧ Linked m'.links getSkipHeight ∧
      Represents m' (CodexaCoin.addToBlockIndex E n header fSetAsProofOfStake) := by
  cases hnew : m (header.getHash E.crypto) with
  | some e =>
    refine ⟨m, by simp only [BlockMap.addToBlockIndex, hnew], hm, ?_⟩
    obtain ⟨b, hb⟩ := Option.ne_none_iff_exists'.1
      (fun h => nomatch (hrep.index_eq_none.1 h).symm.trans hnew : n.index (header.getHash E.crypto) ≠ none)
    simp only [CodexaCoin.addToBlockIndex, hb]
    exact hrep
  | none =>
    obtain ⟨e, hadd, hlinked, hpindex, hfields⟩ := addToBlockIndex_new hm header fSetAsProofOfStake hnew
    obtain ⟨hpprev, hheight, hwork⟩ := hfields hself
    refine ⟨_, hadd, hlinked, fun hash => ?_⟩
    simp only [CodexaCoin.addToBlockIndex, hrep.index_eq_none.2 hnew, Node.setEntry]
    -- the paths that were there are complete, so the new pointer does not change them
    have hpath : ∀ k e', m k = some e' → path (m.set (header.getHash E.crypto) e).links.prev e'.nHeight k =
        path m.links.prev e'.nHeight k := by
      intro k e' hk
      obtain ⟨root, -, hroot, -⟩ := hm.climb_of_le (links_of_some hk) (Nat.le_refl _)
      refine path_mono (fun k' p hp => ?_) hroot
      obtain ⟨l, hl, hp'⟩ := Option.bind_eq_some_iff.1 hp
      obtain ⟨e'', he'', rfl⟩ := Option.map_eq_some_iff.1 hl
      have hne : k' ≠ header.getHash E.crypto := by
        rintro rfl
        cases he''.symm.trans hnew
      rw [Memory.prev, links, set_of_ne hne, he'']
      exact hp'
    by_cases hk : hash = header.getHash E.crypto
    · subst hk
      rw [if_pos rfl, set_self, Option.map_some, Option.map_some, newEntry, hpindex, hwork, hheight]
      have hparent := hrep header.hashPrevBlock
      cases hp : m header.hashPrevBlock with
      | none =>
        rw [hrep.index_eq_none.2 hp]
        rfl
      | some pprev =>
        rw [hp] at hparent hpprev
        obtain ⟨b, hb, hfields⟩ := Option.map_eq_some_iff.1 hparent
        have hprev : (m.set (header.getHash E.crypto) e).links.prev (header.getHash E.crypto) =
            some header.hashPrevBlock := by
          rw [Memory.prev, links, set_self]
          exact hpprev
        rw [hb, Option.elim_some, path_succ_of_prev hprev, hpath _ pprev hp]
        simp only [Prod.mk.injEq] at hfields
        rw [Option.map_some, Option.map_some, Option.getD_some, Option.getD_some, hfields.1, hfields.2.2]
        rfl
    · rw [if_neg hk, set_of_ne hk, hrep hash]
      cases he : m hash with
      | none => rfl
      | some e' => rw [Option.map_some, Option.map_some, hpath hash e' he]

end Represents

end BlockMap

open BlockMap in
theorem skipList_ancestors (C : Crypto) (headers : List (CBlockHeader × Bool)) :
    ∃ m, build C headers = .ok m ∧ ∀ k e, m k = some e → ∀ h : Nat, h ≤ e.nHeight → ∃ a ea,
      m.getAncestor k h = .ok (some a) ∧ climb m.links.prev (e.nHeight - h) k = some a ∧ m a = some ea ∧
      ∀ coin : Coin, coin.nHeight = h →
        m.coinOriginTime k coin = .ok (ea.pindex.nTime : Int) ∧
        m.coinStakeTime k coin = .ok (some (coinKernelTime coin ea.pindex)) ∧
        originTime (m.indexChain k) coin = ea.pindex.nTime ∧
        ∃ rest, IndexChain.getAncestor (m.indexChain k) coin.nHeight = ea.pindex :: rest := by
  obtain ⟨m, hbuild, hm⟩ := build_linked C headers
  refine ⟨m, hbuild, fun k e hk h hh => ?_⟩
  obtain ⟨a, hancestor, hclimb⟩ := getAncestor_eq hm hk hh
  obtain ⟨a', la, hclimb', hla, -⟩ := hm.climb_of_le (links_of_some hk)
    (show e.nHeight - h ≤ e.nHeight from Nat.sub_le _ _)
  obtain rfl : a = a' := Option.some.inj (hclimb.symm.trans hclimb')
  obtain ⟨ea, hea, -⟩ := Option.map_eq_some_iff.1 hla
  have hpindex : m.pindex a = ea.pindex := by rw [BlockMap.pindex, hea]; rfl
  obtain ⟨rest, hrest⟩ := getAncestor_indexChain hm hk hh hclimb
  rw [hpindex] at hrest
  refine ⟨a, ea, hancestor, hclimb, hea, ?_⟩
  rintro coin rfl
  refine ⟨?_, ?_, ?_, rest, hrest⟩
  · rw [coinOriginTime, hancestor, ← hpindex]
    rfl
  · rw [coinStakeTime, hancestor, ← hpindex]
    rfl
  · rw [originTime, hrest]

/-- A header on top of `n` others. -/
def lineHeader (C : Crypto) : Nat → CBlockHeader
  | 0 => { hashPrevBlock := 0, hashMerkleRoot := 0, nTime := 1000, nBits := 0x1e0fffff }
  | n + 1 =>
    { hashPrevBlock := (lineHeader C n).getHash C, hashMerkleRoot := 0, nTime := 1016 + 16 * n, nBits := 0x1e0fffff }

open BlockMap in
theorem skipList_ancestors_line :
    ∃ m e a ea, build .sample ((List.range 6).map fun n => (lineHeader .sample n, false)) = .ok m ∧
      m ((lineHeader .sample 5).getHash .sample) = some e ∧ e.nHeight = 5 ∧
      m.getAncestor ((lineHeader .sample 5).getHash .sample) 2 = .ok (some a) ∧
      climb m.links.prev 3 ((lineHeader .sample 5).getHash .sample) = some a ∧ m a = some ea := by
  obtain ⟨m, hbuild, h⟩ := skipList_ancestors .sample ((List.range 6).map fun n => (lineHeader .sample n, false))
  have hheight : ((build .sample ((List.range 6).map fun n => (lineHeader .sample n, false))).toOption.bind fun m =>
      m ((lineHeader .sample 5).getHash .sample)).map (·.nHeight) = some 5 := by decide +kernel
  rw [hbuild] at hheight
  obtain ⟨e, he, hfive⟩ := Option.map_eq_some_iff.1 hheight
  obtain ⟨a, ea, hancestor, hclimb, hea, -⟩ := h _ e he 2 (by omega)
  rw [hfive] at hclimb
  exact ⟨m, e, a, ea, hbuild, he, hfive, hancestor, hclimb, hea⟩

/-! ## Pointers and paths -/

section Refines

variable {E : Env} {headers : List (CBlockHeader × Bool)} {m : BlockMap} {n : Node}

def addHeaders (E : Env) (n : Node) (headers : List (CBlockHeader × Bool)) : Node :=
  headers.foldl (fun n header => addToBlockIndex E n header.1 header.2) n

theorem BlockMap.Represents.addHeaders (hm : Linked m.links getSkipHeight) (hrep : Represents m n)
    (hself : ∀ header ∈ headers, header.1.hashPrevBlock ≠ header.1.getHash E.crypto) :
    ∃ m', headers.foldlM (fun m header => m.addToBlockIndex E.crypto header.1 header.2) m = .ok m' ∧
      Linked m'.links getSkipHeight ∧ Represents m' (CodexaCoin.addHeaders E n headers) := by
  induction headers generalizing m n with
  | nil => exact ⟨m, rfl, hm, hrep⟩
  | cons header headers ih =>
    obtain ⟨m1, hadd, hm1, hrep1⟩ := hrep.addToBlockIndex hm (hself header List.mem_cons_self) header.2
    obtain ⟨m', hrest, hm', hrep'⟩ := ih hm1 hrep1 fun h hh => hself h (List.mem_cons_of_mem _ hh)
    refine ⟨m', ?_, hm', hrep'⟩
    rw [List.foldlM_cons, hadd]
    exact hrest

open BlockMap in
/-- **The index with skip pointers refines the index with paths.** Whatever headers `AddToBlockIndex` gets, both have the
same entries, and `GetAncestor` of an entry reads the hash that its path has at that height. -/
theorem skipIndex_refines (hempty : ∀ hash, n.index hash = none)
    (hself : ∀ header ∈ headers, header.1.hashPrevBlock ≠ header.1.getHash E.crypto) :
    ∃ m, build E.crypto headers = .ok m ∧ Represents m (addHeaders E n headers) ∧
      ∀ k b, (addHeaders E n headers).index k = some b →
        ∀ h < b.path.length, m.getAncestor k (h : Nat) = .ok b.path[b.path.length - 1 - h]? := by
  have hstart : Represents (fun _ => none) n := fun hash => by rw [hempty hash]; rfl
  obtain ⟨m, hbuild, hm, hrep⟩ := hstart.addHeaders linked_empty hself
  refine ⟨m, hbuild, hrep, fun k b hb h hh => ?_⟩
  have hentry := hrep k
  rw [hb, Option.map_some] at hentry
  obtain ⟨e, he, hfields⟩ := Option.map_eq_some_iff.1 hentry.symm
  have hpath : path m.links.prev e.nHeight k = b.path := congrArg Prod.fst hfields
  obtain ⟨root, -, hroot, -⟩ := hm.climb_of_le (links_of_some he) (Nat.le_refl _)
  have hlen : b.path.length = e.nHeight + 1 := (congrArg List.length hpath).symm.trans (length_path hroot)
  obtain ⟨a, hancestor, hclimb⟩ := getAncestor_eq hm he (show h ≤ e.nHeight from by omega)
  rw [hancestor, hlen, ← hpath, path_getElem? (by omega), Nat.add_sub_cancel]
  exact congrArg Except.ok hclimb.symm

def emptyNode : Node := ⟨fun _ => none, [], ⟨∅, 0⟩, [], [], [], 0, none⟩

theorem skipIndex_refines_line :
    ∃ m, BlockMap.build .sample ((List.range 6).map fun n => (lineHeader .sample n, false)) = .ok m ∧
      m.Represents
        (addHeaders (.sample .regtest 0) emptyNode ((List.range 6).map fun n => (lineHeader .sample n, false))) := by
  have hself : ∀ header ∈ (List.range 6).map fun n => (lineHeader .sample n, false),
      header.1.hashPrevBlock ≠ header.1.getHash (Env.sample .regtest 0).crypto := by decide +kernel
  obtain ⟨m, hbuild, hrep, -⟩ := skipIndex_refines (n := emptyNode) (fun _ => rfl) hself
  exact ⟨m, hbuild, hrep⟩

end Refines

end CodexaCoin
