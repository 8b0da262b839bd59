import CodexaCoin.Node.Persist

/-!
# Stake modifiers are a function of the chain

`ConnectBlock` writes the modifier of a block into its index entry, where it stays when the block is disconnected, and
marks the entry for writing only if it was not valid up to the scripts before.
-/

namespace CodexaCoin

open Check Consensus CoinMap IndexChain WriteBehind

/-- The modifier of the first block of a path: zero for the genesis block, and else the hash of the block's kernel with
the modifier of its parent. -/
def chainModifier (C : Crypto) (kernel : Uint256 → Uint256) : BlockPath → Uint256
  | hash :: pprev :: rest =>
    C.hash256 (serUint256 (kernel hash) ++ serUint256 (chainModifier C kernel (pprev :: rest)))
  | _ => 0

def ModifierRight (C : Crypto) (F : BlockFacts) (_hash : Uint256) (e : BlockEntry) : Prop :=
  e.pindex.nStakeModifier = chainModifier C F.kernel e.path

structure Described (net : Network) (C : Crypto) (F : BlockFacts) (hash : Uint256) (e : BlockEntry) : Prop where
  own : e.pindex.hash = hash
  time : e.pindex.nTime = if hash = net.hashGenesisBlock C then net.params.genesisTime else F.time hash
  data : ∀ block, e.data = some block → hash ≠ net.hashGenesisBlock C →
    ∀ E : Env, E.crypto = C → modifierKernel E block = F.kernel hash
  genesis : hash = net.hashGenesisBlock C → e.path = [hash] ∧ e.pindex.nStakeModifier = 0

/-- Entries of the active chain and of every block that was once valid up to its scripts have their modifier in memory
and, unless they are still to be written, on disk. -/
structure Sound (net : Network) (C : Crypto) (F : BlockFacts) (m : DiskNode) : Prop where
  rooted : m.node.Rooted net C
  described : ∀ hash e, m.node.index hash = some e → Described net C F hash e
  scripts : ∀ hash e, m.node.index hash = some e → e.validity = .scripts → m.store.Sealed (ModifierRight C F) hash
  genesis : m.store.Sealed (ModifierRight C F) (net.hashGenesisBlock C)
  active : ∀ hash ∈ m.node.chain, m.store.Sealed (ModifierRight C F) hash
  chain : m.node.chain = [] ∨ ∃ hash e, m.node.index hash = some e ∧ e.path = m.node.chain
  best : m.node.view.hashBlock = m.node.chain.head?.getD 0
  onDisk : ∀ hash d, m.blockTree hash = some d → Described net C F hash d ∧
    (d.validity = .scripts → ModifierRight C F hash d) ∧ ∃ e, m.node.index hash = some e ∧ e.path = d.path
  stored : ∀ hash e, m.node.index hash = some e → m.dirty hash = true ∨ ∃ d, m.blockTree hash = some d
  diskClosed : ∀ hash d, m.blockTree hash = some d → ∀ a ∈ d.path, ∃ d', m.blockTree a = some d'
  coins : m.coinsDB.hashBlock = 0 ∨ ∃ d, m.blockTree m.coinsDB.hashBlock = some d ∧
    ∀ a ∈ d.path, m.store.Sealed (ModifierRight C F) a ∧ Holds (ModifierRight C F) m.blockTree a

section Entries

variable {net : Network} {C : Crypto} {F : BlockFacts} {hash : Uint256} {e e' : BlockEntry} {S : CBlock → Prop}

theorem Described.keep (h : Described net C F hash e) (hk : Kept S e e')
    (hS : ∀ block, S block → hash ≠ net.hashGenesisBlock C →
      ∀ E : Env, E.crypto = C → modifierKernel E block = F.kernel hash) : Described net C F hash e' := by
  refine ⟨by rw [hk.pindex]; exact h.own, by rw [hk.pindex]; exact h.time, fun block hb => ?_, fun hg => ?_⟩
  · rcases hk.data block hb with hb | hb
    · exact h.data block hb
    · exact hS block hb
  · rw [hk.path, hk.pindex]
    exact h.genesis hg

theorem ModifierRight.keep (h : ModifierRight C F hash e) (hk : Kept S e e') : ModifierRight C F hash e' := by
  rw [ModifierRight, hk.pindex, hk.path]
  exact h

theorem Described.right_genesis (h : Described net C F (net.hashGenesisBlock C) e) :
    ModifierRight C F (net.hashGenesisBlock C) e := by
  obtain ⟨hpath, hmod⟩ := h.genesis rfl
  rw [ModifierRight, hpath, hmod]
  rfl

theorem BlockEntry.raiseValidity_fields (e : BlockEntry) (nUpTo : BlockValidity) :
    (e.raiseValidity nUpTo).path = e.path ∧ (e.raiseValidity nUpTo).pindex = e.pindex ∧
      (e.raiseValidity nUpTo).data = e.data := by
  unfold BlockEntry.raiseValidity
  split
  · exact ⟨rfl, rfl, rfl⟩
  · split <;> exact ⟨rfl, rfl, rfl⟩

theorem readBlockFromDisk_kernel {E : Env} {block : CBlock} (h : readBlockFromDisk E e = some block) :
    ∃ stored, e.data = some stored ∧ modifierKernel E block = modifierKernel E stored := by
  obtain ⟨stored, hdata, h⟩ := Option.bind_eq_some_iff.1 h
  refine ⟨stored, hdata, ?_⟩
  have hreread : modifierKernel E stored.reread = modifierKernel E stored := by
    unfold modifierKernel
    rw [stored.isProofOfStake_reread, stored.reread_vtx, stored.getHash_reread]
    generalize stored.isProofOfStake = fProofOfStake
    rcases stored.vtx with _ | ⟨tx0, _ | ⟨⟨vin, vout, nVersion, nTime, nLockTime⟩, rest⟩⟩
    · cases fProofOfStake <;> rfl
    · cases fProofOfStake <;> rfl
    · cases fProofOfStake <;> cases vin <;> rfl
  rw [← hreread]
  dsimp only at h
  split at h
  · cases h
  · split at h
    · cases h
    · split at h
      · cases h
      · cases h
        rfl

end Entries

/-! ## Steps in memory -/

section Memory

variable {net : Network} {C : Crypto} {F : BlockFacts} {m : DiskNode} {node : Node} {dirty : Uint256 → Bool}
  {S : Uint256 → CBlock → Prop}

/-- No entry leaves the index or moves, and no modifier that was right is spoiled. -/
def ModifiersKept (C : Crypto) (F : BlockFacts) (n n' : Node) : Prop :=
  ∀ hash e, n.index hash = some e → ∃ e', n'.index hash = some e' ∧ e'.path = e.path ∧
    (ModifierRight C F hash e → ModifierRight C F hash e')

theorem ModifiersKept.sealed {hash : Uint256} (h : ModifiersKept C F m.node node) (hdirty : Marks m.dirty dirty)
    (hs : m.store.Sealed (ModifierRight C F) hash) :
    Store.Sealed (ModifierRight C F) ⟨node.index, dirty, m.blockTree⟩ hash := by
  refine hs.keep (fun e he hright => ?_) hdirty rfl
  obtain ⟨e', he', -, hright'⟩ := h hash e he
  exact ⟨e', he', hright' hright⟩

theorem Sound.update (h : Sound net C F m) (hrooted : node.Rooted net C)
    (hdescribed : ∀ hash e, node.index hash = some e → Described net C F hash e) (hdirty : Marks m.dirty dirty)
    (hkept : ModifiersKept C F m.node node)
    (hnew : ∀ hash, m.node.index hash = none → node.index hash ≠ none → dirty hash = true)
    (hscripts : ∀ hash e, node.index hash = some e → e.validity = .scripts →
      Store.Sealed (ModifierRight C F) ⟨node.index, dirty, m.blockTree⟩ hash)
    (hactive : ∀ hash ∈ node.chain, Store.Sealed (ModifierRight C F) ⟨node.index, dirty, m.blockTree⟩ hash)
    (hchain : node.chain = [] ∨ ∃ hash e, node.index hash = some e ∧ e.path = node.chain)
    (hbest : node.view.hashBlock = node.chain.head?.getD 0) :
    Sound net C F { m with node := node, dirty := dirty } := by
  refine ⟨hrooted, hdescribed, hscripts, hkept.sealed hdirty h.genesis, hactive, hchain, hbest, fun hash d hd => ?_,
    fun hash e he => ?_, h.diskClosed, ?_⟩
  · obtain ⟨hdesc, hright, e, he, hpath⟩ := h.onDisk hash d hd
    obtain ⟨e', he', hpath', -⟩ := hkept hash e he
    exact ⟨hdesc, hright, e', he', hpath'.trans hpath⟩
  · cases hm : m.node.index hash with
    | none => exact .inl (hnew hash hm (Option.ne_none_iff_exists'.2 ⟨e, he⟩))
    | some e0 => exact (h.stored hash e0 hm).imp (hdirty hash) id
  · refine h.coins.imp id ?_
    rintro ⟨d, hd, hpath⟩
    exact ⟨d, hd, fun a ha => ⟨hkept.sealed hdirty (hpath a ha).1, (hpath a ha).2⟩⟩

theorem Sound.sameChain (h : Sound net C F m) (hrooted : node.Rooted net C)
    (hdescribed : ∀ hash e, node.index hash = some e → Described net C F hash e) (hdirty : Marks m.dirty dirty)
    (hkept : ModifiersKept C F m.node node)
    (hnew : ∀ hash, m.node.index hash = none → node.index hash ≠ none → dirty hash = true)
    (hscripts : ∀ hash e, node.index hash = some e → e.validity = .scripts →
      ∃ e0, m.node.index hash = some e0 ∧ e0.validity = .scripts)
    (hchain : node.chain = m.node.chain) (hview : node.view = m.node.view) :
    Sound net C F { m with node := node, dirty := dirty } := by
  refine h.update hrooted hdescribed hdirty hkept hnew (fun hash e he hv => ?_)
    (fun hash hmem => hkept.sealed hdirty (h.active hash (hchain ▸ hmem))) ?_ (by rw [hchain, hview]; exact h.best)
  · obtain ⟨e0, he0, hv0⟩ := hscripts hash e he hv
    exact hkept.sealed hdirty (h.scripts hash e0 he0 hv0)
  · rw [hchain]
    refine h.chain.imp id ?_
    rintro ⟨hash, e, he, hpath⟩
    obtain ⟨e', he', hpath', -⟩ := hkept hash e he
    exact ⟨hash, e', he', hpath'.trans hpath⟩

theorem Sound.keeps (h : Sound net C F m) (hk : Keeps S m.node node) (hdirty : Marks m.dirty dirty)
    (hS : ∀ hash block, S hash block → hash ≠ net.hashGenesisBlock C →
      ∀ E : Env, E.crypto = C → modifierKernel E block = F.kernel hash) :
    Sound net C F { m with node := node, dirty := dirty } := by
  refine h.sameChain (h.rooted.preserves hk.preserves) (fun hash e he => ?_) hdirty (fun hash e he => ?_)
    (fun hash hnone hsome => absurd (hk.absent hash hnone) hsome) (fun hash e he hv => ?_) hk.chain hk.view
  · obtain ⟨e0, he0, hkept⟩ := hk.source he
    exact (h.described hash e0 he0).keep hkept (hS hash)
  · obtain ⟨e', he', hkept⟩ := hk.kept hash e he
    exact ⟨e', he', hkept.path, fun hright => hright.keep hkept⟩
  · obtain ⟨e0, he0, hkept⟩ := hk.source he
    exact ⟨e0, he0, hkept.validity hv⟩

theorem not_nothing : ∀ hash block, nothing hash block → hash ≠ net.hashGenesisBlock C →
    ∀ E : Env, E.crypto = C → modifierKernel E block = F.kernel hash :=
  fun _ _ h => h.elim

end Memory

/-! ## Messages -/

section Messages

variable {E : Env} {F : BlockFacts} {m : DiskNode} {node : Node} {dirty : Uint256 → Bool}

theorem HeaderAdded.described {header : CBlockHeader} {fOldClient fSet : Bool} {pindexPrev : BlockEntry}
    (hadd : HeaderAdded E m.node header fOldClient pindexPrev fSet node) (h : Sound E.net E.crypto F m)
    (htime : F.TimeOf E.crypto header) :
    Described E.net E.crypto F (header.getHash E.crypto) (newEntry E.crypto header fSet (some pindexPrev)) := by
  have hne : header.getHash E.crypto ≠ E.net.hashGenesisBlock E.crypto := by
    intro heq
    exact h.rooted.genesis (heq ▸ hadd.fresh)
  refine ⟨rfl, ?_, nofun, fun hg => absurd hg hne⟩
  rw [if_neg hne]
  exact htime

theorem Sound.header {header : CBlockHeader} {min_pow_checked fOldClient : Bool} (h : Sound E.net E.crypto F m)
    (htime : F.TimeOf E.crypto header)
    (hnode : (acceptBlockHeader E m.node header min_pow_checked fOldClient).1 = node) (hdirty : Marks m.dirty dirty)
    (hnew : ∀ hash, m.node.index hash = none → node.index hash ≠ none → dirty hash = true) :
    Sound E.net E.crypto F { m with node := node, dirty := dirty } := by
  rcases acceptBlockHeader_shapes h.rooted.genesis (Prod.ext hnode rfl) with
    rfl | ⟨failedit, path, -, rfl, -⟩ | ⟨pindexPrev, fSet, hadd⟩
  · exact h.keeps (.refl (S := nothing) _) hdirty not_nothing
  · exact h.keeps (markFailedChildren_keeps failedit path m.node).1 hdirty not_nothing
  · have hindex : ∀ hash, node.index hash = if hash = header.getHash E.crypto then
        some (newEntry E.crypto header fSet (some pindexPrev)) else m.node.index hash := by
      rw [hadd.result]
      exact fun _ => rfl
    -- every entry that was there is still there
    have hsame : ∀ hash e, m.node.index hash = some e → node.index hash = some e := by
      intro hash e he
      rw [hindex, if_neg]
      · exact he
      · rintro rfl
        rw [hadd.fresh] at he
        cases he
    refine h.sameChain (hnode ▸ h.rooted.header) (fun hash e he => ?_) hdirty
      (fun hash e he => ⟨e, hsame hash e he, rfl, id⟩) hnew (fun hash e he hv => ?_) (by rw [hadd.result]; rfl)
      (by rw [hadd.result]; rfl)
    · rw [hindex] at he
      split at he
      · next heq =>
        cases he
        exact heq ▸ hadd.described h htime
      · exact h.described hash e he
    · rw [hindex] at he
      split at he
      · cases he
        cases hv
      · exact ⟨e, he, hv⟩

theorem Sound.block {block : CBlock} {force_processing min_pow_checked : Bool} (h : Sound E.net E.crypto F m)
    (htime : F.TimeOf E.crypto block.getBlockHeader) (hkernel : F.KernelOf E block)
    (hnode : (processNewBlock E m.node block force_processing min_pow_checked).1 = node)
    (hdirty : Marks m.dirty dirty)
    (hnew : ∀ hash, m.node.index hash = none → node.index hash ≠ none → dirty hash = true) :
    Sound E.net E.crypto F { m with node := node, dirty := dirty } := by
  rcases processNewBlock_stages hnode with rfl | hstage | ⟨-, hstage⟩
  · exact h.keeps (.refl (S := nothing) _) hdirty not_nothing
  · exact h.header htime hstage.symm hdirty hnew
  · -- the header first, and then the data of the block
    have hk := (acceptBlockData_keeps (E := E)
      (acceptBlockHeader E m.node block.getBlockHeader min_pow_checked false).1 block force_processing).1
    rw [← hstage] at hk
    have hheader : Sound E.net E.crypto F { m with
        node := (acceptBlockHeader E m.node block.getBlockHeader min_pow_checked false).1, dirty := dirty } := by
      refine h.header htime rfl hdirty fun hash hnone hsome => hnew hash hnone ?_
      obtain ⟨e, he⟩ := Option.ne_none_iff_exists'.1 hsome
      obtain ⟨e', he', -⟩ := hk.kept hash e he
      exact Option.ne_none_iff_exists'.2 ⟨e', he'⟩
    refine hheader.keeps hk (.refl _) ?_
    rintro hash b ⟨rfl, rfl, hmerkle⟩ - E' hE'
    have hsame : modifierKernel E' b = modifierKernel E b := by unfold modifierKernel; rw [hE']
    rw [hsame]
    exact hkernel hmerkle

end Messages

/-! ## The tip -/

section Tip

variable {E : Env} {F : BlockFacts} {m : DiskNode} {node : Node} {dirty : Uint256 → Bool} {hash : Uint256}
  {net : Network} {C : Crypto} {block : CBlock} {pindex : CBlockIndex} {pprev : IndexChain} {view : CCoinsView}
    {pindexNew : BlockEntry} {pblock : Option CBlock}

theorem Sound.suffix (h : Sound net C F m) {rest : BlockPath}
    (hs : (hash :: rest) <:+ m.node.chain) :
    ∃ e, m.node.index hash = some e ∧ e.path = hash :: rest ∧ ModifierRight C F hash e := by
  rcases h.chain with hnil | ⟨a, ea, hea, hpath⟩
  · rw [hnil] at hs
    exact absurd (List.suffix_nil.1 hs) (List.cons_ne_nil _ _)
  · obtain ⟨e, he, hpath'⟩ := h.rooted.ancestor a ea hea hash rest (hpath ▸ hs)
    obtain ⟨e1, he1, hright⟩ := (h.active hash (hs.subset (by simp))).mem
    have he1 : m.node.index hash = some e1 := he1
    rw [he] at he1
    cases he1
    exact ⟨e, he, hpath', hright⟩

theorem Sound.computeStakeModifier_eq (h : Sound net C F m) (hash : Uint256) :
    computeStakeModifier C (m.node.indexChain m.node.chain) (F.kernel hash) =
      chainModifier C F.kernel (hash :: m.node.chain) := by
  cases hchain : m.node.chain with
  | nil => rfl
  | cons tip rest =>
    have hs : (tip :: rest) <:+ m.node.chain := by rw [hchain]
    obtain ⟨e, he, hpath, hright⟩ := h.suffix hs
    have hpindex : m.node.pindex tip = e.pindex := by simp [Node.pindex, he]
    rw [Node.indexChain, List.map_cons, computeStakeModifier, hpindex, hright, hpath]
    rfl

theorem connectBlock_hashBlock     {r : ConnectResult} (h : connectBlock E block pindex pprev view false = .ok r) :
    r.view.hashBlock = pindex.hash := by
  obtain ⟨-, h⟩ := require_bind_eq_ok.1 h
  obtain ⟨-, h⟩ := require_bind_eq_ok.1 h
  obtain ⟨⟨⟩, -, h⟩ := bind_eq_ok.1 h
  obtain ⟨-, h⟩ := require_bind_eq_ok.1 h
  obtain ⟨nMax, -, h⟩ := bind_eq_ok.1 h
  split at h
  · cases h
    rfl
  · obtain ⟨-, h⟩ := require_bind_eq_ok.1 h
    obtain ⟨s, -, h⟩ := bind_eq_ok.1 h
    obtain ⟨⟨⟩, -, h⟩ := bind_eq_ok.1 h
    cases h
    rfl

theorem connectBlock_merkleRoot     {r : ConnectResult} (h : connectBlock E block pindex pprev view false = .ok r) :
    block.hashMerkleRoot = (blockMerkleRoot E.crypto block).1 := by
  obtain ⟨-, h⟩ := require_bind_eq_ok.1 h
  obtain ⟨-, h⟩ := require_bind_eq_ok.1 h
  obtain ⟨⟨⟩, hcheck, -⟩ := bind_eq_ok.1 h
  exact checkBlock_merkleRoot (corruptIsFatal_eq_ok hcheck)

/-- The entry of the block that `ConnectTip` connects, as `setTip` leaves it. -/
def connectedEntry (E : Env) (hash : Uint256) (r : ConnectResult) (e : BlockEntry) : BlockEntry :=
  if hash = E.net.hashGenesisBlock E.crypto then e
  else { e with
    undo := some (e.undo.getD r.blockundo)
    pindex := { e.pindex with nStakeModifier := r.nStakeModifier } }.raiseValidity .scripts

theorem setTip_index {r : ConnectResult} (he : m.node.index hash = some pindexNew)
    (hown : pindexNew.pindex.hash = hash) (a : Uint256) :
    (setTip E m.node pindexNew r).index a =
      if a = hash then some (connectedEntry E hash r pindexNew) else m.node.index a := by
  subst hown
  simp only [setTip, Node.modify, he, Node.setEntry]
  rfl

theorem connectedEntry_fields (E : Env) (hash : Uint256) (r : ConnectResult) (e : BlockEntry) :
    (connectedEntry E hash r e).path = e.path ∧ (connectedEntry E hash r e).pindex.hash = e.pindex.hash ∧
      (connectedEntry E hash r e).pindex.nTime = e.pindex.nTime ∧ (connectedEntry E hash r e).data = e.data := by
  unfold connectedEntry
  split
  · exact ⟨rfl, rfl, rfl, rfl⟩
  · obtain ⟨hpath, hpindex, hdata⟩ := BlockEntry.raiseValidity_fields { e with
      undo := some (e.undo.getD r.blockundo)
      pindex := { e.pindex with nStakeModifier := r.nStakeModifier } } .scripts
    rw [hpath, hpindex, hdata]
    exact ⟨rfl, rfl, rfl, rfl⟩

theorem Sound.connected_kernel {r : ConnectResult}
    (h : Sound E.net E.crypto F m) (hkernel : ∀ b, pblock = some b → F.KernelOf E b)
    (he : m.node.index hash = some pindexNew) (hne : hash ≠ E.net.hashGenesisBlock E.crypto)
    (hsource : pblock = some block ∨ readBlockFromDisk E pindexNew = some block)
    (hconnect : connectBlock E block pindexNew.pindex (m.node.indexChain m.node.chain) m.node.view false = .ok r) :
    modifierKernel E block = F.kernel hash := by
  rcases hsource with hpblock | hread
  · have hhash := connectBlock_hash hconnect
    rw [(h.described hash pindexNew he).own] at hhash
    rw [hhash]
    exact hkernel block hpblock (connectBlock_merkleRoot hconnect)
  · obtain ⟨stored, hdata, heq⟩ := readBlockFromDisk_kernel hread
    rw [heq]
    exact (h.described hash pindexNew he).data stored hdata hne E rfl

theorem Sound.connectedEntry_right     {r : ConnectResult} (h : Sound E.net E.crypto F m)
    (hkernel : ∀ b, pblock = some b → F.KernelOf E b)
    (he : m.node.index hash = some pindexNew) (hpath : pindexNew.path = hash :: m.node.chain)
    (hsource : pblock = some block ∨ readBlockFromDisk E pindexNew = some block)
    (hconnect : connectBlock E block pindexNew.pindex (m.node.indexChain m.node.chain) m.node.view false = .ok r) :
    ModifierRight E.crypto F hash (connectedEntry E hash r pindexNew) := by
  by_cases hg : hash = E.net.hashGenesisBlock E.crypto
  · rw [connectedEntry, if_pos hg]
    subst hg
    exact (h.described _ pindexNew he).right_genesis
  · have hhash := connectBlock_hash hconnect
    rw [(h.described hash pindexNew he).own] at hhash
    obtain ⟨nMax, s, hc⟩ := connectBlock_eq_ok (by rw [← hhash]; exact hg) hconnect
    obtain ⟨hpath', hpindex, -⟩ := BlockEntry.raiseValidity_fields { pindexNew with
      undo := some (pindexNew.undo.getD r.blockundo)
      pindex := { pindexNew.pindex with nStakeModifier := r.nStakeModifier } } .scripts
    rw [connectedEntry, if_neg hg, ModifierRight, hpath', hpindex]
    show r.nStakeModifier = chainModifier E.crypto F.kernel pindexNew.path
    rw [hpath, ← h.computeStakeModifier_eq, hc.modifier, h.connected_kernel hkernel he hg hsource hconnect]

theorem Sound.connect (h : Sound E.net E.crypto F m)
    (hkernel : ∀ b, pblock = some b → F.KernelOf E b)
    (hnode : connectTip E m.node hash pblock = (node, .connected block)) (hdirty : Marks m.dirty dirty)
    (hmark : ∀ e, m.node.index hash = some e → hash ≠ E.net.hashGenesisBlock E.crypto → e.isValidScripts = false →
      dirty hash = true) :
    Sound E.net E.crypto F { m with node := node, dirty := dirty } := by
  have hconnected := connectTip_connected hnode
  have hrooted := h.rooted.preserves (hconnected.activated h.rooted.toClosed).1.index
  obtain ⟨pindexNew, r, he, htail, hsource, hconnect, rfl⟩ := hconnected.entry
  have hdesc := h.described hash pindexNew he
  obtain ⟨-, rest, hrest⟩ := h.rooted.own hash pindexNew he
  have hpath : pindexNew.path = hash :: m.node.chain := by rw [← htail, hrest]; rfl
  have hright := h.connectedEntry_right hkernel he hpath hsource hconnect
  obtain ⟨hpath', hhash', htime', hdata'⟩ := connectedEntry_fields E hash r pindexNew
  have hindex := setTip_index (E := E) (r := r) he hdesc.own
  have hchain : (setTip E m.node pindexNew r).chain = hash :: m.node.chain := by
    rw [(setTip_activated (E := E) m.node pindexNew r).2, hdesc.own]
  have hself : (setTip E m.node pindexNew r).index hash = some (connectedEntry E hash r pindexNew) := by
    rw [hindex, if_pos rfl]
  -- entries that had their modifier still have it
  have hkept : ModifiersKept E.crypto F m.node (setTip E m.node pindexNew r) := by
    intro a e hae
    by_cases heq : a = hash
    · subst heq
      rw [he] at hae
      cases hae
      exact ⟨_, hself, hpath', fun _ => hright⟩
    · exact ⟨e, by rw [hindex, if_neg heq]; exact hae, rfl, id⟩
  -- the block itself was marked now, or is valid up to its scripts and sealed since then
  have hnew : Store.Sealed (ModifierRight E.crypto F) ⟨(setTip E m.node pindexNew r).index, dirty, m.blockTree⟩
      hash := by
    by_cases hg : hash = E.net.hashGenesisBlock E.crypto
    · exact hkept.sealed hdirty (hg ▸ h.genesis)
    · cases hvalid : pindexNew.isValidScripts with
      | false => exact .mark ⟨_, hself, hright⟩ (hmark pindexNew he hg hvalid)
      | true =>
        have hv : pindexNew.validity = .scripts := by
          simp only [BlockEntry.isValidScripts, Bool.and_eq_true, beq_iff_eq] at hvalid
          exact hvalid.2
        exact hkept.sealed hdirty (h.scripts hash pindexNew he hv)
  refine h.update hrooted (fun a e hae => ?_) hdirty hkept (fun a hnone hsome => ?_) (fun a e hae hv => ?_)
    (fun a ha => ?_) (.inr ⟨hash, _, hself, by rw [hpath', hpath, hchain]⟩) ?_
  · rw [hindex] at hae
    split at hae
    · next heq =>
      subst heq
      cases hae
      refine ⟨hhash'.trans hdesc.own, htime'.trans hdesc.time, fun b hb => hdesc.data b (hdata' ▸ hb), fun hg => ?_⟩
      rw [connectedEntry, if_pos hg]
      exact hdesc.genesis hg
    · exact h.described a e hae
  · rw [hindex] at hsome
    split at hsome
    · next heq =>
      subst heq
      rw [he] at hnone
      cases hnone
    · exact absurd hnone hsome
  · by_cases heq : a = hash
    · exact heq ▸ hnew
    · rw [hindex, if_neg heq] at hae
      exact hkept.sealed hdirty (h.scripts a e hae hv)
  · rw [hchain] at ha
    rcases List.mem_cons.1 ha with rfl | ha
    · exact hnew
    · exact hkept.sealed hdirty (h.active a ha)
  · rw [hchain]
    exact (connectBlock_hashBlock hconnect).trans hdesc.own

theorem Sound.disconnect (h : Sound E.net E.crypto F m) (hnode : disconnectTip E m.node = some node) :
    Sound E.net E.crypto F { m with node := node } := by
  have hspec := disconnectTip_eq_some hnode
  obtain ⟨hindex, -, htail⟩ := hspec
  have hsub : ∀ hash ∈ node.chain, hash ∈ m.node.chain := fun hash hmem =>
    List.mem_of_mem_tail (htail ▸ hmem)
  have hbest : node.view.hashBlock = node.chain.head?.getD 0 := by
    unfold disconnectTip at hnode
    split at hnode
    · next hash hashPrev rest hchain =>
      obtain ⟨pindexDelete, -, hnode⟩ := Option.bind_eq_some_iff.1 hnode
      obtain ⟨block, -, hnode⟩ := Option.bind_eq_some_iff.1 hnode
      obtain ⟨blockUndo, -, hnode⟩ := Option.bind_eq_some_iff.1 hnode
      split at hnode
      · next view hview =>
        cases hnode
        have hs : (hashPrev :: rest) <:+ m.node.chain := hchain ▸ List.suffix_cons _ _
        obtain ⟨e, he, -, -⟩ := h.suffix hs
        have hpindex : (m.node.pindex hashPrev).hash = hashPrev := by
          simp only [Node.pindex, he, Option.map_some, Option.getD_some]
          exact (h.described hashPrev e he).own
        unfold disconnectBlock at hview
        split at hview
        · next heq =>
          split at hview
          · cases hview
          · split at hview
            · cases hview
            · have hv := congrArg (fun x => x.2.hashBlock) hview
              rw [Node.indexChain, List.map_cons] at heq
              obtain ⟨rfl, -⟩ := List.cons.inj heq
              exact hv.symm.trans hpindex
        · cases hview
      · cases hnode
    · cases hnode
  refine h.update (h.rooted.preserves (.of_index (S := nothing) hindex)) (fun a e hae => ?_) (.refl _)
    (fun a e hae => ⟨e, by rw [hindex]; exact hae, rfl, id⟩) (fun a hnone hsome => ?_) (fun a e hae hv => ?_)
    (fun a ha => ?_) ?_ hbest
  · exact h.described a e (hindex ▸ hae)
  · rw [hindex] at hsome
    exact absurd hnone hsome
  · rw [hindex] at hae ⊢
    exact h.scripts a e hae hv
  · rw [hindex]
    exact h.active a (hsub a ha)
  · cases hchain : node.chain with
    | nil => exact .inl rfl
    | cons tip rest =>
      have hs : (tip :: rest) <:+ m.node.chain := by
        rw [← hchain, htail]
        exact List.tail_suffix _
      obtain ⟨e, he, hpath, -⟩ := h.suffix hs
      exact .inr ⟨tip, e, by rw [hindex]; exact he, hpath⟩

end Tip

/-! ## Writing and loading -/

section Disk

variable {net : Network} {C : Crypto} {F : BlockFacts} {m m' : DiskNode}

theorem Sound.written (h : Sound net C F m) {hash : Uint256} {e : BlockEntry} (he : m.node.index hash = some e) :
    ∃ d, m.store.write.disk hash = some d ∧ d.path = e.path := by
  by_cases hd : m.dirty hash = true
  · exact ⟨e, by simp [Store.write, DiskNode.store, hd, he], rfl⟩
  · obtain ⟨d, hdisk⟩ := (h.stored hash e he).resolve_left hd
    obtain ⟨-, -, e', he', hpath⟩ := h.onDisk hash d hdisk
    rw [he] at he'
    cases he'
    exact ⟨d, by simp [Store.write, DiskNode.store, hd, hdisk], hpath.symm⟩

theorem Sound.writeIndex (h : Sound net C F m) : Sound net C F m.writeBlockIndexDB := by
  have honDisk : ∀ hash d, m.store.write.disk hash = some d → Described net C F hash d ∧
      (d.validity = .scripts → ModifierRight C F hash d) ∧ ∃ e, m.node.index hash = some e ∧ e.path = d.path := by
    intro hash d hd
    rcases Store.write_disk_cases hd with hmem | hdisk
    · have hmem : m.node.index hash = some d := hmem
      refine ⟨h.described hash d hmem, fun hv => ?_, d, hmem, rfl⟩
      obtain ⟨d', hd', hright⟩ := (h.scripts hash d hmem hv).mem
      have hd' : m.node.index hash = some d' := hd'
      rw [hmem] at hd'
      cases hd'
      exact hright
    · exact h.onDisk hash d hdisk
  refine ⟨h.rooted, h.described, fun hash e he hv => (h.scripts hash e he hv).write, h.genesis.write,
    fun hash hmem => (h.active hash hmem).write, h.chain, h.best, honDisk, fun hash e he => ?_, fun hash d hd a ha => ?_,
    ?_⟩
  · obtain ⟨d, hd, -⟩ := h.written he
    exact .inr ⟨d, hd⟩
  · -- the ancestors of an entry are in memory, and so they are written too
    obtain ⟨-, -, e, he, hpath⟩ := honDisk hash d hd
    obtain ⟨before, rest, hsplit⟩ := List.append_of_mem ha
    obtain ⟨ea, hea, -⟩ := h.rooted.ancestor hash e he a rest (by rw [hpath, hsplit]; exact List.suffix_append _ _)
    obtain ⟨da, hda, -⟩ := h.written hea
    exact ⟨da, hda⟩
  · refine h.coins.imp id ?_
    rintro ⟨d, hd, hall⟩
    obtain ⟨-, -, e, he, hpath⟩ := h.onDisk _ d hd
    obtain ⟨d', hd', hpath'⟩ := h.written he
    refine ⟨d', hd', fun a ha => ?_⟩
    have hs := (hall a (by rw [← hpath, ← hpath']; exact ha)).1
    exact ⟨hs.write, hs.holds_write⟩

theorem Sound.flush (h : Sound net C F m) : Sound net C F m.flush := by
  have hw := h.writeIndex
  refine ⟨hw.rooted, hw.described, hw.scripts, hw.genesis, hw.active, hw.chain, hw.best, hw.onDisk, hw.stored,
    hw.diskClosed, ?_⟩
  show m.node.view.hashBlock = 0 ∨ _
  rw [h.best]
  cases hchain : m.node.chain with
  | nil => exact .inl rfl
  | cons tip rest =>
    have hs : (tip :: rest) <:+ m.node.chain := by rw [hchain]
    obtain ⟨e, he, hpath, -⟩ := h.suffix hs
    obtain ⟨d, hd, hpath'⟩ := h.written he
    refine .inr ⟨d, ?_, fun a ha => ?_⟩
    · show m.store.write.disk (m.node.view.hashBlock) = some d
      rw [h.best, hchain]
      exact hd
    · have hmem : a ∈ m.node.chain := by rw [hchain, ← hpath, ← hpath']; exact ha
      exact ⟨(h.active a hmem).write, (h.active a hmem).holds_write⟩

theorem genesisEntry_described (net : Network) (C : Crypto) (F : BlockFacts) :
    Described net C F (net.hashGenesisBlock C) (genesisEntry net C) :=
  ⟨rfl, by rw [if_pos rfl]; rfl, fun _ _ hne => absurd rfl hne, fun _ => ⟨rfl, rfl⟩⟩

theorem Sound.reload (h : Sound net C F m) (hr : Reloaded net C m m') : Sound net C F m' := by
  have hload : ∀ hash d, m.blockTree hash = some d → ∃ e, m'.node.index hash = some e ∧ LoadedEntry d e := by
    intro hash d hd
    obtain ⟨e, he⟩ := Option.ne_none_iff_exists'.1 (hr.loaded hash d hd)
    rcases hr.entry hash e he with ⟨d', hd', hle⟩ | ⟨hnone, -⟩
    · rw [hd] at hd'
      cases hd'
      exact ⟨e, he, hle⟩
    · rw [hd] at hnone
      cases hnone
  have hright : ∀ hash d e, LoadedEntry d e → ModifierRight C F hash d → ModifierRight C F hash e := by
    intro hash d e hle hd
    rw [ModifierRight, hle.pindex, hle.path]
    exact hd
  have hseal : ∀ hash, Holds (ModifierRight C F) m.blockTree hash → m'.store.Sealed (ModifierRight C F) hash := by
    rintro hash ⟨d, hd, hrd⟩
    obtain ⟨e, he, hle⟩ := hload hash d hd
    exact ⟨⟨e, he, hright hash d e hle hrd⟩, .inr ⟨d, by rw [DiskNode.store, hr.blockTree]; exact hd, hrd⟩⟩
  have hdescribed : ∀ hash e, m'.node.index hash = some e → Described net C F hash e := by
    intro hash e he
    rcases hr.entry hash e he with ⟨d, hd, hle⟩ | ⟨-, rfl, rfl, -⟩
    · obtain ⟨hdesc, -, -⟩ := h.onDisk hash d hd
      exact ⟨by rw [hle.pindex]; exact hdesc.own, by rw [hle.pindex]; exact hdesc.time,
        fun b hb => hdesc.data b (hle.data ▸ hb), fun hg => by rw [hle.path, hle.pindex]; exact hdesc.genesis hg⟩
    · exact genesisEntry_described net C F
  -- the entries that `hashPrev` leads to are on disk too, with the paths that they had
  have hclosed : m'.node.Closed := by
    refine ⟨fun hash e he => ⟨(hdescribed hash e he).own, ?_⟩, fun hash e he a q hq => ?_⟩
    · rcases hr.entry hash e he with ⟨d, hd, hle⟩ | ⟨-, rfl, rfl, -⟩
      · obtain ⟨-, -, e0, he0, hpath⟩ := h.onDisk hash d hd
        obtain ⟨-, rest, hrest⟩ := h.rooted.own hash e0 he0
        exact ⟨rest, by rw [hle.path, ← hpath, hrest]⟩
      · exact ⟨[], rfl⟩
    · rcases hr.entry hash e he with ⟨d, hd, hle⟩ | ⟨hnone, rfl, rfl, -⟩
      · obtain ⟨-, -, e0, he0, hpath⟩ := h.onDisk hash d hd
        rw [hle.path] at hq
        obtain ⟨ea, hea, hpatha⟩ := h.rooted.ancestor hash e0 he0 a q (hpath ▸ hq)
        obtain ⟨da, hda⟩ := h.diskClosed hash d hd a (hq.subset (by simp))
        obtain ⟨-, -, ea', hea', hpatha'⟩ := h.onDisk a da hda
        rw [hea] at hea'
        cases hea'
        obtain ⟨e', he', hle'⟩ := hload a da hda
        exact ⟨e', he', by rw [hle'.path, ← hpatha', hpatha]⟩
      · rcases List.suffix_cons_iff.1 hq with heq | hnil
        · obtain ⟨rfl, rfl⟩ := List.cons.inj heq
          exact ⟨_, he, rfl⟩
        · exact absurd (List.suffix_nil.1 hnil) (List.cons_ne_nil _ _)
  have hgenesis : m'.store.Sealed (ModifierRight C F) (net.hashGenesisBlock C) := by
    obtain ⟨e, he⟩ := Option.ne_none_iff_exists'.1 hr.genesis
    rcases hr.entry _ e he with ⟨d, hd, -⟩ | ⟨-, -, rfl, hdirty⟩
    · exact hseal _ ⟨d, hd, (h.onDisk _ d hd).1.right_genesis⟩
    · exact .mark ⟨_, he, (genesisEntry_described net C F).right_genesis⟩ hdirty
  -- the path of the best block, with its entries as they were written before the coins
  have hpath : m.coinsDB.hashBlock ≠ 0 → ∃ rest e, m'.node.index m.coinsDB.hashBlock = some e ∧
      m'.node.chain = m.coinsDB.hashBlock :: rest ∧ e.path = m'.node.chain ∧
      ∀ a ∈ m'.node.chain, Holds (ModifierRight C F) m.blockTree a := by
    intro hne
    obtain ⟨-, d, hd, hchain⟩ := hr.chain.resolve_left fun h0 => hne h0.1
    obtain ⟨d', hd', hall⟩ := h.coins.resolve_left hne
    rw [hd] at hd'
    cases hd'
    obtain ⟨e, he, hle⟩ := hload _ d hd
    obtain ⟨-, rest, hrest⟩ := hclosed.own _ e he
    refine ⟨rest, e, he, by rw [hchain, ← hle.path, hrest], by rw [hle.path, hchain], fun a ha => ?_⟩
    exact (hall a (hchain ▸ ha)).2
  have hempty : m.coinsDB.hashBlock = 0 → m'.node.chain = [] := fun h0 =>
    (hr.chain.resolve_right fun hne => hne.1 h0).2
  refine ⟨⟨hclosed, hr.genesis⟩, hdescribed, fun hash e he hv => ?_, hgenesis, fun hash hmem => ?_, ?_, ?_,
    fun hash d hd => ?_, fun hash e he => ?_, ?_, ?_⟩
  · rcases hr.entry hash e he with ⟨d, hd, hle⟩ | ⟨-, rfl, -, -⟩
    · exact hseal hash ⟨d, hd, (h.onDisk hash d hd).2.1 (hle.validity ▸ hv)⟩
    · exact hgenesis
  · by_cases h0 : m.coinsDB.hashBlock = 0
    · rw [hempty h0] at hmem
      cases hmem
    · obtain ⟨-, -, -, -, -, hall⟩ := hpath h0
      exact hseal hash (hall hash hmem)
  · by_cases h0 : m.coinsDB.hashBlock = 0
    · exact .inl (hempty h0)
    · obtain ⟨-, e, he, -, hpe, -⟩ := hpath h0
      exact .inr ⟨_, e, he, hpe⟩
  · rw [hr.view]
    by_cases h0 : m.coinsDB.hashBlock = 0
    · rw [hempty h0, h0]
      rfl
    · obtain ⟨rest, -, -, hchain, -, -⟩ := hpath h0
      rw [hchain]
      rfl
  · rw [hr.blockTree] at hd
    obtain ⟨hdesc, hscripts, -⟩ := h.onDisk hash d hd
    obtain ⟨e, he, hle⟩ := hload hash d hd
    exact ⟨hdesc, hscripts, e, he, hle.path⟩
  · rcases hr.entry hash e he with ⟨d, hd, -⟩ | ⟨-, -, -, hdirty⟩
    · exact .inr ⟨d, by rw [hr.blockTree]; exact hd⟩
    · exact .inl hdirty
  · rw [hr.blockTree]
    exact h.diskClosed
  · rw [hr.coinsDB, hr.blockTree]
    refine h.coins.imp id ?_
    rintro ⟨d, hd, hall⟩
    exact ⟨d, hd, fun a ha => ⟨hseal a (hall a ha).2, (hall a ha).2⟩⟩

end Disk

/-! ## Runs -/

section Runs

variable {net : Network} {C : Crypto} {F : BlockFacts} {m m' : DiskNode}

theorem Sound.init (net : Network) (C : Crypto) (F : BlockFacts) : Sound net C F (.init net C) := by
  have hindex : ∀ hash e, (DiskNode.init net C).node.index hash = some e →
      hash = net.hashGenesisBlock C ∧ e = genesisEntry net C := by
    intro hash e he
    simp only [DiskNode.init, Node.init] at he
    split at he
    · next heq =>
      cases he
      exact ⟨heq, rfl⟩
    · cases he
  have hself : (DiskNode.init net C).node.index (net.hashGenesisBlock C) = some (genesisEntry net C) := by
    simp [DiskNode.init, Node.init]
  have hgenesis : (DiskNode.init net C).store.Sealed (ModifierRight C F) (net.hashGenesisBlock C) :=
    .mark ⟨_, hself, (genesisEntry_described net C F).right_genesis⟩ (by simp [DiskNode.store, DiskNode.init])
  have hdisk : ∀ hash d, (DiskNode.init net C).blockTree hash ≠ some d := by
    intro hash d h
    cases h
  refine ⟨Node.init_rooted net C, fun hash e he => ?_, fun hash e he _ => ?_, hgenesis,
    by simp [DiskNode.init, Node.init], .inl rfl, rfl, fun hash d hd => absurd hd (hdisk hash d), fun hash e he => ?_,
    fun hash d hd => absurd hd (hdisk hash d), .inl rfl⟩
  · obtain ⟨rfl, rfl⟩ := hindex hash e he
    exact genesisEntry_described net C F
  · obtain ⟨rfl, rfl⟩ := hindex hash e he
    exact hgenesis
  · obtain ⟨rfl, rfl⟩ := hindex hash e he
    exact .inl (by simp [DiskNode.init])

/-- **Every step keeps the invariant.** -/
theorem Sound.step {E : Env} (h : Sound E.net E.crypto F m) (hstep : DiskStep F E m m') :
    Sound E.net E.crypto F m' := by
  cases hstep with
  | header htime hnode hdirty hnew => exact h.header htime hnode hdirty hnew
  | block htime hkernel hnode hdirty hnew => exact h.block htime hkernel hnode hdirty hnew
  | findMostWork hdirty => exact h.keeps (findMostWorkChain_selected _ _).1.keeps hdirty not_nothing
  | select hindex hchain hview => exact h.keeps (.of_index (S := nothing) hindex hchain hview) (.refl _) not_nothing
  | setFailed hdirty =>
    exact h.keeps (Node.modify_setFailed_keeps (S := nothing) _ _ (fun _ => _) fun _ => _) hdirty not_nothing
  | disconnect hnode => exact h.disconnect hnode
  | connect hkernel hnode hdirty hmark => exact h.connect hkernel hnode hdirty hmark
  | failConnect hnode hresult hdirty =>
    exact h.keeps (connectTip_failed hnode hresult).keeps hdirty not_nothing
  | writeIndex => exact h.writeIndex
  | flush => exact h.flush
  | reload hr => exact h.reload hr

theorem DiskReachable.sound (h : DiskReachable net C F m) : Sound net C F m := by
  induction h with
  | init => exact .init net C F
  | step _ hnet hC hstep ih =>
    subst hnet hC
    exact ih.step hstep

end Runs

/-! ## What the kernel check reads -/

/-- What `CheckProofOfStake` reads of an index entry. -/
def kernelView (pindex : CBlockIndex) : Nat × Uint256 :=
  (pindex.nTime, pindex.nStakeModifier)

theorem getAncestor_map_kernelView {chain chain' : IndexChain} (h : chain.map kernelView = chain'.map kernelView)
    (height : Int) : (getAncestor chain height).map kernelView = (getAncestor chain' height).map kernelView := by
  have hlen : chain.length = chain'.length := by simpa using congrArg List.length h
  unfold getAncestor nHeight
  rw [hlen]
  split
  · rfl
  · rw [List.map_drop, List.map_drop, h]

theorem checkProofOfStake_congr {chain chain' : IndexChain} (h : chain.map kernelView = chain'.map kernelView) (E : Env)
    (tx : CTransaction) (nBits : Nat) (coins : CoinMap) (nTimeTx : Nat) :
    checkProofOfStake E chain tx nBits coins nTimeTx = checkProofOfStake E chain' tx nBits coins nTimeTx := by
  have hlen : nHeight chain = nHeight chain' := by
    unfold nHeight
    rw [show chain.length = chain'.length by simpa using congrArg List.length h]
  have hanc := getAncestor_map_kernelView h
  unfold checkProofOfStake
  rw [hlen]
  rcases tx.vin with _ | ⟨txin, vin⟩
  · rcases chain with _ | ⟨p, chain⟩ <;> rcases chain' with _ | ⟨p', chain'⟩ <;> rfl
  · rcases hc : chain with _ | ⟨p, rest⟩
    · rw [hc] at h
      rw [List.map_eq_nil_iff.1 h.symm]
    · rcases hc' : chain' with _ | ⟨p', rest'⟩
      · rw [hc, hc'] at h
        cases h
      · rw [hc, hc'] at h hanc
        have hmod : p.nStakeModifier = p'.nStakeModifier := congrArg Prod.snd (List.cons.inj h).1
        dsimp only
        cases hcoin : getCoin coins txin.prevout with
        | none => rfl
        | some coinPrev =>
          dsimp only
          have hfrom := hanc coinPrev.nHeight
          rcases ha : getAncestor (p :: rest) coinPrev.nHeight with _ | ⟨b, bs⟩
          · rw [ha] at hfrom
            rw [List.map_eq_nil_iff.1 hfrom.symm]
          · rcases ha' : getAncestor (p' :: rest') coinPrev.nHeight with _ | ⟨b', bs'⟩
            · rw [ha, ha'] at hfrom
              cases hfrom
            · rw [ha, ha'] at hfrom
              have htime : b.nTime = b'.nTime := congrArg Prod.fst (List.cons.inj hfrom).1
              have hkernel : coinKernelTime coinPrev b = coinKernelTime coinPrev b' := by
                unfold coinKernelTime
                rw [htime]
              dsimp only
              rw [hmod, hkernel]

section Theorem

variable {net : Network} {C : Crypto} {F : BlockFacts} {m m' : DiskNode}

theorem Sound.kernelView_eq (h : Sound net C F m) {path : BlockPath} (hs : path <:+ m.node.chain) :
    (m.node.indexChain path).map kernelView = path.tails.dropLast.map fun p =>
      (p.head?.elim 0 fun hash => if hash = net.hashGenesisBlock C then net.params.genesisTime else F.time hash,
        chainModifier C F.kernel p) := by
  induction path with
  | nil => rfl
  | cons hash rest ih =>
    obtain ⟨e, he, hpath, hright⟩ := h.suffix hs
    have hpindex : m.node.pindex hash = e.pindex := by simp [Node.pindex, he]
    have htail := ih ((List.suffix_cons _ _).trans hs)
    have hne : rest.tails ≠ [] := by cases rest <;> simp
    rw [Node.indexChain, List.map_cons, List.map_cons, List.tails_cons, List.dropLast_cons_of_ne_nil hne, List.map_cons,
      ← htail, hpindex, kernelView, (h.described hash e he).time, hright, hpath]
    rfl

theorem stakeModifier_eq_chainModifier (h : DiskReachable net C F m) :
    (∀ hash rest, (hash :: rest) <:+ m.node.chain → ∃ e, m.node.index hash = some e ∧ e.path = hash :: rest ∧
      e.pindex.nStakeModifier = chainModifier C F.kernel (hash :: rest)) ∧
    ∀ m', DiskReachable net C F m' → m'.node.chain = m.node.chain →
      ∀ (E : Env) (tx : CTransaction) (nBits : Nat) (coins : CoinMap) (nTimeTx : Nat),
        checkProofOfStake E (m'.node.indexChain m'.node.chain) tx nBits coins nTimeTx =
          checkProofOfStake E (m.node.indexChain m.node.chain) tx nBits coins nTimeTx := by
  constructor
  · intro hash rest hs
    obtain ⟨e, he, hpath, hright⟩ := h.sound.suffix hs
    exact ⟨e, he, hpath, hpath ▸ hright⟩
  · intro m' h' hchain E tx nBits coins nTimeTx
    refine checkProofOfStake_congr ?_ E tx nBits coins nTimeTx
    rw [h.sound.kernelView_eq (List.suffix_refl _), h'.sound.kernelView_eq (List.suffix_refl _), hchain]

end Theorem

/-! ## A block on the genesis block -/

def modifierBlock : CBlock where
  hashPrevBlock := Network.regtest.hashGenesisBlock .sample
  hashMerkleRoot := (computeMerkleRoot .sample [(sampleCoinbase 1 0 ⟨0, []⟩).getHash .sample]).1
  nTime := 1785326416
  nBits := 0x207fffff
  vtx := [sampleCoinbase 1 0 ⟨0, []⟩]

def modifierFacts : BlockFacts where
  kernel := id
  time _ := 1785326416

def modifierEvents : List Event := [.activate true none, .block modifierBlock true true, .activate true none]

theorem modifierBlock_modifier : ∃ m, DiskReachable .regtest .sample modifierFacts m ∧ m.node.chain.length = 2 ∧
    ∀ hash rest, (hash :: rest) <:+ m.node.chain → ∃ e, m.node.index hash = some e ∧ e.path = hash :: rest ∧
      e.pindex.nStakeModifier = chainModifier .sample modifierFacts.kernel (hash :: rest) := by
  have hevents : ∀ event ∈ modifierEvents, modifierFacts.Describes (.sample .regtest 1785330000) event := by
    intro event hmem
    simp only [modifierEvents, List.mem_cons, List.not_mem_nil, or_false] at hmem
    rcases hmem with rfl | rfl | rfl
    · exact nofun
    · exact ⟨rfl, fun _ => rfl⟩
    · exact nofun
  obtain ⟨dirty, -, hrun⟩ := DiskRun.run hevents (.init .regtest .sample)
  have hreach : DiskReachable .regtest .sample modifierFacts _ :=
    .step (.run .init rfl rfl hrun) rfl rfl (.flush (E := .sample .regtest 1785330000))
  have hlength : ((Node.init .regtest .sample).run (.sample .regtest 1785330000) modifierEvents).chain.length = 2 := by
    decide +kernel
  exact ⟨_, hreach, hlength, (stakeModifier_eq_chainModifier hreach).1⟩

end CodexaCoin
