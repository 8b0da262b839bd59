import CodexaCoin.Lib.Fork
import CodexaCoin.Script.Interpreter
import CodexaCoin.Validation.DisconnectBlock

/-!
# The block index and how messages extend it

The part of `ChainstateManager` and `BlockManager` that takes headers and blocks in: `AcceptBlockHeader`,
`ContextualCheckBlockHeader`, `AddToBlockIndex`, `AcceptBlock` and `ReceivedBlockTransactions`. A `CBlockIndex*` with its
`pprev` pointers is the path of hashes from the block to the genesis block; what can change about an entry is found in
the block index under its hash. Positions in block and undo files are the data stored there.
-/

namespace CodexaCoin

open Check Consensus CoinMap IndexChain

/-! ## Entries and nodes -/

abbrev BlockPath := List Uint256

/-- The levels of `BLOCK_VALID_MASK` that blocks reach. -/
inductive BlockValidity where
  | tree
  | transactions
  | scripts
deriving DecidableEq, Repr

/-- An entry of `m_block_index`. -/
structure BlockEntry where
  /-- The entry and the entries that `pprev` leads to; one less than its length is `nHeight`. -/
  path : BlockPath
  pindex : CBlockIndex
  nChainWork : ArithUint256
  nTx : Nat := 0
  nChainTx : Nat := 0
  nSequenceId : Nat := 0
  validity : BlockValidity := .tree
  failedValid : Bool := false
  failedChild : Bool := false
  /-- The block at `nDataPos`, with `BLOCK_HAVE_DATA`. -/
  data : Option CBlock := none
  /-- The undo data at `nUndoPos`, with `BLOCK_HAVE_UNDO`. -/
  undo : Option CBlockUndo := none

namespace BlockEntry

variable (e : BlockEntry)

def nHeight : Nat := e.path.length - 1

/-- `nStatus & BLOCK_FAILED_MASK`. -/
def failed : Bool := e.failedValid || e.failedChild

/-- `IsValid(BLOCK_VALID_SCRIPTS)`. -/
def isValidScripts : Bool := !e.failed && e.validity == .scripts

/-- `nStatus |= BLOCK_FAILED_VALID`. -/
def setFailedValid : BlockEntry := { e with failedValid := true }

/-- `nStatus |= BLOCK_FAILED_CHILD`. -/
def setFailedChild : BlockEntry := { e with failedChild := true }

def raiseValidity (nUpTo : BlockValidity) : BlockEntry :=
  if e.failed then e
  else match e.validity, nUpTo with
    | .scripts, _ => e
    | .transactions, .tree => e
    | _, _ => { e with validity := nUpTo }

/-- `CBlockIndexWorkComparator`: less work, or the same work and received later. Every entry that is compared has a
sequence number of its own, so the tie on pointers is never reached. -/
def worse (a b : BlockEntry) : Bool :=
  decide (a.nChainWork.toNat < b.nChainWork.toNat) ||
    (a.nChainWork == b.nChainWork && decide (a.nSequenceId > b.nSequenceId))

end BlockEntry

/-- The state of `ChainstateManager` with its one chainstate. -/
structure Node where
  /-- `m_block_index`. -/
  index : Uint256 → Option BlockEntry
  /-- `m_chain`, tip first. -/
  chain : BlockPath
  /-- `CoinsTip`. -/
  view : CCoinsView
  /-- `setBlockIndexCandidates`. -/
  candidates : List Uint256
  /-- `m_blocks_unlinked`: a parent without all its data and a block that waits for it. -/
  unlinked : List (Uint256 × Uint256)
  /-- `m_failed_blocks`. -/
  failedBlocks : List Uint256
  nBlockSequenceId : Nat
  /-- `pindexMostWork` of the running `ActivateBestChain`, which it keeps while other messages are handled. -/
  mostWork : Option Uint256

namespace Node

variable (n : Node)

/-- The entry of a hash as it is seen through a `CBlockIndex*`. -/
def pindex (hash : Uint256) : CBlockIndex :=
  ((n.index hash).map (·.pindex)).getD { hash := hash, nTime := 0, nBits := 0 }

def indexChain (path : BlockPath) : IndexChain :=
  path.map n.pindex

def tip : Option BlockEntry :=
  n.chain.head?.bind n.index

def height : Int := (n.chain.length : Int) - 1

def setEntry (hash : Uint256) (e : BlockEntry) : Node :=
  { n with index := fun h => if h = hash then some e else n.index h }

def modify (hash : Uint256) (f : BlockEntry → BlockEntry) : Node :=
  match n.index hash with
  | none => n
  | some e => n.setEntry hash (f e)

def autoSelectSyncCheckpoint (net : Network) (pindexBest : BlockPath) : BlockPath → BlockPath
  | hash :: pprev :: rest =>
    if ((rest.length : Int) + 1) + net.params.nCoinbaseMaturity > (pindexBest.length : Int) - 1 then
      autoSelectSyncCheckpoint net pindexBest (pprev :: rest)
    else hash :: pprev :: rest
  | path => path

def getLastCheckpoint (checkpoints : List (Nat × Uint256)) : Option BlockEntry :=
  checkpoints.reverse.findSome? fun checkpoint => n.index checkpoint.2

end Node

/-! ## Headers -/

section Headers

variable (E : Env) (n : Node) (header : CBlockHeader)

/-- `CBlockIndex::BLOCK_PROOF_OF_STAKE` of the `nFlags` field of a header. -/
def CBlockHeader.stakeFlag (header : CBlockHeader) : Bool :=
  header.nFlags.testBit 0

def contextualCheckBlockHeader (pindexPrev : BlockEntry) (fProofOfStake : Bool) : BlockCheck Unit := do
  let p := E.net.params
  let nHeight : Nat := pindexPrev.nHeight + 1
  require (header.nBits == getNextTargetRequired E.net (n.indexChain pindexPrev.path) fProofOfStake)
    (.invalid .blockInvalidHeader "bad-diffbits")
  require (!decide (n.height - nHeight ≥ p.nMaxReorganizationDepth))
    (.invalid .blockInvalidHeader "older-than-maxreorg-depth")
  require (!(decide ((nHeight : Int) > p.nLastPOWBlock) && !fProofOfStake)) (.invalid .blockInvalidHeader "reject-pow")
  require (!(decide ((nHeight : Int) > p.nLastPOWBlock) && !checkStakeBlockTimestamp E.net header.nTime))
    (.invalid .blockInvalidHeader "bad-pos-time")
  when E.checkpointsEnabled do
    require (!(n.getLastCheckpoint E.checkpoints).any fun pcheckpoint => decide (nHeight < pcheckpoint.nHeight))
      (.invalid .blockCheckpoint "bad-fork-prior-to-checkpoint")
    require (E.checkHardened nHeight (header.getHash E.crypto))
      (.invalid .blockCheckpoint "bad-fork-hardened-checkpoint")
  require (!n.chain.isEmpty) (.abort "pindexBest")
  require (decide (nHeight > (Node.autoSelectSyncCheckpoint E.net n.chain n.chain).length - 1))
    (.invalid .blockInvalidHeader "bad-fork-prior-to-synch-checkpoint")
  require (decide ((header.nTime : Int) > getMedianTimePast E.net (n.indexChain pindexPrev.path)))
    (.invalid .blockInvalidHeader "time-too-old")
  require (decide (header.nTime ≤ E.nodeTime + 2 * 60 * 60)) (.invalid .blockTimeFuture "time-too-new")

/-- The check on the synchronized checkpoint at the start of `AcceptBlockHeader`. -/
def checkSyncTime : BlockCheck Unit :=
  match n.chain with
  | [] => .ok ()
  | tip :: _ =>
    require (header.hashPrevBlock == tip ||
        ((n.indexChain (Node.autoSelectSyncCheckpoint E.net n.chain n.chain)).head?.all fun pcheckpoint =>
          decide (pcheckpoint.nTime ≤ header.nTime)))
      (.invalid .blockHeaderSync "older-than-checkpoint")

/-- `fSetAsProofOfStake` of `AcceptBlockHeader`: the flag of the header, or its opposite when the header comes from an
old client and fails `CheckBlockHeader`. -/
def setAsProofOfStake (fOldClient : Bool) : BlockCheck Bool :=
  match checkBlockHeader E header n.height (!header.stakeFlag) with
  | .ok () => .ok header.stakeFlag
  | .error e => if fOldClient then .ok (!header.stakeFlag) else .error e

/-- The checks of `AcceptBlockHeader` on a header that is not known yet. -/
def checkNewHeader (fOldClient : Bool) : BlockCheck (BlockEntry × Bool) := do
  checkSyncTime E n header
  let fSetAsProofOfStake ← setAsProofOfStake E n header fOldClient
  match n.index header.hashPrevBlock with
  | none => .error (.invalid .blockMissingPrev "prev-blk-not-found")
  | some pindexPrev => do
    require (!pindexPrev.failed) (.invalid .blockInvalidPrev "bad-prevblk")
    contextualCheckBlockHeader E n header pindexPrev fSetAsProofOfStake
    .ok (pindexPrev, fSetAsProofOfStake)

/-- The proof-of-stake flag of a new index entry: the constructor copies `nFlags`, and `SetProofOfStake` can only set
the bit. -/
def indexFlag (fSetAsProofOfStake : Bool) : Bool :=
  header.stakeFlag || fSetAsProofOfStake

/-- `pindexNew` of `AddToBlockIndex`. -/
def newEntry (C : Crypto) (header : CBlockHeader) (fSetAsProofOfStake : Bool) (pprev : Option BlockEntry) :
    BlockEntry where
  path := header.getHash C :: (pprev.map (·.path)).getD []
  pindex := .ofHeader C header (indexFlag header fSetAsProofOfStake)
  nChainWork := (pprev.map (·.nChainWork)).getD 0 + getBlockProof header.nBits

def addToBlockIndex (fSetAsProofOfStake : Bool) : Node :=
  match n.index (header.getHash E.crypto) with
  | some _ => n
  | none =>
    n.setEntry (header.getHash E.crypto)
      (newEntry E.crypto header fSetAsProofOfStake (n.index header.hashPrevBlock))

/-- The block of `m_failed_blocks` that the parent of a new header descends from. -/
def failedAncestor (pindexPrev : BlockEntry) : Option Uint256 :=
  if pindexPrev.isValidScripts then none
  else n.failedBlocks.find? fun failedit => pindexPrev.path.contains failedit

/-- Mark the entries from a path down to a failed block as children of it. -/
def markFailedChildren (failedit : Uint256) : BlockPath → Node → Node
  | [], n => n
  | hash :: pprev, n =>
    if hash = failedit then n
    else markFailedChildren failedit pprev (n.modify hash .setFailedChild)

/-- The end of `AcceptBlockHeader`. -/
def addHeader (min_pow_checked fSetAsProofOfStake : Bool) : Node × BlockCheck Uint256 :=
  if min_pow_checked then (addToBlockIndex E n header fSetAsProofOfStake, .ok (header.getHash E.crypto))
  else (n, .error (.invalid .blockHeaderLowWork "too-little-chainwork"))

/-- What a header message does to a node. -/
def acceptBlockHeader (min_pow_checked fOldClient : Bool) : Node × BlockCheck Uint256 :=
  let hash := header.getHash E.crypto
  if hash = E.net.hashGenesisBlock E.crypto then addHeader E n header min_pow_checked header.stakeFlag
  else match n.index hash with
    | some pindex => (n, if pindex.failed then .error (.invalid .blockCachedInvalid "duplicate") else .ok hash)
    | none =>
      match checkNewHeader E n header fOldClient with
      | .error e => (n, .error e)
      | .ok (pindexPrev, fSetAsProofOfStake) =>
        match failedAncestor n pindexPrev with
        | some failedit =>
          (markFailedChildren failedit pindexPrev.path n, .error (.invalid .blockInvalidPrev "bad-prevblk"))
        | none => addHeader E n header min_pow_checked fSetAsProofOfStake

end Headers

/-! ## Blocks -/

section Blocks

variable (E : Env) (n : Node)

def tryAddBlockIndexCandidate (hash : Uint256) : Node :=
  match n.index hash with
  | none => n
  | some pindex =>
    if n.tip.any fun tip => pindex.worse tip then n
    else { n with candidates := n.candidates.insert hash }

def BlockEntry.setSequence (nChainTx nSequenceId : Nat) (e : BlockEntry) : BlockEntry :=
  { e with nChainTx := (nChainTx + e.nTx) % 2 ^ 32, nSequenceId := nSequenceId }

/-- The count and the sequence number that `ReceivedBlockTransactions` gives a block all of whose ancestors have data. -/
def assignSequence (hash : Uint256) : Node :=
  let nChainTx := (((n.index hash).bind fun e => e.path.tail.head?).bind n.index).elim 0 (·.nChainTx)
  { n.modify hash (.setSequence nChainTx n.nBlockSequenceId) with nBlockSequenceId := n.nBlockSequenceId + 1 }

/-- Take the blocks that wait for a block out of `m_blocks_unlinked`. -/
def takeUnlinked (hash : Uint256) : List Uint256 × Node :=
  ((n.unlinked.filter fun link => link.1 == hash).map (·.2),
    { n with unlinked := n.unlinked.filter fun link => link.1 != hash })

def linkBlocks : (fuel : Nat) → (queue : List Uint256) → Node → Node
  | 0, _, n => n
  | _, [], n => n
  | fuel + 1, hash :: queue, n =>
    let taken := takeUnlinked (tryAddBlockIndexCandidate (assignSequence n hash) hash) hash
    linkBlocks fuel (queue ++ taken.1) taken.2

def BlockEntry.setData (block : CBlock) (e : BlockEntry) : BlockEntry :=
  { e with nTx := block.vtx.length, nChainTx := 0, data := some block }.raiseValidity .transactions

def receivedBlockTransactions (block : CBlock) (hash : Uint256) : Node :=
  let n1 := n.modify hash (.setData block)
  match (n1.index hash).bind fun e => e.path.tail.head? with
  | none => linkBlocks (n1.unlinked.length + 1) [hash] n1
  | some hashPrev =>
    match n1.index hashPrev with
    | none => n1
    | some pprev =>
      if pprev.nChainTx ≠ 0 then linkBlocks (n1.unlinked.length + 1) [hash] n1
      else if pprev.failed then n1
      else { n1 with unlinked := n1.unlinked ++ [(hashPrev, hash)] }

/-- The reasons for which `AcceptBlock` leaves out a block that was not asked for: it was pruned, it has less work than
the tip, or it is `MIN_BLOCKS_TO_KEEP` ahead. `MinimumChainWork` is zero on every network. -/
def unrequestedSkip (pindex : BlockEntry) : Bool :=
  pindex.nTx != 0 || (n.tip.any fun tip => decide (pindex.nChainWork.toNat < tip.nChainWork.toNat)) ||
    decide ((pindex.nHeight : Int) > n.height + 288)

/-- `CheckBlock` and `ContextualCheckBlock` as `AcceptBlock` calls them. -/
def checkAcceptedBlock (block : CBlock) (pindex : BlockEntry) : BlockCheck Unit := do
  checkBlock E block n.height true true true
  contextualCheckBlock E block (n.indexChain pindex.path.tail)

/-- The part of `AcceptBlock` after the header. -/
def acceptBlockData (block : CBlock) (fRequested : Bool) (hash : Uint256) : Node × BlockCheck Unit :=
  match n.index hash with
  | none => (n, .error (.abort "pindex"))
  | some pindex =>
    if pindex.data.isSome then (n, .ok ())
    else if !fRequested && unrequestedSkip n pindex then (n, .ok ())
    else match checkAcceptedBlock E n block pindex with
      | .ok () => (receivedBlockTransactions n block hash, .ok ())
      | .error (.invalid result reason) =>
        (if result = .blockMutated then n else n.modify hash .setFailedValid,
          .error (.invalid result reason))
      | .error e => (n, .error e)

def acceptBlock (block : CBlock) (fRequested min_pow_checked : Bool) : Node × BlockCheck Unit :=
  match acceptBlockHeader E n block.getBlockHeader min_pow_checked false with
  | (n1, .error e) => (n1, .error e)
  | (n1, .ok hash) => acceptBlockData E n1 block fRequested hash

def checkCanonicalBlockSignature (C : Crypto) (block : CBlock) : Bool :=
  if block.isProofOfStake then
    isValidSignatureEncoding block.vchBlockSig false && C.checkLowS block.vchBlockSig
  else block.vchBlockSig.isEmpty

/-- What a block message does to a node. -/
def processNewBlock (block : CBlock) (force_processing min_pow_checked : Bool) : Node × BlockCheck Unit :=
  if !checkCanonicalBlockSignature E.crypto block then (n, .error (.error "bad block signature encoding"))
  else match checkBlock E block n.height true true true with
    | .error e => (n, .error e)
    | .ok () => acceptBlock E n block force_processing min_pow_checked

end Blocks

/-! ## What can change about the block index

No function moves an entry, and none takes one out. -/

/-- The index of `n'` has the entries of `n`, each related to what it was. -/
structure IndexFrame (R : Uint256 → BlockEntry → BlockEntry → Prop) (n n' : Node) : Prop where
  kept : ∀ hash e, n.index hash = some e → ∃ e', n'.index hash = some e' ∧ R hash e e'
  absent : ∀ hash, n.index hash = none → n'.index hash = none

/-- What a later state of an entry has in common with an earlier one; `S` says which blocks may have been stored. -/
structure Evolves (S : CBlock → Prop) (e e' : BlockEntry) : Prop where
  path : e'.path = e.path
  hash : e'.pindex.hash = e.pindex.hash
  stake : e'.pindex.fProofOfStake = e.pindex.fProofOfStake
  work : e'.nChainWork = e.nChainWork
  data : ∀ block, e'.data = some block → e.data = some block ∨ S block

/-- What an entry keeps until its block is connected: all header fields and the stake modifier too. -/
structure Kept (S : CBlock → Prop) (e e' : BlockEntry) : Prop where
  path : e'.path = e.path
  pindex : e'.pindex = e.pindex
  work : e'.nChainWork = e.nChainWork
  validity : e'.validity = .scripts → e.validity = .scripts
  data : ∀ block, e'.data = some block → e.data = some block ∨ S block

/-- The entries of two nodes are the same up to `Evolves`. -/
def Preserves (S : Uint256 → CBlock → Prop) : Node → Node → Prop := IndexFrame fun hash => Evolves (S hash)

/-- The entries of two nodes are the same up to `Kept`, and so are chain and coins. -/
structure Keeps (S : Uint256 → CBlock → Prop) (n n' : Node) : Prop
    extends IndexFrame (fun hash => Kept (S hash)) n n' where
  chain : n'.chain = n.chain
  view : n'.view = n.view

def nothing (_ : Uint256) (_ : CBlock) : Prop := False

section IndexFrame

variable {R R' : Uint256 → BlockEntry → BlockEntry → Prop} {n n1 n' : Node} {hash : Uint256} {e' : BlockEntry}

theorem IndexFrame.of_index (hR : ∀ hash e, R hash e e) (h : n'.index = n.index) : IndexFrame R n n' :=
  ⟨fun hash e he => ⟨e, by rw [h]; exact he, hR hash e⟩, fun hash he => by rw [h]; exact he⟩

theorem IndexFrame.trans (hR : ∀ {hash e1 e2 e3}, R hash e1 e2 → R hash e2 e3 → R hash e1 e3)
    (h1 : IndexFrame R n n1) (h2 : IndexFrame R n1 n') : IndexFrame R n n' := by
  refine ⟨fun hash e he => ?_, fun hash he => h2.absent hash (h1.absent hash he)⟩
  obtain ⟨e1, he1, hR1⟩ := h1.kept hash e he
  obtain ⟨e2, he2, hR2⟩ := h2.kept hash e1 he1
  exact ⟨e2, he2, hR hR1 hR2⟩

theorem IndexFrame.mono (h : IndexFrame R n n') (hR : ∀ {hash e e'}, R hash e e' → R' hash e e') :
    IndexFrame R' n n' := by
  refine ⟨fun hash e he => ?_, h.absent⟩
  obtain ⟨e', he', hRe⟩ := h.kept hash e he
  exact ⟨e', he', hR hRe⟩

theorem IndexFrame.source (h : IndexFrame R n n') (he : n'.index hash = some e') :
    ∃ e, n.index hash = some e ∧ R hash e e' := by
  cases hn : n.index hash with
  | none =>
    rw [h.absent hash hn] at he
    cases he
  | some e =>
    obtain ⟨e'', he'', hRe⟩ := h.kept hash e hn
    rw [he] at he''
    cases he''
    exact ⟨e, rfl, hRe⟩

theorem Node.index_modify (n : Node) (hash h : Uint256) (f : BlockEntry → BlockEntry) :
    (n.modify hash f).index h = if h = hash then (n.index h).map f else n.index h := by
  unfold Node.modify
  by_cases heq : h = hash
  · subst heq
    cases he : n.index h <;> simp [Node.setEntry, he]
  · cases n.index hash <;> simp [Node.setEntry, heq]

theorem Node.modify_indexFrame (hR : ∀ hash e, R hash e e) {f : BlockEntry → BlockEntry} (hf : ∀ e, R hash e (f e)) :
    IndexFrame R n (n.modify hash f) := by
  refine ⟨fun h e he => ?_, fun h hnone => by simp [Node.index_modify, hnone]⟩
  by_cases heq : h = hash
  · subst heq
    exact ⟨f e, by simp [Node.index_modify, he], hf e⟩
  · exact ⟨e, by simp [Node.index_modify, heq, he], hR h e⟩

theorem Node.modify_frame (n : Node) (hash : Uint256) (f : BlockEntry → BlockEntry) :
    (n.modify hash f).chain = n.chain ∧ (n.modify hash f).candidates = n.candidates ∧
      (n.modify hash f).mostWork = n.mostWork ∧ (n.modify hash f).view = n.view := by
  unfold Node.modify
  split <;> exact ⟨rfl, rfl, rfl, rfl⟩

end IndexFrame

section Preserves

variable {S : Uint256 → CBlock → Prop} {n n1 n' : Node} {hash : Uint256} {e e' : BlockEntry}

theorem Evolves.refl (S : CBlock → Prop) (e : BlockEntry) : Evolves S e e :=
  ⟨rfl, rfl, rfl, rfl, fun _ h => .inl h⟩

theorem Evolves.trans {S : CBlock → Prop} {e1 e2 e3 : BlockEntry} (h1 : Evolves S e1 e2) (h2 : Evolves S e2 e3) :
    Evolves S e1 e3 := by
  refine ⟨h2.path.trans h1.path, h2.hash.trans h1.hash, h2.stake.trans h1.stake, h2.work.trans h1.work,
    fun block h => ?_⟩
  rcases h2.data block h with h | h
  · exact h1.data block h
  · exact .inr h

theorem Evolves.raiseValidity {S : CBlock → Prop} (h : Evolves S e e') (nUpTo : BlockValidity) :
    Evolves S e (e'.raiseValidity nUpTo) := by
  unfold BlockEntry.raiseValidity
  split
  · exact h
  · split
    · exact h
    · exact h
    · exact ⟨h.path, h.hash, h.stake, h.work, h.data⟩

theorem Preserves.of_index (h : n'.index = n.index) : Preserves S n n' :=
  IndexFrame.of_index (fun _ e => .refl _ e) h

theorem Preserves.refl (n : Node) : Preserves S n n := .of_index rfl

theorem Preserves.trans (h1 : Preserves S n n1) (h2 : Preserves S n1 n') : Preserves S n n' :=
  IndexFrame.trans Evolves.trans h1 h2

theorem Node.modify_preserves {f : BlockEntry → BlockEntry} (hf : ∀ e, Evolves (S hash) e (f e)) :
    Preserves S n (n.modify hash f) :=
  Node.modify_indexFrame (fun _ e => .refl _ e) hf

end Preserves

section Keeps

variable {S S' : Uint256 → CBlock → Prop} {n n1 n' : Node} {hash : Uint256} {e e' : BlockEntry}

theorem Kept.refl (S : CBlock → Prop) (e : BlockEntry) : Kept S e e :=
  ⟨rfl, rfl, rfl, id, fun _ h => .inl h⟩

theorem Kept.trans {S : CBlock → Prop} {e1 e2 e3 : BlockEntry} (h1 : Kept S e1 e2) (h2 : Kept S e2 e3) :
    Kept S e1 e3 := by
  refine ⟨h2.path.trans h1.path, h2.pindex.trans h1.pindex, h2.work.trans h1.work,
    fun h => h1.validity (h2.validity h), fun block h => ?_⟩
  rcases h2.data block h with h | h
  · exact h1.data block h
  · exact .inr h

theorem Kept.setData {S : CBlock → Prop} {block : CBlock} (e : BlockEntry) (hS : S block) :
    Kept S e (e.setData block) := by
  have hdata : ∀ b, some block = some b → e.data = some b ∨ S b := fun b hb => .inr (Option.some.inj hb ▸ hS)
  unfold BlockEntry.setData BlockEntry.raiseValidity
  split
  · exact ⟨rfl, rfl, rfl, id, hdata⟩
  · split
    · exact ⟨rfl, rfl, rfl, id, hdata⟩
    · exact ⟨rfl, rfl, rfl, id, hdata⟩
    · exact ⟨rfl, rfl, rfl, nofun, hdata⟩

theorem Kept.evolves {S : CBlock → Prop} (h : Kept S e e') : Evolves S e e' :=
  ⟨h.path, by rw [h.pindex], by rw [h.pindex], h.work, h.data⟩

theorem Keeps.of_index (hindex : n'.index = n.index) (hchain : n'.chain = n.chain) (hview : n'.view = n.view) :
    Keeps S n n' :=
  ⟨.of_index (fun _ e => .refl _ e) hindex, hchain, hview⟩

theorem Keeps.refl (n : Node) : Keeps S n n := .of_index rfl rfl rfl

theorem Keeps.trans (h1 : Keeps S n n1) (h2 : Keeps S n1 n') : Keeps S n n' :=
  ⟨.trans Kept.trans h1.toIndexFrame h2.toIndexFrame, h2.chain.trans h1.chain, h2.view.trans h1.view⟩

theorem Keeps.mono (h : Keeps nothing n n') : Keeps S n n' := by
  refine ⟨h.toIndexFrame.mono fun hk => ?_, h.chain, h.view⟩
  exact ⟨hk.path, hk.pindex, hk.work, hk.validity, fun block hb => (hk.data block hb).imp id False.elim⟩

theorem Keeps.preserves (h : Keeps S n n') : Preserves S n n' := h.toIndexFrame.mono Kept.evolves

theorem Node.modify_keeps (hash : Uint256) {f : BlockEntry → BlockEntry} (hf : ∀ e, Kept (S hash) e (f e)) :
    Keeps S n (n.modify hash f) := by
  obtain ⟨hchain, -, -, hview⟩ := n.modify_frame hash f
  exact ⟨Node.modify_indexFrame (fun _ e => .refl _ e) hf, hchain, hview⟩

theorem Node.modify_setFailed_keeps (n : Node) (hash : Uint256) (failedValid failedChild : BlockEntry → Bool) :
    Keeps S n (n.modify hash fun e => { e with failedValid := failedValid e, failedChild := failedChild e }) :=
  Node.modify_keeps hash fun _ => ⟨rfl, rfl, rfl, id, fun _ h => .inl h⟩

end Keeps

/-- Headers and blocks leave the active chain and the choice of `ActivateBestChain` alone. -/
structure SameChain (n n' : Node) : Prop where
  chain : n'.chain = n.chain
  mostWork : n'.mostWork = n.mostWork
  candidates : n.candidates ⊆ n'.candidates

section SameChain

variable {n n1 n' : Node}

theorem SameChain.refl (n : Node) : SameChain n n := ⟨rfl, rfl, List.Subset.refl _⟩

theorem SameChain.trans (h1 : SameChain n n1) (h2 : SameChain n1 n') : SameChain n n' :=
  ⟨h2.chain.trans h1.chain, h2.mostWork.trans h1.mostWork, List.Subset.trans h1.candidates h2.candidates⟩

theorem Node.modify_sameChain (n : Node) (hash : Uint256) (f : BlockEntry → BlockEntry) :
    SameChain n (n.modify hash f) := by
  obtain ⟨hchain, hcand, hmost, -⟩ := n.modify_frame hash f
  exact ⟨hchain, hmost, hcand ▸ List.Subset.refl _⟩

end SameChain

section Accept

variable {E : Env} {n n' : Node} {header : CBlockHeader} {block : CBlock} {min_pow_checked fOldClient : Bool}
  {force_processing : Bool}

theorem markFailedChildren_keeps (failedit : Uint256) (path : BlockPath) (n : Node) :
    Keeps nothing n (markFailedChildren failedit path n) ∧ SameChain n (markFailedChildren failedit path n) ∧
      (markFailedChildren failedit path n).candidates = n.candidates := by
  induction path generalizing n with
  | nil => exact ⟨.refl n, .refl n, rfl⟩
  | cons hash pprev ih =>
    unfold markFailedChildren
    split
    · exact ⟨.refl n, .refl n, rfl⟩
    · obtain ⟨hkeeps, hsame, hcand⟩ := ih (n.modify hash .setFailedChild)
      refine ⟨(n.modify_setFailed_keeps hash (·.failedValid) fun _ => true).trans hkeeps,
        (n.modify_sameChain hash _).trans hsame, ?_⟩
      rw [hcand]
      exact (n.modify_frame hash _).2.1

/-- A header that was not known and has passed every check. -/
structure HeaderAdded (E : Env) (n : Node) (header : CBlockHeader) (fOldClient : Bool) (pindexPrev : BlockEntry)
    (fSetAsProofOfStake : Bool) (n' : Node) : Prop where
  fresh : n.index (header.getHash E.crypto) = none
  prev : n.index header.hashPrevBlock = some pindexPrev
  flag : setAsProofOfStake E n header fOldClient = .ok fSetAsProofOfStake
  context : contextualCheckBlockHeader E n header pindexPrev fSetAsProofOfStake = .ok ()
  result : n' = n.setEntry (header.getHash E.crypto)
    (newEntry E.crypto header fSetAsProofOfStake (some pindexPrev))

theorem checkNewHeader_eq_ok {r : BlockEntry × Bool} (h : checkNewHeader E n header fOldClient = .ok r) :
    n.index header.hashPrevBlock = some r.1 ∧ setAsProofOfStake E n header fOldClient = .ok r.2 ∧
      contextualCheckBlockHeader E n header r.1 r.2 = .ok () := by
  obtain ⟨⟨⟩, -, h⟩ := bind_eq_ok.1 h
  obtain ⟨fSet, hflag, h⟩ := bind_eq_ok.1 h
  split at h
  · cases h
  · next pindexPrev hprev =>
    obtain ⟨-, h⟩ := require_bind_eq_ok.1 h
    obtain ⟨⟨⟩, hcontext, h⟩ := bind_eq_ok.1 h
    cases h
    exact ⟨hprev, hflag, hcontext⟩

theorem acceptBlockHeader_shapes {result : BlockCheck Uint256} (hg : n.index (E.net.hashGenesisBlock E.crypto) ≠ none)
    (h : acceptBlockHeader E n header min_pow_checked fOldClient = (n', result)) :
    n' = n ∨ (∃ failedit path e, n' = markFailedChildren failedit path n ∧ result = .error e) ∨
      ∃ pindexPrev fSet, HeaderAdded E n header fOldClient pindexPrev fSet n' := by
  simp only [acceptBlockHeader] at h
  split at h
  · next hgenesis =>
    -- the genesis block has its entry already
    left
    unfold addHeader at h
    split at h
    · rw [addToBlockIndex, hgenesis] at h
      split at h
      · exact (congrArg Prod.fst h).symm
      · next hnone => exact absurd hnone hg
    · exact (congrArg Prod.fst h).symm
  · split at h
    · exact .inl (congrArg Prod.fst h).symm
    · next hfresh =>
      split at h
      · exact .inl (congrArg Prod.fst h).symm
      · next pindexPrev fSet hcheck =>
        split at h
        · exact .inr (.inl ⟨_, _, _, (congrArg Prod.fst h).symm, (congrArg Prod.snd h).symm⟩)
        · unfold addHeader at h
          split at h
          · obtain ⟨hprev, hflag, hcontext⟩ := checkNewHeader_eq_ok hcheck
            refine .inr (.inr ⟨pindexPrev, fSet, hfresh, hprev, hflag, hcontext, ?_⟩)
            obtain ⟨rfl, -⟩ := Prod.mk.inj h
            rw [addToBlockIndex, hfresh, hprev]
          · exact .inl (congrArg Prod.fst h).symm

/-- **What a header can do to a node** that has the genesis block: nothing that matters, or a new entry. -/
theorem acceptBlockHeader_cases (hg : n.index (E.net.hashGenesisBlock E.crypto) ≠ none)
    (h : (acceptBlockHeader E n header min_pow_checked fOldClient).1 = n') :
    (Preserves nothing n n' ∧ SameChain n n' ∧ n'.candidates = n.candidates) ∨
      ∃ pindexPrev fSet, HeaderAdded E n header fOldClient pindexPrev fSet n' := by
  rcases acceptBlockHeader_shapes hg (Prod.ext h rfl) with rfl | ⟨failedit, path, -, rfl, -⟩ | hadd
  · exact .inl ⟨.refl n', .refl n', rfl⟩
  · obtain ⟨hkeeps, hsame⟩ := markFailedChildren_keeps failedit path n
    exact .inl ⟨hkeeps.preserves, hsame⟩
  · exact .inr hadd

theorem acceptBlockHeader_hash {hash : Uint256}
    (h : (acceptBlockHeader E n header min_pow_checked fOldClient).2 = .ok hash) : hash = header.getHash E.crypto := by
  simp only [acceptBlockHeader] at h
  split at h
  · unfold addHeader at h
    split at h
    · exact (Except.ok.inj h).symm
    · cases h
  · split at h
    · split at h
      · cases h
      · exact (Except.ok.inj h).symm
    · split at h
      · cases h
      · split at h
        · cases h
        · unfold addHeader at h
          split at h
          · exact (Except.ok.inj h).symm
          · cases h

theorem tryAddBlockIndexCandidate_sameChain (n : Node) (hash : Uint256) :
    SameChain n (tryAddBlockIndexCandidate n hash) ∧ (tryAddBlockIndexCandidate n hash).index = n.index ∧
      (tryAddBlockIndexCandidate n hash).view = n.view := by
  unfold tryAddBlockIndexCandidate
  split
  · exact ⟨.refl n, rfl, rfl⟩
  · split
    · exact ⟨.refl n, rfl, rfl⟩
    · exact ⟨⟨rfl, rfl, fun h hmem => List.mem_insert_of_mem hmem⟩, rfl, rfl⟩

theorem assignSequence_keeps (n : Node) (hash : Uint256) :
    Keeps nothing n (assignSequence n hash) ∧ SameChain n (assignSequence n hash) := by
  simp only [assignSequence]
  generalize (((n.index hash).bind fun e => e.path.tail.head?).bind n.index).elim 0 (·.nChainTx) = nChainTx
  obtain ⟨hchain, hmost, hcand⟩ := n.modify_sameChain hash (.setSequence nChainTx n.nBlockSequenceId)
  have hkeeps : Keeps nothing n (n.modify hash (.setSequence nChainTx n.nBlockSequenceId)) :=
    Node.modify_keeps hash fun _ => ⟨rfl, rfl, rfl, id, fun _ h => .inl h⟩
  exact ⟨hkeeps.trans (.of_index rfl rfl rfl), hchain, hmost, hcand⟩

theorem linkBlocks_keeps (fuel : Nat) (queue : List Uint256) (n : Node) :
    Keeps nothing n (linkBlocks fuel queue n) ∧ SameChain n (linkBlocks fuel queue n) := by
  induction fuel generalizing queue n with
  | zero => exact ⟨.refl n, .refl n⟩
  | succ fuel ih =>
    cases queue with
    | nil => exact ⟨.refl n, .refl n⟩
    | cons hash queue =>
      obtain ⟨hkeeps, hsame⟩ := assignSequence_keeps n hash
      obtain ⟨htry, hindex, hview⟩ := tryAddBlockIndexCandidate_sameChain (assignSequence n hash) hash
      rw [linkBlocks]
      generalize tryAddBlockIndexCandidate (assignSequence n hash) hash = n2 at htry hindex hview ⊢
      obtain ⟨ihkeeps, ihsame⟩ := ih (queue ++ (takeUnlinked n2 hash).1) (takeUnlinked n2 hash).2
      have htake : SameChain n2 (takeUnlinked n2 hash).2 := ⟨rfl, rfl, List.Subset.refl _⟩
      have hmid : Keeps nothing (assignSequence n hash) (takeUnlinked n2 hash).2 := .of_index hindex htry.chain hview
      exact ⟨hkeeps.trans (hmid.trans ihkeeps), hsame.trans (htry.trans (htake.trans ihsame))⟩

/-- The block of a message, whose merkle root has been checked. -/
def storedBlock (C : Crypto) (block : CBlock) (hash : Uint256) (b : CBlock) : Prop :=
  hash = block.getHash C ∧ b = block ∧ block.hashMerkleRoot = (blockMerkleRoot C block).1

theorem checkBlock_merkleRoot {chainHeight : Int} {fCheckPOW fCheckSig : Bool}
    (h : checkBlock E block chainHeight fCheckPOW true fCheckSig = .ok ()) :
    block.hashMerkleRoot = (blockMerkleRoot E.crypto block).1 := by
  obtain ⟨-, -, h⟩ := bind_eq_ok.1 h
  obtain ⟨-, h⟩ := require_bind_eq_ok.1 h
  obtain ⟨⟨⟩, hmerkle, -⟩ := bind_eq_ok.1 h
  rw [when_true] at hmerkle
  exact eq_of_beq (require_bind_eq_ok.1 hmerkle).1

theorem receivedBlockTransactions_keeps {C : Crypto} (n : Node) (block : CBlock)
    (hmerkle : block.hashMerkleRoot = (blockMerkleRoot C block).1) :
    Keeps (storedBlock C block) n (receivedBlockTransactions n block (block.getHash C)) ∧
      SameChain n (receivedBlockTransactions n block (block.getHash C)) := by
  have hkeeps : Keeps (storedBlock C block) n (n.modify (block.getHash C) (.setData block)) :=
    Node.modify_keeps _ fun e => .setData e ⟨rfl, rfl, hmerkle⟩
  have hsame := n.modify_sameChain (block.getHash C) (.setData block)
  simp only [receivedBlockTransactions]
  generalize n.modify (block.getHash C) (.setData block) = n1 at hkeeps hsame ⊢
  have hlink := linkBlocks_keeps (n1.unlinked.length + 1) [block.getHash C] n1
  split
  · exact ⟨hkeeps.trans hlink.1.mono, hsame.trans hlink.2⟩
  · split
    · exact ⟨hkeeps, hsame⟩
    · split
      · exact ⟨hkeeps.trans hlink.1.mono, hsame.trans hlink.2⟩
      · split
        · exact ⟨hkeeps, hsame⟩
        · exact ⟨hkeeps.trans (.of_index rfl rfl rfl), hsame.trans ⟨rfl, rfl, List.Subset.refl _⟩⟩

theorem acceptBlockData_keeps (n : Node) (block : CBlock) (fRequested : Bool) :
    Keeps (storedBlock E.crypto block) n (acceptBlockData E n block fRequested (block.getHash E.crypto)).1 ∧
      SameChain n (acceptBlockData E n block fRequested (block.getHash E.crypto)).1 := by
  unfold acceptBlockData
  split
  · exact ⟨.refl n, .refl n⟩
  · split
    · exact ⟨.refl n, .refl n⟩
    · split
      · exact ⟨.refl n, .refl n⟩
      · split
        · next hcheck =>
          obtain ⟨⟨⟩, hblock, -⟩ := bind_eq_ok.1 hcheck
          exact receivedBlockTransactions_keeps n block (checkBlock_merkleRoot hblock)
        · dsimp only
          split
          · exact ⟨.refl n, .refl n⟩
          · exact ⟨n.modify_setFailed_keeps _ (fun _ => true) (·.failedChild), n.modify_sameChain _ _⟩
        · exact ⟨.refl n, .refl n⟩

theorem processNewBlock_stages
    (h : (processNewBlock E n block force_processing min_pow_checked).1 = n') :
    n' = n ∨ n' = (acceptBlockHeader E n block.getBlockHeader min_pow_checked false).1 ∨
      (acceptBlockHeader E n block.getBlockHeader min_pow_checked false).2 = .ok (block.getHash E.crypto) ∧
        n' = (acceptBlockData E (acceptBlockHeader E n block.getBlockHeader min_pow_checked false).1 block
          force_processing
        (block.getHash E.crypto)).1 := by
  unfold processNewBlock at h
  split at h
  · exact .inl h.symm
  · split at h
    · exact .inl h.symm
    · unfold acceptBlock at h
      split at h
      · next n1 e heq => exact .inr (.inl (by rw [heq]; exact h.symm))
      · next n1 hash heq =>
        have hhash := acceptBlockHeader_hash (congrArg Prod.snd heq)
        rw [hhash] at h
        exact .inr (.inr ⟨by rw [heq, ← hhash], by rw [heq]; exact h.symm⟩)

/-- **What a block can do to a node**: what its header does, and then storing the block. -/
theorem processNewBlock_cases
    (h : (processNewBlock E n block force_processing min_pow_checked).1 = n') :
    ∃ n1, (n1 = n ∨ (acceptBlockHeader E n block.getBlockHeader min_pow_checked false).1 = n1) ∧
      Keeps (storedBlock E.crypto block) n1 n' ∧ SameChain n1 n' := by
  rcases processNewBlock_stages h with rfl | rfl | ⟨-, rfl⟩
  · exact ⟨n', .inl rfl, .refl n', .refl n'⟩
  · exact ⟨_, .inr rfl, .refl _, .refl _⟩
  · exact ⟨_, .inr rfl, acceptBlockData_keeps _ block _⟩

end Accept

end CodexaCoin
