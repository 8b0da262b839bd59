import CodexaCoin.Lib.WriteBehind
import CodexaCoin.Node.Activate

/-!
# The block index on disk

`m_dirty_blockindex`, `WriteBlockIndexDB`, `FlushStateToDisk`, `LoadBlockIndexGuts` and `LoadChainTip` around the node of
`Activate.lean`: entries are marked when they change, written in batches, and read back at a start. The steps are those of
`ActivateBestChain` one by one, so that a write or a crash can come between any two of them.
-/

namespace CodexaCoin

open Check Consensus CoinMap IndexChain WriteBehind

/-! ## Nodes with their databases -/

/-- A node with its two databases. -/
structure DiskNode where
  node : Node
  /-- `m_dirty_blockindex`. -/
  dirty : Uint256 → Bool
  /-- The entries of `BlockTreeDB`. The path stands for `hashPrev`; chain work, counts and sequence numbers are not
  stored. -/
  blockTree : Uint256 → Option BlockEntry
  /-- The coins on disk with `DB_BEST_BLOCK`. A write of the coins that breaks off is completed at the next start, and
  counts as done. -/
  coinsDB : CCoinsView

namespace DiskNode

variable (m : DiskNode)

def store : Store Uint256 BlockEntry where
  mem := m.node.index
  dirty := m.dirty
  disk := m.blockTree

def writeBlockIndexDB : DiskNode :=
  { m with dirty := m.store.write.dirty, blockTree := m.store.write.disk }

/-- A full `FlushStateToDisk`: the block index first, and then the coins. -/
def flush : DiskNode :=
  { m.writeBlockIndexDB with coinsDB := m.node.view }

/-- A node after `LoadGenesisBlock`, with empty databases. -/
def init (net : Network) (C : Crypto) : DiskNode where
  node := .init net C
  dirty hash := decide (hash = net.hashGenesisBlock C)
  blockTree _ := none
  coinsDB := ⟨∅, 0⟩

end DiskNode

/-- The fields of an entry that `LoadBlockIndexGuts` reads back. `LoadBlockIndex` may still mark the entry as the child of
a failed one. -/
structure LoadedEntry (d e : BlockEntry) : Prop where
  path : e.path = d.path
  pindex : e.pindex = d.pindex
  validity : e.validity = d.validity
  data : e.data = d.data

/-- A start of the node from its databases; what is computed anew from the entries is left open. `LoadGenesisBlock` adds
the genesis block if it is not there. -/
structure Reloaded (net : Network) (C : Crypto) (m m' : DiskNode) : Prop where
  entry : ∀ hash e, m'.node.index hash = some e →
    (∃ d, m.blockTree hash = some d ∧ LoadedEntry d e) ∨
      (m.blockTree hash = none ∧ hash = net.hashGenesisBlock C ∧ e = genesisEntry net C ∧ m'.dirty hash = true)
  loaded : ∀ hash d, m.blockTree hash = some d → m'.node.index hash ≠ none
  genesis : m'.node.index (net.hashGenesisBlock C) ≠ none
  chain : (m.coinsDB.hashBlock = 0 ∧ m'.node.chain = []) ∨
    (m.coinsDB.hashBlock ≠ 0 ∧ ∃ d, m.blockTree m.coinsDB.hashBlock = some d ∧ m'.node.chain = d.path)
  view : m'.node.view = m.coinsDB
  blockTree : m'.blockTree = m.blockTree
  coinsDB : m'.coinsDB = m.coinsDB

/-- What the hash of a block stands for: the header, and through the merkle root the transactions. -/
structure BlockFacts where
  kernel : Uint256 → Uint256
  time : Uint256 → Nat

def BlockFacts.KernelOf (F : BlockFacts) (E : Env) (block : CBlock) : Prop :=
  block.hashMerkleRoot = (blockMerkleRoot E.crypto block).1 → modifierKernel E block = F.kernel (block.getHash E.crypto)

def BlockFacts.TimeOf (F : BlockFacts) (C : Crypto) (header : CBlockHeader) : Prop :=
  header.nTime = F.time (header.getHash C)

/-- What can happen to a node. Messages mark the entries that they change, at least the new ones; `ConnectBlock` marks an
entry only if it was not valid up to the scripts before. -/
inductive DiskStep (F : BlockFacts) (E : Env) : DiskNode → DiskNode → Prop
  | header {m : DiskNode} {header : CBlockHeader} {min_pow_checked fOldClient : Bool} {node : Node}
      {dirty : Uint256 → Bool} (htime : F.TimeOf E.crypto header)
      (h : (acceptBlockHeader E m.node header min_pow_checked fOldClient).1 = node) (hdirty : Marks m.dirty dirty)
      (hnew : ∀ hash, m.node.index hash = none → node.index hash ≠ none → dirty hash = true) :
      DiskStep F E m { m with node := node, dirty := dirty }
  | block {m : DiskNode} {block : CBlock} {force_processing min_pow_checked : Bool} {node : Node}
      {dirty : Uint256 → Bool} (htime : F.TimeOf E.crypto block.getBlockHeader) (hkernel : F.KernelOf E block)
      (h : (processNewBlock E m.node block force_processing min_pow_checked).1 = node) (hdirty : Marks m.dirty dirty)
      (hnew : ∀ hash, m.node.index hash = none → node.index hash ≠ none → dirty hash = true) :
      DiskStep F E m { m with node := node, dirty := dirty }
  | findMostWork {m : DiskNode} {fuel : Nat} {dirty : Uint256 → Bool} (hdirty : Marks m.dirty dirty) :
      DiskStep F E m { m with node := (findMostWorkChain fuel m.node).1, dirty := dirty }
  /-- The sets that chain selection keeps in memory. -/
  | select {m : DiskNode} {node : Node} (hindex : node.index = m.node.index) (hchain : node.chain = m.node.chain)
      (hview : node.view = m.node.view) : DiskStep F E m { m with node := node }
  /-- `InvalidateBlock` and `ResetBlockFailureFlags` set and clear the failure of an entry. -/
  | setFailed {m : DiskNode} {hash : Uint256} {failedValid failedChild : Bool} {dirty : Uint256 → Bool}
      (hdirty : Marks m.dirty dirty) :
      DiskStep F E m { m with
        node := m.node.modify hash fun e => { e with failedValid := failedValid, failedChild := failedChild }
        dirty := dirty }
  | disconnect {m : DiskNode} {node : Node} (h : disconnectTip E m.node = some node) :
      DiskStep F E m { m with node := node }
  | connect {m : DiskNode} {hash : Uint256} {pblock : Option CBlock} {block : CBlock} {node : Node}
      {dirty : Uint256 → Bool} (hkernel : ∀ b, pblock = some b → F.KernelOf E b)
      (h : connectTip E m.node hash pblock = (node, .connected block)) (hdirty : Marks m.dirty dirty)
      (hmark : ∀ e, m.node.index hash = some e → hash ≠ E.net.hashGenesisBlock E.crypto → e.isValidScripts = false →
        dirty hash = true) :
      DiskStep F E m { m with node := node, dirty := dirty }
  | failConnect {m : DiskNode} {hash : Uint256} {pblock : Option CBlock} {result : TipResult} {node : Node}
      {dirty : Uint256 → Bool} (h : connectTip E m.node hash pblock = (node, result))
      (hresult : ∀ block, result ≠ .connected block) (hdirty : Marks m.dirty dirty) :
      DiskStep F E m { m with node := node, dirty := dirty }
  | writeIndex {m : DiskNode} : DiskStep F E m m.writeBlockIndexDB
  | flush {m : DiskNode} : DiskStep F E m m.flush
  | reload {m m' : DiskNode} (h : Reloaded E.net E.crypto m m') : DiskStep F E m m'

/-- The nodes that runs reach from a first start. Clocks, script verification and checkpoints may differ from step to
step. -/
inductive DiskReachable (net : Network) (C : Crypto) (F : BlockFacts) : DiskNode → Prop
  | init : DiskReachable net C F (.init net C)
  | step {E : Env} {m m' : DiskNode} (hm : DiskReachable net C F m) (hnet : E.net = net) (hC : E.crypto = C)
      (h : DiskStep F E m m') : DiskReachable net C F m'

/-! ## Messages and rounds as sequences of steps -/

abbrev DiskRun (F : BlockFacts) (E : Env) : DiskNode → DiskNode → Prop :=
  Relation.ReflTransGen (DiskStep F E)

/-- The blocks of an event are described by their hashes. -/
def BlockFacts.Describes (F : BlockFacts) (E : Env) : Event → Prop
  | .header header _ _ => F.TimeOf E.crypto header
  | .block block _ _ => F.TimeOf E.crypto block.getBlockHeader ∧ F.KernelOf E block
  | .activate _ pblock => ∀ b, pblock = some b → F.KernelOf E b

section Runs

variable {F : BlockFacts} {E : Env} {m : DiskNode} {pblock : Option CBlock}

def RunsTo (F : BlockFacts) (E : Env) (m : DiskNode) (node : Node) : Prop :=
  ∃ dirty, Marks m.dirty dirty ∧ DiskRun F E m { m with node := node, dirty := dirty }

theorem RunsTo.refl (m : DiskNode) : RunsTo F E m m.node := ⟨m.dirty, .refl _, .refl⟩

theorem RunsTo.step {node node' : Node} (h : RunsTo F E m node)
    (hstep : ∀ m1 : DiskNode, m1.node = node → RunsTo F E m1 node') : RunsTo F E m node' := by
  obtain ⟨dirty, hmarks, hrun⟩ := h
  obtain ⟨dirty', hmarks', hrun'⟩ := hstep { m with node := node, dirty := dirty } rfl
  exact ⟨dirty', hmarks.trans hmarks', hrun.trans hrun'⟩

theorem RunsTo.select {node : Node} (hindex : node.index = m.node.index) (hchain : node.chain = m.node.chain)
    (hview : node.view = m.node.view) : RunsTo F E m node :=
  ⟨m.dirty, .refl _, .single (.select hindex hchain hview)⟩

theorem disconnectTips_run (pindexFork : BlockPath) (fuel : Nat) :
    ∀ m : DiskNode, RunsTo F E m (disconnectTips E pindexFork fuel m.node).1 := by
  induction fuel with
  | zero => exact fun m => .refl m
  | succ fuel ih =>
    intro m
    unfold disconnectTips
    split
    · exact .refl m
    · split
      · exact .refl m
      · split
        · exact .refl m
        · next n1 htip =>
          have hone : RunsTo F E m n1 := ⟨m.dirty, .refl _, .single (.disconnect htip)⟩
          exact hone.step fun m1 hm1 => hm1 ▸ ih m1

theorem connectTip_run (m : DiskNode) (hash : Uint256)
    (hkernel : ∀ b, pblock = some b → F.KernelOf E b) : RunsTo F E m (connectTip E m.node hash pblock).1 := by
  have hall : Marks m.dirty fun _ => true := fun _ _ => rfl
  refine ⟨fun _ => true, hall, .single ?_⟩
  generalize hres : connectTip E m.node hash pblock = res
  obtain ⟨node, result⟩ := res
  cases result with
  | connected block => exact .connect hkernel hres hall fun _ _ _ _ => rfl
  | invalid => exact .failConnect hres (fun _ => nofun) hall
  | fatal => exact .failConnect hres (fun _ => nofun) hall

theorem connectTips_run (hashMostWork : Uint256) (pindexOldTip : Option BlockEntry)
    (hkernel : ∀ b, pblock = some b → F.KernelOf E b) (toConnect : List Uint256) :
    ∀ m : DiskNode, RunsTo F E m (connectTips E hashMostWork pblock pindexOldTip toConnect m.node).1 := by
  induction toConnect with
  | nil => exact fun m => .refl m
  | cons hash rest ih =>
    intro m
    have hkernel' : ∀ b, (if hash = hashMostWork then pblock else none) = some b → F.KernelOf E b := by
      intro b hb
      split at hb
      · exact hkernel b hb
      · cases hb
    have hone := connectTip_run m hash hkernel'
    unfold connectTips
    split
    · next n1 heq => rw [heq] at hone; exact hone
    · next n1 heq => rw [heq] at hone; exact hone
    · next n1 block heq =>
      rw [heq] at hone
      have hprune : RunsTo F E m (pruneBlockIndexCandidates n1) :=
        hone.step fun m1 hm1 => .select (by rw [hm1]; rfl) (by rw [hm1]; rfl) (by rw [hm1]; rfl)
      dsimp only
      split
      · exact hprune
      · split
        · exact hprune
        · exact hprune.step fun m1 hm1 => hm1 ▸ ih m1

/-- **A message or a round of activation is a sequence of steps.** -/
theorem DiskRun.step (m : DiskNode) {event : Event} (h : F.Describes E event) :
    RunsTo F E m (m.node.step E event).1 := by
  have hall : Marks m.dirty fun _ => true := fun _ _ => rfl
  cases event with
  | header header min_pow_checked fOldClient =>
    exact ⟨_, hall, .single (.header h rfl hall fun _ _ _ => rfl)⟩
  | block block force_processing min_pow_checked =>
    exact ⟨_, hall, .single (.block h.1 h.2 rfl hall fun _ _ _ => rfl)⟩
  | activate first pblock =>
    have hchoose : RunsTo F E m (chooseMostWork m.node first).1 := by
      unfold chooseMostWork
      split
      · exact .refl m
      · exact ⟨_, .refl _, .single (.findMostWork (.refl _))⟩
    simp only [Node.step, activateBestChain]
    generalize chooseMostWork m.node first = found at hchoose ⊢
    split
    · exact hchoose.step fun m1 hm1 => .select (by rw [hm1]) (by rw [hm1]) (by rw [hm1])
    · next pindexMostWork _ =>
      split
      · exact hchoose.step fun m1 hm1 => .select (by rw [hm1]) (by rw [hm1]) (by rw [hm1])
      · generalize hfilter : (pblock.filter fun block => block.getHash E.crypto == pindexMostWork.pindex.hash) = pblock'
        have hkernel : ∀ b, pblock' = some b → F.KernelOf E b := fun b hb =>
          h b (Option.filter_eq_some_iff.1 (hfilter.trans hb)).1
        have hround : RunsTo F E m (activateBestChainStep E found.1 pindexMostWork pblock').1 := by
          refine hchoose.step fun m1 hm1 => ?_
          rw [← hm1]
          have hdisc := disconnectTips_run (F := F) (E := E) (Fork.fork m1.node.chain pindexMostWork.path)
            m1.node.chain.length m1
          unfold activateBestChainStep
          dsimp only
          split
          · next n1 disconnected heq => rw [heq] at hdisc; exact hdisc
          · next n1 disconnected heq =>
            rw [heq] at hdisc
            refine hdisc.step fun m2 hm2 => ?_
            have hm2 : m2.node = n1 := hm2
            exact hm2 ▸ connectTips_run _ _ hkernel _ m2
        exact hround.step fun m1 hm1 => .select (by rw [hm1]) (by rw [hm1]) (by rw [hm1])

theorem DiskRun.run {events : List Event} (h : ∀ event ∈ events, F.Describes E event) :
    ∀ m : DiskNode, RunsTo F E m (m.node.run E events) := by
  induction events with
  | nil => exact fun m => .refl m
  | cons event events ih =>
    intro m
    refine (DiskRun.step m (h event (by simp))).step fun m1 hm1 => ?_
    rw [Node.run, ← hm1]
    exact ih (fun ev hev => h ev (by simp [hev])) m1

theorem DiskReachable.run {net : Network} {C : Crypto} {m' : DiskNode} (hm : DiskReachable net C F m)
    (hnet : E.net = net) (hC : E.crypto = C) (h : DiskRun F E m m') : DiskReachable net C F m' := by
  induction h with
  | refl => exact hm
  | tail _ hstep ih => exact .step ih hnet hC hstep

end Runs

end CodexaCoin
