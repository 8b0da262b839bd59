import CodexaCoin.Node.BlockTree

/-!
# Chain selection

`FindMostWorkChain`, `DisconnectTip`, `ConnectTip` and `ActivateBestChainStep`, and the node as a state machine that
takes headers and blocks in and activates the best chain in between.
-/

namespace CodexaCoin

open Check Consensus CoinMap IndexChain

/-! ## The most-work candidate -/

namespace Node

variable (n : Node)

/-- The later one in the order of `setBlockIndexCandidates`. -/
def betterCandidate (best : Option (Uint256 × BlockEntry)) (hash : Uint256) : Option (Uint256 × BlockEntry) :=
  match n.index hash, best with
  | none, _ => best
  | some e, none => some (hash, e)
  | some e, some b => if b.2.worse e then some (hash, e) else best

/-- `*setBlockIndexCandidates.rbegin()`. -/
def bestCandidate : Option (Uint256 × BlockEntry) :=
  n.candidates.foldl n.betterCandidate none

/-- The first block on the way from a candidate to the active chain that has failed or has no data. -/
def unusableAncestor : BlockPath → Option BlockEntry
  | [] => none
  | hash :: pprev =>
    if (hash :: pprev).isSuffixOf n.chain then none
    else match n.index hash with
      | none => none
      | some pindexTest => if pindexTest.failed || pindexTest.data.isNone then some pindexTest else unusableAncestor pprev

end Node

/-- The loop of `FindMostWorkChain` that takes a chain out of the candidates, down to the block that makes it unusable:
the blocks above a failed one fail too, and those above one without data wait for it again. -/
def eraseCandidates (pindexTest : BlockEntry) : BlockPath → Node → Node
  | [], n => n
  | hash :: pprev, n =>
    if hash = pindexTest.pindex.hash then { n with candidates := n.candidates.erase hash }
    else
      let n1 :=
        if pindexTest.failed then n.modify hash .setFailedChild
        else { n with unlinked := n.unlinked ++ (pprev.head?.map fun hashPrev => (hashPrev, hash)).toList }
      eraseCandidates pindexTest pprev { n1 with candidates := n1.candidates.erase hash }

/-- `FindMostWorkChain`. Every round takes the candidate it looks at out of the set, which bounds the loop. -/
def findMostWorkChain : (fuel : Nat) → Node → Node × Option Uint256
  | 0, n => (n, none)
  | fuel + 1, n =>
    match n.bestCandidate with
    | none => (n, none)
    | some (hash, pindexNew) =>
      match n.unusableAncestor pindexNew.path with
      | none => (n, some hash)
      | some pindexTest => findMostWorkChain fuel (eraseCandidates pindexTest pindexNew.path n)

def pruneBlockIndexCandidates (n : Node) : Node :=
  { n with candidates := n.candidates.filter fun hash =>
      !(match n.index hash, n.tip with
        | some e, some tip => e.worse tip
        | _, _ => false) }

/-! ## Disconnecting and connecting the tip -/

/-- What a step of `ActivateBestChain` did to the chain: the blocks it disconnected, and its `ConnectTrace`. -/
structure ActivationTrace where
  disconnected : List Uint256 := []
  connected : List (Uint256 × CBlock) := []

section Tips

variable (E : Env) (n : Node)

/-- `ReadBlockFromDisk`: the block as it was serialized, with the checks that guard against a damaged file. -/
def readBlockFromDisk (pindex : BlockEntry) : Option CBlock :=
  pindex.data.bind fun stored =>
    let block := stored.reread
    if block.getHash E.crypto ≠ E.net.hashGenesisBlock E.crypto ∧ block.isProofOfStake = false ∧
        checkProofOfWork E.net (block.getPoWHash E.crypto) block.nBits = false then none
    else if E.net.params.signetBlocks && !E.checkSignetBlockSolution block then none
    else if block.getHash E.crypto ≠ pindex.pindex.hash then none
    else some { block with nFlags := if block.isProofOfStake then 1 else 0 }

def disconnectTip : Option Node :=
  match n.chain with
  | hash :: hashPrev :: rest =>
    (n.index hash).bind fun pindexDelete =>
      (readBlockFromDisk E pindexDelete).bind fun block =>
        pindexDelete.undo.bind fun blockUndo =>
          match disconnectBlock E.crypto block (n.indexChain (hashPrev :: rest)) blockUndo n.view with
          | (.ok, view) => some { n with chain := hashPrev :: rest, view := view }
          | _ => none
  | _ => none

/-- The first loop of `ActivateBestChainStep`: disconnect blocks until the fork is the tip. The result is the node, the
blocks it disconnected and whether it came that far. -/
def disconnectTips (pindexFork : BlockPath) : (fuel : Nat) → Node → Node × List Uint256 × Bool
  | 0, n => (n, [], true)
  | fuel + 1, n =>
    match n.chain with
    | [] => (n, [], true)
    | hash :: _ =>
      if pindexFork.head? = some hash then (n, [], true)
      else match disconnectTip E n with
        | none => (n, [], false)
        | some n1 =>
          let r := disconnectTips pindexFork fuel n1
          (r.1, hash :: r.2.1, r.2.2)

def invalidBlockFound (hash : Uint256) (result : BlockValidationResult) : Node :=
  if result = .blockMutated then n
  else
    let n1 := n.modify hash .setFailedValid
    { n1 with failedBlocks := n1.failedBlocks.insert hash, candidates := n1.candidates.erase hash }

/-- What `ConnectTip` came to. -/
inductive TipResult where
  | connected (block : CBlock)
  /-- The block is invalid. -/
  | invalid
  /-- A system error, after which the node shuts down. -/
  | fatal

/-- The node after `ConnectBlock` succeeded and the tip was set. The genesis block returns from `ConnectBlock` before
undo data and validity are written, and undo data that exists is kept. -/
def setTip (pindexNew : BlockEntry) (r : ConnectResult) : Node :=
  let hash := pindexNew.pindex.hash
  let n1 := n.modify hash fun e =>
    if hash = E.net.hashGenesisBlock E.crypto then e
    else { e with
      undo := some (e.undo.getD r.blockundo)
      pindex := { e.pindex with nStakeModifier := r.nStakeModifier } }.raiseValidity .scripts
  { n1 with chain := hash :: n.chain, view := r.view }

def connectTip (hash : Uint256) (pblock : Option CBlock) : Node × TipResult :=
  match n.index hash with
  | none => (n, .fatal)
  | some pindexNew =>
    if pindexNew.path.tail ≠ n.chain then (n, .fatal)
    else match (match pblock with
        | some block => some block
        | none => readBlockFromDisk E pindexNew) with
      | none => (n, .fatal)
      | some block =>
        match connectBlock E block pindexNew.pindex (n.indexChain n.chain) n.view false with
        | .ok r => (setTip E n pindexNew r, .connected block)
        | .error (.invalid result _) => (invalidBlockFound n hash result, .invalid)
        | .error _ => (n, .fatal)

/-- How a step of `ActivateBestChain` ended. -/
inductive StepResult where
  | done
  | invalidFound
  | fatal
deriving DecidableEq

def connectTips (hashMostWork : Uint256) (pblock : Option CBlock) (pindexOldTip : Option BlockEntry) :
    List Uint256 → Node → Node × List (Uint256 × CBlock) × StepResult
  | [], n => (n, [], .done)
  | hash :: rest, n =>
    match connectTip E n hash (if hash = hashMostWork then pblock else none) with
    | (n1, .invalid) => (n1, [], .invalidFound)
    | (n1, .fatal) => (n1, [], .fatal)
    | (n1, .connected block) =>
      let n2 := pruneBlockIndexCandidates n1
      if n2.candidates.isEmpty then (n2, [(hash, block)], .fatal)
      else if pindexOldTip.all fun old => n2.tip.any fun tip => decide (tip.nChainWork.toNat > old.nChainWork.toNat) then
        (n2, [(hash, block)], .done)
      else
        let r := connectTips hashMostWork pblock pindexOldTip rest n2
        (r.1, (hash, block) :: r.2.1, r.2.2)

/-- `ActivateBestChainStep`; `FindFork` is the nearest ancestor of the candidate on the active chain. -/
def activateBestChainStep (pindexMostWork : BlockEntry) (pblock : Option CBlock) :
    Node × ActivationTrace × StepResult :=
  let pindexFork := Fork.fork n.chain pindexMostWork.path
  match disconnectTips E pindexFork n.chain.length n with
  | (n1, disconnected, false) => (n1, { disconnected := disconnected }, .fatal)
  | (n1, disconnected, true) =>
    let toConnect := (pindexMostWork.path.take (pindexMostWork.path.length - pindexFork.length)).reverse
    let r := connectTips E pindexMostWork.pindex.hash pblock n.tip toConnect n1
    (r.1, { disconnected := disconnected, connected := r.2.1 }, r.2.2)

end Tips

/-! ## The node as a state machine -/

inductive Event where
  /-- A header, of a peer that may be an old client. -/
  | header (header : CBlockHeader) (min_pow_checked fOldClient : Bool)
  /-- A block, which may have been asked for. -/
  | block (block : CBlock) (force_processing min_pow_checked : Bool)
  /-- One round of the loop of `ActivateBestChain`: the first one of a call, or a later one that goes on with the
  candidate of the round before; `pblock` is the block that the caller has in memory. -/
  | activate (first : Bool) (pblock : Option CBlock)

/-- `pindexMostWork` of a round: the one of the round before, or a new one. -/
def chooseMostWork (n : Node) (first : Bool) : Node × Option Uint256 :=
  match first, n.mostWork with
  | false, some hash => (n, some hash)
  | _, _ => findMostWorkChain n.candidates.length n

def activateBestChain (E : Env) (n : Node) (first : Bool) (pblock : Option CBlock) : Node × ActivationTrace :=
  let found := chooseMostWork n first
  match found.2.bind found.1.index with
  | none => ({ found.1 with mostWork := none }, {})
  | some pindexMostWork =>
    if found.1.chain = pindexMostWork.path then ({ found.1 with mostWork := none }, {})
    else
      let pblock := pblock.filter fun block => block.getHash E.crypto == pindexMostWork.pindex.hash
      let r := activateBestChainStep E found.1 pindexMostWork pblock
      let goesOn := r.2.2 = .done ∧ r.1.chain ≠ pindexMostWork.path
      ({ r.1 with mostWork := if goesOn then found.2 else none }, r.2.1)

/-- One message, or one round of the loop of `ActivateBestChain`. -/
def Node.step (E : Env) (n : Node) : Event → Node × ActivationTrace
  | .header header min_pow_checked fOldClient => ((acceptBlockHeader E n header min_pow_checked fOldClient).1, {})
  | .block block force_processing min_pow_checked => ((processNewBlock E n block force_processing min_pow_checked).1, {})
  | .activate first pblock => activateBestChain E n first pblock

/-- The index entry that `LoadGenesisBlock` makes. -/
def genesisEntry (net : Network) (C : Crypto) : BlockEntry where
  path := [net.hashGenesisBlock C]
  pindex := .ofHeader C (net.genesis C).getBlockHeader false
  nChainWork := getBlockProof net.params.genesisBits
  nTx := 1
  nChainTx := 1
  nSequenceId := 1
  validity := .transactions
  data := some (net.genesis C)

/-- A node after `LoadGenesisBlock`: the genesis block is stored and a candidate, and no block is connected yet. -/
def Node.init (net : Network) (C : Crypto) : Node where
  index hash := if hash = net.hashGenesisBlock C then some (genesisEntry net C) else none
  chain := []
  view := ⟨∅, 0⟩
  candidates := [net.hashGenesisBlock C]
  unlinked := []
  failedBlocks := []
  nBlockSequenceId := 2
  mostWork := none

/-- The nodes that runs reach when every step, with the clock and the other circumstances `E` of the moment, satisfies
`P`. -/
inductive Reachable (net : Network) (C : Crypto) (P : Env → Node → Event → Prop) : Node → Prop
  | init : Reachable net C P (.init net C)
  | step {E : Env} {n : Node} {event : Event} (hn : Reachable net C P n) (hnet : E.net = net) (hC : E.crypto = C)
      (hP : P E n event) : Reachable net C P (n.step E event).1

theorem Reachable.invariant {net : Network} {C : Crypto} {P : Env → Node → Event → Prop} {I : Node → Prop}
    (hinit : I (.init net C))
    (hstep : ∀ E n event, E.net = net → E.crypto = C → I n → P E n event → I (n.step E event).1) {n : Node}
    (h : Reachable net C P n) : I n := by
  induction h with
  | init => exact hinit
  | step _ hnet hC hP ih => exact hstep _ _ _ hnet hC ih hP

/-- The node after a list of events under the same circumstances. -/
def Node.run (E : Env) : List Event → Node → Node
  | [], n => n
  | event :: events, n => Node.run E events (n.step E event).1

/-- Every step of such a run satisfies `P`. -/
def RunSatisfies (P : Env → Node → Event → Prop) (E : Env) : List Event → Node → Prop
  | [], _ => True
  | event :: events, n => P E n event ∧ RunSatisfies P E events (n.step E event).1

instance RunSatisfies.decidable {P : Env → Node → Event → Prop} [∀ E n event, Decidable (P E n event)] (E : Env) :
    ∀ (events : List Event) (n : Node), Decidable (RunSatisfies P E events n)
  | [], _ => inferInstanceAs (Decidable True)
  | event :: events, n =>
    have := RunSatisfies.decidable (P := P) E events (n.step E event).1
    inferInstanceAs (Decidable (P E n event ∧ RunSatisfies P E events (n.step E event).1))

theorem RunSatisfies.of_mem {P : Env → Node → Event → Prop} {E : Env} {events : List Event}
    (h : ∀ event ∈ events, ∀ n, P E n event) (n : Node) : RunSatisfies P E events n := by
  induction events generalizing n with
  | nil => trivial
  | cons event events ih =>
    exact ⟨h event List.mem_cons_self n, ih (fun ev hev => h ev (List.mem_cons_of_mem event hev)) _⟩

theorem Reachable.run {net : Network} {C : Crypto} {P : Env → Node → Event → Prop} {E : Env} (hnet : E.net = net)
    (hC : E.crypto = C) {events : List Event} {n : Node} (hn : Reachable net C P n) (h : RunSatisfies P E events n) :
    Reachable net C P (n.run E events) := by
  induction events generalizing n with
  | nil => exact hn
  | cons event events ih => exact ih (.step hn hnet hC h.1) h.2

/-! ## Closed block indexes

The entries that `pprev` leads to are in the block index, each under its own hash. -/

/-- Every entry is found under its hash, with a path that goes through the entries of its ancestors. -/
structure Node.Closed (n : Node) : Prop where
  own : ∀ hash e, n.index hash = some e → e.pindex.hash = hash ∧ ∃ rest, e.path = hash :: rest
  ancestor : ∀ hash e, n.index hash = some e → ∀ h q, (h :: q) <:+ e.path → ∃ e', n.index h = some e' ∧ e'.path = h :: q

section Closed

variable {S : Uint256 → CBlock → Prop} {E : Env} {n n' : Node} {hash : Uint256} {e e' : BlockEntry}

theorem Node.Closed.preserves (hc : n.Closed) (h : Preserves S n n') : n'.Closed := by
  constructor
  · intro hash e' he'
    obtain ⟨e, he, hev⟩ := h.source he'
    obtain ⟨hhash, rest, hpath⟩ := hc.own hash e he
    exact ⟨hev.hash.trans hhash, rest, hev.path.trans hpath⟩
  · intro hash e' he' a q hq
    obtain ⟨e, he, hev⟩ := h.source he'
    rw [hev.path] at hq
    obtain ⟨ea, hea, hpath⟩ := hc.ancestor hash e he a q hq
    obtain ⟨ea', hea', heva⟩ := h.kept a ea hea
    exact ⟨ea', hea', heva.path.trans hpath⟩

theorem Node.Closed.headerAdded {header : CBlockHeader} {fOldClient fSet : Bool} {pindexPrev : BlockEntry}
    (hc : n.Closed) (h : HeaderAdded E n header fOldClient pindexPrev fSet n') : n'.Closed := by
  have hnew : n'.index (header.getHash E.crypto) = some (newEntry E.crypto header fSet (some pindexPrev)) := by
    rw [h.result]
    simp [Node.setEntry]
  have hold : ∀ a, a ≠ header.getHash E.crypto → n'.index a = n.index a := by
    intro a ha
    rw [h.result]
    simp [Node.setEntry, ha]
  have hkept : ∀ a ea, n.index a = some ea → n'.index a = some ea := by
    intro a ea hea
    rw [hold a (by rintro rfl; rw [h.fresh] at hea; cases hea), hea]
  constructor
  · intro a ea hea
    by_cases ha : a = header.getHash E.crypto
    · subst ha
      rw [hnew] at hea
      cases hea
      exact ⟨rfl, _, rfl⟩
    · exact hc.own a ea (hold a ha ▸ hea)
  · intro a ea hea b q hq
    by_cases ha : a = header.getHash E.crypto
    · subst ha
      rw [hnew] at hea
      cases hea
      -- the new entry itself, or an ancestor of its parent
      rcases List.suffix_cons_iff.1 hq with heq | hq
      · cases heq
        exact ⟨_, hnew, rfl⟩
      · obtain ⟨eb, heb, hpath⟩ := hc.ancestor _ _ h.prev b q hq
        exact ⟨eb, hkept b eb heb, hpath⟩
    · obtain ⟨eb, heb, hpath⟩ := hc.ancestor a ea (hold a ha ▸ hea) b q hq
      exact ⟨eb, hkept b eb heb, hpath⟩

theorem Node.init_closed (net : Network) (C : Crypto) : (Node.init net C).Closed := by
  have hentry : ∀ a ea, (Node.init net C).index a = some ea → a = net.hashGenesisBlock C ∧ ea = genesisEntry net C := by
    intro a ea hea
    simp only [Node.init] at hea
    split at hea
    · next ha => exact ⟨ha, (Option.some.inj hea).symm⟩
    · cases hea
  constructor
  · intro a ea hea
    obtain ⟨rfl, rfl⟩ := hentry a ea hea
    exact ⟨rfl, [], rfl⟩
  · intro a ea hea b q hq
    obtain ⟨rfl, rfl⟩ := hentry a ea hea
    rcases List.suffix_cons_iff.1 hq with heq | hq
    · cases heq
      exact ⟨_, hea, rfl⟩
    · cases List.suffix_nil.1 hq

theorem Node.Closed.path_suffix (hc : n.Closed) (he : n.index hash = some e) {a : Uint256} {ea : BlockEntry}
    (ha : a ∈ e.path) (hea : n.index a = some ea) : ea.path <:+ e.path := by
  obtain ⟨l, q, hsplit⟩ := List.append_of_mem ha
  have hq : (a :: q) <:+ e.path := ⟨l, hsplit.symm⟩
  obtain ⟨ea', hea', hpath⟩ := hc.ancestor hash e he a q hq
  rw [hea] at hea'
  cases hea'
  exact hpath ▸ hq

end Closed

/-! ## What a round of activation changes -/

/-- The entries keep their blocks, and candidates are only taken away. -/
structure Activated (n n' : Node) : Prop where
  index : Preserves nothing n n'
  candidates : n'.candidates ⊆ n.candidates

/-- What a round does before a block is connected: candidates are only taken away, and nothing else changes that matters
for a connection. -/
structure Selected (n n' : Node) : Prop where
  keeps : Keeps nothing n n'
  candidates : n'.candidates ⊆ n.candidates

section Activated

variable {E : Env} {n n1 n' : Node} {hash : Uint256} {e pindexNew : BlockEntry} {pblock : Option CBlock}
  {best : Option (Uint256 × BlockEntry)} {b : Uint256 × BlockEntry} {block : CBlock}

theorem Activated.refl (n : Node) : Activated n n := ⟨.refl n, List.Subset.refl _⟩

theorem Activated.trans (h1 : Activated n n1) (h2 : Activated n1 n') : Activated n n' :=
  ⟨h1.index.trans h2.index, List.Subset.trans h2.candidates h1.candidates⟩

theorem Selected.activated (h : Selected n n') : Activated n n' := ⟨h.keeps.preserves, h.candidates⟩

theorem Selected.refl (n : Node) : Selected n n := ⟨.refl n, List.Subset.refl _⟩

theorem Selected.trans (h1 : Selected n n1) (h2 : Selected n1 n') : Selected n n' :=
  ⟨h1.keeps.trans h2.keeps, List.Subset.trans h2.candidates h1.candidates⟩

theorem Node.erase_selected (n : Node) (hash : Uint256) : Selected n { n with candidates := n.candidates.erase hash } :=
  ⟨.of_index rfl rfl rfl, List.erase_subset⟩

theorem Node.setFailed_selected (n : Node) (hash : Uint256) (failedValid failedChild : BlockEntry → Bool) :
    Selected n (n.modify hash fun e => { e with failedValid := failedValid e, failedChild := failedChild e }) :=
  ⟨n.modify_setFailed_keeps hash failedValid failedChild, (n.modify_frame hash _).2.1 ▸ List.Subset.refl _⟩

theorem eraseCandidates_selected (pindexTest : BlockEntry) (path : BlockPath) (n : Node) :
    Selected n (eraseCandidates pindexTest path n) := by
  induction path generalizing n with
  | nil => exact .refl n
  | cons hash pprev ih =>
    unfold eraseCandidates
    split
    · exact n.erase_selected hash
    · dsimp only
      refine Selected.trans ?_ ((Node.erase_selected _ hash).trans (ih _))
      split
      · exact n.setFailed_selected hash (·.failedValid) fun _ => true
      · exact ⟨.of_index rfl rfl rfl, List.Subset.refl _⟩

theorem Node.betterCandidate_cases     (h : n.betterCandidate best hash = some b) : best = some b ∨
    (b.1 = hash ∧ n.index hash = some b.2) := by
  unfold Node.betterCandidate at h
  split at h
  · exact .inl h
  · next e he =>
    cases h
    exact .inr ⟨rfl, he⟩
  · next e b0 he =>
    split at h
    · cases h
      exact .inr ⟨rfl, he⟩
    · exact .inl h

theorem Node.foldl_betterCandidate {l : List Uint256}
    (h : l.foldl n.betterCandidate best = some b) :
    best = some b ∨ (b.1 ∈ l ∧ n.index b.1 = some b.2) := by
  induction l generalizing best with
  | nil => exact .inl h
  | cons a l ih =>
    rcases ih h with h | ⟨hmem, he⟩
    · rcases Node.betterCandidate_cases h with h | ⟨rfl, he⟩
      · exact .inl h
      · exact .inr ⟨List.mem_cons_self, he⟩
    · exact .inr ⟨List.mem_cons_of_mem a hmem, he⟩

theorem Node.bestCandidate_mem (h : n.bestCandidate = some (hash, e)) :
    hash ∈ n.candidates ∧ n.index hash = some e := by
  rcases Node.foldl_betterCandidate h with h | h
  · cases h
  · exact h

theorem findMostWorkChain_selected (fuel : Nat) (n : Node) :
    Selected n (findMostWorkChain fuel n).1 ∧
      ∀ hash, (findMostWorkChain fuel n).2 = some hash → hash ∈ n.candidates := by
  induction fuel generalizing n with
  | zero => exact ⟨.refl n, fun hash h => by cases h⟩
  | succ fuel ih =>
    unfold findMostWorkChain
    split
    · exact ⟨.refl n, fun hash h => by cases h⟩
    · next hash pindexNew hbest =>
      split
      · refine ⟨.refl n, fun hash' h => ?_⟩
        cases h
        exact (Node.bestCandidate_mem hbest).1
      · next pindexTest _ =>
        have herase := eraseCandidates_selected pindexTest pindexNew.path n
        obtain ⟨hselected, hmem⟩ := ih (eraseCandidates pindexTest pindexNew.path n)
        exact ⟨herase.trans hselected, fun hash' h => herase.candidates (hmem hash' h)⟩

theorem pruneBlockIndexCandidates_activated (n : Node) : Activated n (pruneBlockIndexCandidates n) :=
  ⟨.of_index rfl, List.filter_subset_self _⟩

/-- No candidate has less work than the tip. -/
def Node.Pruned (n : Node) : Prop :=
  ∀ hash ∈ n.candidates, ∀ e tip, n.index hash = some e → n.tip = some tip → tip.nChainWork.toNat ≤ e.nChainWork.toNat

theorem pruneBlockIndexCandidates_pruned (n : Node) : (pruneBlockIndexCandidates n).Pruned := by
  intro hash hmem e tip he htip
  have hbetter := (List.mem_filter.1 hmem).2
  rw [show n.index hash = some e from he, show n.tip = some tip from htip] at hbetter
  simp only [BlockEntry.worse, Bool.not_eq_true', Bool.or_eq_false_iff, decide_eq_false_iff_not] at hbetter
  exact Nat.not_lt.1 hbetter.1

theorem Node.Pruned.activated (h : n.Pruned) (hact : Activated n n') (hchain : n'.chain = n.chain) : n'.Pruned := by
  intro hash hmem e' tip' he' htip'
  obtain ⟨e, he, hev⟩ := hact.index.source he'
  rw [Node.tip, hchain] at htip'
  obtain ⟨top, htop, htip'⟩ := Option.bind_eq_some_iff.1 htip'
  obtain ⟨tip, htip, hevt⟩ := hact.index.source htip'
  rw [hev.work, hevt.work]
  exact h hash (hact.candidates hmem) e tip he (by rw [Node.tip, htop]; exact htip)

theorem disconnectTip_eq_some (h : disconnectTip E n = some n') :
    n'.index = n.index ∧ n'.candidates = n.candidates ∧ n'.chain = n.chain.tail := by
  unfold disconnectTip at h
  split at h
  · next hash hashPrev rest hchain =>
    obtain ⟨pindexDelete, -, h⟩ := Option.bind_eq_some_iff.1 h
    obtain ⟨block, -, h⟩ := Option.bind_eq_some_iff.1 h
    obtain ⟨blockUndo, -, h⟩ := Option.bind_eq_some_iff.1 h
    split at h
    · cases h
      exact ⟨rfl, rfl, by rw [hchain]; rfl⟩
    · cases h
  · cases h

/-- **Disconnecting blocks stops at the fork**: what is taken off the chain stood above it. -/
theorem disconnectTips_spec {pindexFork : BlockPath} (fuel : Nat) (n : Node) (hfork : pindexFork <:+ n.chain) :
    Activated n (disconnectTips E pindexFork fuel n).1 ∧
      n.chain = (disconnectTips E pindexFork fuel n).2.1 ++ (disconnectTips E pindexFork fuel n).1.chain ∧
      pindexFork <:+ (disconnectTips E pindexFork fuel n).1.chain := by
  induction fuel generalizing n with
  | zero => exact ⟨.refl n, rfl, hfork⟩
  | succ fuel ih =>
    unfold disconnectTips
    split
    · exact ⟨.refl n, rfl, hfork⟩
    · next hash rest hchain =>
      split
      · exact ⟨.refl n, rfl, hfork⟩
      · next hhead =>
        split
        · exact ⟨.refl n, rfl, hfork⟩
        · next n1 htip =>
          obtain ⟨hindex, hcand, htail⟩ := disconnectTip_eq_some htip
          rw [hchain, List.tail_cons] at htail
          -- the fork is not the tip, so it is still on the chain without the tip
          have hfork1 : pindexFork <:+ n1.chain := by
            rw [htail]
            rw [hchain] at hfork
            rcases List.suffix_cons_iff.1 hfork with rfl | h
            · exact absurd rfl hhead
            · exact h
          obtain ⟨hact, happ, hsuffix⟩ := ih n1 hfork1
          refine ⟨Activated.trans ⟨.of_index hindex, hcand ▸ List.Subset.refl _⟩ hact, ?_, hsuffix⟩
          rw [hchain, List.cons_append, ← happ, htail]

theorem invalidBlockFound_selected (n : Node) (hash : Uint256) (result : BlockValidationResult) :
    Selected n (invalidBlockFound n hash result) := by
  unfold invalidBlockFound
  split
  · exact .refl n
  · refine (n.setFailed_selected hash (fun _ => true) (·.failedChild)).trans ⟨.of_index rfl rfl rfl, ?_⟩
    exact List.erase_subset

theorem setTip_activated (n : Node) (pindexNew : BlockEntry) (r : ConnectResult) :
    Activated n (setTip E n pindexNew r) ∧ (setTip E n pindexNew r).chain = pindexNew.pindex.hash :: n.chain := by
  have hmod : ∀ f : BlockEntry → BlockEntry, (∀ e, Evolves (nothing pindexNew.pindex.hash) e (f e)) →
      Activated n { n.modify pindexNew.pindex.hash f with
        chain := pindexNew.pindex.hash :: n.chain, view := r.view } := by
    intro f hf
    have hindex : Preserves nothing n (n.modify pindexNew.pindex.hash f) := Node.modify_preserves hf
    exact ⟨hindex.trans (.of_index rfl), (n.modify_frame pindexNew.pindex.hash f).2.1 ▸ List.Subset.refl _⟩
  refine ⟨hmod _ fun e => ?_, rfl⟩
  split
  · exact .refl _ e
  · refine Evolves.raiseValidity ?_ _
    exact ⟨rfl, rfl, rfl, rfl, fun _ h => .inl h⟩

/-- What `ConnectTip` does when it succeeds. -/
structure TipConnected (E : Env) (n : Node) (hash : Uint256) (pblock : Option CBlock) (n' : Node) (block : CBlock) :
    Prop where
  entry : ∃ pindexNew r, n.index hash = some pindexNew ∧ pindexNew.path.tail = n.chain ∧
    (pblock = some block ∨ readBlockFromDisk E pindexNew = some block) ∧
    connectBlock E block pindexNew.pindex (n.indexChain n.chain) n.view false = .ok r ∧
    n' = setTip E n pindexNew r

theorem connectTip_connected (h : connectTip E n hash pblock = (n', .connected block)) :
    TipConnected E n hash pblock n' block := by
  unfold connectTip at h
  split at h
  · cases h
  · next pindexNew hentry =>
    split at h
    · cases h
    · next hpath =>
      split at h
      · cases h
      · next block' hblock =>
        have hsource : pblock = some block' ∨ readBlockFromDisk E pindexNew = some block' := by
          cases pblock with
          | some b => exact .inl hblock
          | none => exact .inr hblock
        split at h
        · next r hconnect =>
          cases h
          exact ⟨pindexNew, r, hentry, not_not.1 hpath, hsource, hconnect, rfl⟩
        · cases h
        · cases h

theorem connectTip_failed {result : TipResult} (h : connectTip E n hash pblock = (n', result))
    (hresult : ∀ block, result ≠ .connected block) : Selected n n' := by
  unfold connectTip at h
  split at h
  · cases h
    exact .refl _
  · split at h
    · cases h
      exact .refl _
    · split at h
      · cases h
        exact .refl _
      · split at h
        · cases h
          exact absurd rfl (hresult _)
        · cases h
          exact invalidBlockFound_selected n hash _
        · cases h
          exact .refl _

theorem TipConnected.activated (h : TipConnected E n hash pblock n' block) (hc : n.Closed) :
    Activated n n' ∧ ∃ e, n.index hash = some e ∧ n'.chain = e.path := by
  obtain ⟨pindexNew, r, hentry, hpath, -, -, rfl⟩ := h.entry
  obtain ⟨hact, hchain⟩ := setTip_activated (E := E) n pindexNew r
  obtain ⟨hhash, rest, hrest⟩ := hc.own hash pindexNew hentry
  refine ⟨hact, pindexNew, hentry, ?_⟩
  rw [hchain, hhash, ← hpath, hrest]
  rfl

/-- A block of a `ConnectTrace`: it passed `ConnectBlock` for the entry of its hash, and it is the caller's block or the
one stored for the entry. -/
structure Traced (E : Env) (n : Node) (pblock : Option CBlock) (hash : Uint256) (block : CBlock) : Prop where
  entry : ∃ e, n.index hash = some e ∧ block.getHash E.crypto = hash ∧
    (pblock = some block ∨ ∃ stored, e.data = some stored ∧ block.isProofOfStake = stored.isProofOfStake)

theorem readBlockFromDisk_eq_some (h : readBlockFromDisk E e = some block) :
    ∃ stored, e.data = some stored ∧ block.isProofOfStake = stored.isProofOfStake := by
  obtain ⟨stored, hdata, h⟩ := Option.bind_eq_some_iff.1 h
  refine ⟨stored, hdata, ?_⟩
  dsimp only at h
  split at h
  · cases h
  · split at h
    · cases h
    · split at h
      · cases h
      · cases h
        exact stored.isProofOfStake_reread

theorem Traced.source (hact : Activated n n') (h : Traced E n' pblock hash block) :
    Traced E n pblock hash block := by
  obtain ⟨e', he', hhash, hblock⟩ := h.entry
  obtain ⟨e, he, hev⟩ := hact.index.source he'
  refine ⟨e, he, hhash, hblock.imp id ?_⟩
  rintro ⟨stored, hdata, hkind⟩
  exact ⟨stored, (hev.data stored hdata).resolve_right id, hkind⟩

theorem TipConnected.traced (h : TipConnected E n hash pblock n' block) (hc : n.Closed) :
    Traced E n pblock hash block := by
  obtain ⟨pindexNew, r, hentry, -, hblock, hconnect, -⟩ := h.entry
  have hhash := connectBlock_hash hconnect
  rw [(hc.own hash pindexNew hentry).1] at hhash
  exact ⟨pindexNew, hentry, hhash.symm, hblock.imp id readBlockFromDisk_eq_some⟩

theorem Traced.mono {pblock' : Option CBlock} (h : Traced E n pblock hash block)
    (hsub : ∀ b, pblock = some b → pblock' = some b) : Traced E n pblock' hash block := by
  obtain ⟨e, he, hhash, hblock⟩ := h.entry
  exact ⟨e, he, hhash, hblock.imp (hsub block) id⟩

/-- **Connecting blocks stays on the path of the candidate**, and takes away the candidates below the tip. -/
theorem connectTips_spec {hashTarget : Uint256} {path : BlockPath} (hashMostWork : Uint256) (pblock : Option CBlock)
    (pindexOldTip : Option BlockEntry) (toConnect : List Uint256) (n : Node) (hc : n.Closed)
    (htarget : ∃ e, n.index hashTarget = some e ∧ e.path = path) (hmem : ∀ hash ∈ toConnect, hash ∈ path) :
    Activated n (connectTips E hashMostWork pblock pindexOldTip toConnect n).1 ∧
      ((connectTips E hashMostWork pblock pindexOldTip toConnect n).1.chain = n.chain ∨
        (connectTips E hashMostWork pblock pindexOldTip toConnect n).1.chain <:+ path ∧
          (connectTips E hashMostWork pblock pindexOldTip toConnect n).1.Pruned) ∧
      ∀ t ∈ (connectTips E hashMostWork pblock pindexOldTip toConnect n).2.1, Traced E n pblock t.1 t.2 := by
  induction toConnect generalizing n with
  | nil => exact ⟨.refl n, .inl rfl, by simp [connectTips]⟩
  | cons hash rest ih =>
    have hsub : ∀ b, (if hash = hashMostWork then pblock else none) = some b → pblock = some b := by
      intro b hb
      split at hb
      · exact hb
      · cases hb
    obtain ⟨et, het, hpath⟩ := htarget
    unfold connectTips
    split
    · next n1 heq =>
      have hselected := connectTip_failed heq (by simp)
      exact ⟨hselected.activated, .inl hselected.keeps.chain, by simp⟩
    · next n1 heq =>
      have hselected := connectTip_failed heq (by simp)
      exact ⟨hselected.activated, .inl hselected.keeps.chain, by simp⟩
    · next n1 block heq =>
      have hconn := connectTip_connected heq
      have htraced : Traced E n pblock hash block := (hconn.traced hc).mono hsub
      obtain ⟨hact, e, he, hchain⟩ := hconn.activated hc
      have hact := hact.trans (pruneBlockIndexCandidates_activated n1)
      have hsuffix : (pruneBlockIndexCandidates n1).chain <:+ path := by
        show n1.chain <:+ path
        rw [hchain, ← hpath]
        exact hc.path_suffix het (hpath ▸ hmem hash List.mem_cons_self) he
      have hpruned := pruneBlockIndexCandidates_pruned n1
      generalize pruneBlockIndexCandidates n1 = n2 at hact hsuffix hpruned
      dsimp only
      split
      · exact ⟨hact, .inr ⟨hsuffix, hpruned⟩, by simpa using htraced⟩
      · split
        · exact ⟨hact, .inr ⟨hsuffix, hpruned⟩, by simpa using htraced⟩
        · obtain ⟨et2, het2, hev⟩ := hact.index.kept hashTarget et het
          obtain ⟨hact2, hchain2, htrace2⟩ := ih n2 (hc.preserves hact.index) ⟨et2, het2, hev.path.trans hpath⟩
            fun h hh => hmem h (List.mem_cons_of_mem hash hh)
          refine ⟨hact.trans hact2, .inr ?_, ?_⟩
          · rcases hchain2 with h | h
            · exact ⟨h ▸ hsuffix, hpruned.activated hact2 h⟩
            · exact h
          · intro t ht
            rcases List.mem_cons.1 ht with rfl | ht
            · exact htraced
            · exact (htrace2 t ht).source hact

/-- What a round of activation towards the block `hashTarget` does. -/
structure RoundSpec (E : Env) (n : Node) (path : BlockPath) (pblock : Option CBlock) (n' : Node) (t : ActivationTrace) :
    Prop where
  activated : Activated n n'
  chain : n'.chain <:+ n.chain ∨ n'.chain <:+ path ∧ n'.Pruned
  disconnected : t.disconnected.length ≤ Fork.depth n.chain path
  connected : ∀ c ∈ t.connected, Traced E n pblock c.1 c.2

theorem activateBestChainStep_spec (hc : n.Closed) (he : n.index hash = some e) (pblock : Option CBlock) :
    RoundSpec E n e.path pblock (activateBestChainStep E n e pblock).1 (activateBestChainStep E n e pblock).2.1 := by
  have hfork := Fork.fork_suffix_left n.chain e.path
  obtain ⟨hact, happ, hsuffix⟩ := disconnectTips_spec (E := E) n.chain.length n hfork
  have hdepth : (disconnectTips E (Fork.fork n.chain e.path) n.chain.length n).2.1.length ≤
      Fork.depth n.chain e.path := by
    have hlen := congrArg List.length happ
    rw [List.length_append] at hlen
    have := hsuffix.length_le
    unfold Fork.depth
    omega
  have hchain : (disconnectTips E (Fork.fork n.chain e.path) n.chain.length n).1.chain <:+ n.chain := ⟨_, happ.symm⟩
  simp only [activateBestChainStep]
  generalize disconnectTips E (Fork.fork n.chain e.path) n.chain.length n = d at hact hchain hdepth
  obtain ⟨n1, disconnected, done⟩ := d
  cases done with
  | false => exact ⟨hact, .inl hchain, hdepth, by simp⟩
  | true =>
    obtain ⟨e1, he1, hev⟩ := hact.index.kept hash e he
    obtain ⟨hact2, hchain2, htrace⟩ := connectTips_spec (E := E) e.pindex.hash pblock n.tip
      (e.path.take (e.path.length - (Fork.fork n.chain e.path).length)).reverse n1 (hc.preserves hact.index)
      ⟨e1, he1, hev.path⟩ fun h hh => List.mem_of_mem_take (List.mem_reverse.1 hh)
    refine ⟨hact.trans hact2, ?_, hdepth, fun c hcc => (htrace c hcc).source hact⟩
    rcases hchain2 with h | h
    · exact .inl (h ▸ hchain)
    · exact .inr h

/-- The blocks that a round may go for: the candidates, and the one that `ActivateBestChain` is on the way to. -/
def Node.targets (n : Node) : List Uint256 :=
  n.candidates ++ n.mostWork.toList

theorem Node.candidates_subset_targets (n : Node) : n.candidates ⊆ n.targets :=
  List.subset_append_left _ _

theorem chooseMostWork_spec (n : Node) (first : Bool) :
    Activated n (chooseMostWork n first).1 ∧ (chooseMostWork n first).1.chain = n.chain ∧
      ∀ hash, (chooseMostWork n first).2 = some hash → hash ∈ n.targets := by
  unfold chooseMostWork
  split
  · next hash hmost =>
    refine ⟨.refl n, rfl, fun hash' hfound => ?_⟩
    cases hfound
    simp [Node.targets, hmost]
  · obtain ⟨hselected, hmem⟩ := findMostWorkChain_selected n.candidates.length n
    exact ⟨hselected.activated, hselected.keeps.chain, fun hash hfound => n.candidates_subset_targets (hmem hash hfound)⟩

/-- **A round of activation**: nothing happens to the chain, or it moves towards a target. -/
theorem activateBestChain_spec (hc : n.Closed) (first : Bool) (pblock : Option CBlock) :
    Preserves nothing n (activateBestChain E n first pblock).1 ∧
      (activateBestChain E n first pblock).1.targets ⊆ n.targets ∧
      (((activateBestChain E n first pblock).1.chain = n.chain ∧ (activateBestChain E n first pblock).2 = {}) ∨
        ∃ hash ∈ n.targets, ∃ e, n.index hash = some e ∧
          (∀ h ∈ (activateBestChain E n first pblock).1.mostWork, h = hash) ∧
          RoundSpec E n e.path pblock (activateBestChain E n first pblock).1 (activateBestChain E n first pblock).2) := by
  obtain ⟨hact, hchain, hmem⟩ := chooseMostWork_spec n first
  simp only [activateBestChain]
  generalize chooseMostWork n first = found at hact hchain hmem
  have hidle : ({ found.1 with mostWork := none } : Node).targets ⊆ n.targets := by
    simpa [Node.targets] using List.Subset.trans hact.candidates n.candidates_subset_targets
  split
  · exact ⟨hact.index.trans (.of_index rfl), hidle, .inl ⟨hchain, rfl⟩⟩
  · next pindexMostWork hentry =>
    obtain ⟨hash, hhash, hentry⟩ := Option.bind_eq_some_iff.1 hentry
    split
    · exact ⟨hact.index.trans (.of_index rfl), hidle, .inl ⟨hchain, rfl⟩⟩
    · have hround := activateBestChainStep_spec (E := E) (hc.preserves hact.index) hentry
        (pblock.filter fun block => block.getHash E.crypto == pindexMostWork.pindex.hash)
      generalize activateBestChainStep E found.1 pindexMostWork _ = r at hround
      obtain ⟨e, he, hev⟩ := hact.index.source hentry
      refine ⟨(hact.trans hround.activated).index.trans (.of_index rfl), ?_,
        .inr ⟨hash, hmem hash hhash, e, he, fun h hh => ?_, ?_⟩⟩
      · refine List.append_subset.2 ⟨?_, ?_⟩
        · exact List.Subset.trans (hact.trans hround.activated).candidates n.candidates_subset_targets
        · intro h hh
          dsimp only at hh
          split at hh
          · exact hmem h (Option.mem_toList.1 hh)
          · cases hh
      · dsimp only at hh
        split at hh
        · exact Option.some.inj (hh.symm.trans hhash)
        · cases hh
      · obtain ⟨hact2, hchain2, hdepth, htrace⟩ := hround
        rw [hchain, hev.path] at hchain2 hdepth
        refine ⟨⟨(hact.trans hact2).index.trans (.of_index rfl), (hact.trans hact2).candidates⟩, hchain2, hdepth, ?_⟩
        intro c hcc
        exact ((htrace c hcc).source hact).mono fun b hb => (Option.filter_eq_some_iff.1 hb).1

end Activated

/-! ## The block index along a run -/

structure Node.Rooted (net : Network) (C : Crypto) (n : Node) : Prop extends n.Closed where
  genesis : n.index (net.hashGenesisBlock C) ≠ none

section Rooted

variable {S : Uint256 → CBlock → Prop} {net : Network} {C : Crypto} {E : Env} {n n' : Node}

theorem Node.Rooted.preserves (hr : n.Rooted net C) (h : Preserves S n n') : n'.Rooted net C := by
  refine ⟨hr.toClosed.preserves h, ?_⟩
  obtain ⟨e, he⟩ := Option.ne_none_iff_exists'.1 hr.genesis
  obtain ⟨e', he', -⟩ := h.kept _ e he
  simp [he']

theorem Node.Rooted.header {header : CBlockHeader} {min_pow_checked fOldClient : Bool}
    (hr : n.Rooted E.net E.crypto) :
    (acceptBlockHeader E n header min_pow_checked fOldClient).1.Rooted E.net E.crypto := by
  rcases acceptBlockHeader_cases hr.genesis rfl with ⟨hpres, -, -⟩ | ⟨pindexPrev, fSet, hadd⟩
  · exact hr.preserves hpres
  · refine ⟨hr.toClosed.headerAdded hadd, ?_⟩
    rw [hadd.result]
    simp only [Node.setEntry]
    split
    · simp
    · exact hr.genesis

/-- **Every step keeps the block index closed.** -/
theorem Node.Rooted.step (hr : n.Rooted E.net E.crypto) (event : Event) : (n.step E event).1.Rooted E.net E.crypto := by
  cases event with
  | header header min_pow_checked fOldClient => exact hr.header
  | block block force_processing min_pow_checked =>
    show (processNewBlock E n block force_processing min_pow_checked).1.Rooted E.net E.crypto
    generalize hn' : (processNewBlock E n block force_processing min_pow_checked).1 = n'
    obtain ⟨n1, hstage, hkeeps, -⟩ := processNewBlock_cases hn'
    rcases hstage with rfl | rfl
    · exact hr.preserves hkeeps.preserves
    · exact hr.header.preserves hkeeps.preserves
  | activate first pblock => exact hr.preserves (activateBestChain_spec hr.toClosed first pblock).1

theorem Node.init_rooted (net : Network) (C : Crypto) : (Node.init net C).Rooted net C :=
  ⟨Node.init_closed net C, by simp [Node.init]⟩

end Rooted

end CodexaCoin
