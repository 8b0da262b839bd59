import CodexaCoin.Node.Activate

/-!
# How deep a reorganization goes

`ContextualCheckBlockHeader` compares the height of a header with the height of the tip of that moment, and nothing
looks at the depth of a fork again: `AcceptBlock` completes branches whose headers are known, and
`ActivateBestChainStep` disconnects as many blocks as lie above the fork.
-/

namespace CodexaCoin

open Check Consensus CoinMap IndexChain

/-! ## The branches that a block completes -/

/-- The blocks of a queue and the blocks that wait for them in `m_blocks_unlinked`. -/
def completedBlocks : (fuel : Nat) → (queue : List Uint256) → (unlinked : List (Uint256 × Uint256)) → List Uint256
  | 0, _, _ => []
  | _, [], _ => []
  | fuel + 1, hash :: queue, unlinked =>
    hash :: completedBlocks fuel (queue ++ (unlinked.filter fun link => link.1 == hash).map (·.2))
      (unlinked.filter fun link => link.1 != hash)

namespace Node

variable (n : Node)

def targetPaths : List BlockPath :=
  n.targets.filterMap fun hash => (n.index hash).map (·.path)

/-- `nChainWork` of a block. -/
def work (hash : Uint256) : Nat := ((n.index hash).map (·.nChainWork.toNat)).getD 0

/-- The entry of a block, where the block of a header may not be in the block index yet. -/
def entryWith (C : Crypto) (header : CBlockHeader) (hash : Uint256) : Option BlockEntry :=
  match n.index hash with
  | some e => some e
  | none =>
    if hash = header.getHash C then (n.index header.hashPrevBlock).map fun e => newEntry C header false (some e) else none

def workWith (C : Crypto) (header : CBlockHeader) (hash : Uint256) : Nat :=
  ((n.entryWith C header hash).map (·.nChainWork.toNat)).getD 0

/-- All ancestors of the block have data, so that `ReceivedBlockTransactions` links it. -/
def connectable (C : Crypto) (header : CBlockHeader) : Bool :=
  match (n.entryWith C header (header.getHash C)).bind fun e => e.path.tail.head? with
  | none => true
  | some hashPrev => (n.index hashPrev).any fun pprev => pprev.nChainTx != 0

def completedPaths (C : Crypto) (header : CBlockHeader) : List BlockPath :=
  (completedBlocks (n.unlinked.length + 1) [header.getHash C] n.unlinked).filterMap fun hash =>
    (n.entryWith C header hash).map (·.path)

end Node

def TurnsWithin (limit : Nat) (work : Uint256 → Nat) (p q : BlockPath) : Prop :=
  Fork.depth p q ≤ limit ∨ q <:+ p ∧ ∀ a ∈ Fork.above p q, work (q.headD 0) < work a

/-- New branches leave the active chain within the limit, and a chain can turn from and to them. -/
def WithinLimit (limit : Nat) (work : Uint256 → Nat) (chain : BlockPath) (targets completed : List BlockPath) : Prop :=
  ∀ p ∈ completed, Fork.depth chain p ≤ limit ∧
    ∀ q ∈ targets ++ completed, TurnsWithin limit work p q ∧ TurnsWithin limit work q p

/-- `nMaxReorganizationDepth` as a number of blocks. -/
def Network.reorganizationLimit (net : Network) : Nat := net.params.nMaxReorganizationDepth.toNat

/-- The depth test at the time when the data of a block arrives and completes branches. -/
def ForksLimited (E : Env) (n : Node) : Event → Prop
  | .block block _ _ =>
    ((n.index (block.getHash E.crypto)).all fun e => e.data.isNone) = true →
      n.connectable E.crypto block.getBlockHeader = true →
      WithinLimit E.net.reorganizationLimit (n.workWith E.crypto block.getBlockHeader) n.chain n.targetPaths
        (n.completedPaths E.crypto block.getBlockHeader)
  | _ => True

section Turns

variable {limit : Nat} {work work' : Uint256 → Nat} {p q c : BlockPath}

theorem TurnsWithin.congr (h : TurnsWithin limit work p q) (hp : ∀ a ∈ p, work' a = work a)
    (hq : ∀ a ∈ q, work' a = work a) (hne : q ≠ []) : TurnsWithin limit work' p q := by
  refine h.imp id fun ⟨hsuffix, hless⟩ => ⟨hsuffix, fun a ha => ?_⟩
  obtain ⟨b, r, rfl⟩ := List.exists_cons_of_ne_nil hne
  rw [List.headD_cons, hq b List.mem_cons_self, hp a (Fork.mem_of_mem_above ha)]
  exact hless a ha

theorem TurnsWithin.depth_le (h : TurnsWithin limit work p q) (hc : c <:+ p)
    (hless : ∀ a ∈ c.head?, q <:+ c → ¬ work (q.headD 0) < work a) : Fork.depth c q ≤ limit := by
  rcases h with h | ⟨hq, hwork⟩
  · exact (Fork.depth_mono hc).trans h
  · rcases Nat.lt_or_ge q.length c.length with hlt | hge
    · obtain ⟨a, r, rfl⟩ := List.exists_cons_of_length_pos (Nat.zero_lt_of_lt hlt)
      have hbelow : q <:+ a :: r := List.suffix_of_suffix_length_le hq hc (Nat.le_of_lt hlt)
      have hrest : q <:+ r := by
        rcases List.suffix_cons_iff.1 hbelow with rfl | hrest
        · exact absurd hlt (Nat.lt_irrefl _)
        · exact hrest
      exact absurd (hwork a (Fork.mem_above hc hrest)) (hless a rfl hbelow)
    · rw [Fork.depth_eq_zero (List.suffix_of_suffix_length_le hc hq hge)]
      exact Nat.zero_le _

end Turns

section Completed

variable {E : Env} {n n' : Node} {hash : Uint256} {header : CBlockHeader} {block : CBlock}
  {min_pow_checked fOldClient : Bool} {e' : BlockEntry} {force_processing : Bool}

theorem Node.modify_unlinked (n : Node) (hash : Uint256) (f : BlockEntry → BlockEntry) :
    (n.modify hash f).unlinked = n.unlinked := by
  unfold Node.modify
  split <;> rfl

theorem mem_targetPaths {p : BlockPath} :
    p ∈ n.targetPaths ↔ ∃ hash ∈ n.targets, ∃ e, n.index hash = some e ∧ e.path = p := by
  simp [Node.targetPaths]

theorem tryAddBlockIndexCandidate_candidates {h : Uint256}
    (hmem : h ∈ (tryAddBlockIndexCandidate n hash).candidates) :
    h ∈ n.candidates ∨ (h = hash ∧ n.index hash ≠ none) := by
  unfold tryAddBlockIndexCandidate at hmem
  split at hmem
  · exact .inl hmem
  · next e he =>
    split at hmem
    · exact .inl hmem
    · rcases List.mem_insert_iff.1 hmem with rfl | hmem
      · exact .inr ⟨rfl, by simp [he]⟩
      · exact .inl hmem

theorem tryAddBlockIndexCandidate_unlinked (n : Node) (hash : Uint256) :
    (tryAddBlockIndexCandidate n hash).unlinked = n.unlinked := by
  unfold tryAddBlockIndexCandidate
  split
  · rfl
  · split <;> rfl

theorem linkBlocks_candidates (fuel : Nat) (queue : List Uint256) (n : Node) {h : Uint256}
    (hmem : h ∈ (linkBlocks fuel queue n).candidates) :
    h ∈ n.candidates ∨ (h ∈ completedBlocks fuel queue n.unlinked ∧ n.index h ≠ none) := by
  induction fuel generalizing queue n with
  | zero => exact .inl hmem
  | succ fuel ih =>
    cases queue with
    | nil => exact .inl hmem
    | cons hash queue =>
      have hcand : (assignSequence n hash).candidates = n.candidates := (n.modify_frame hash _).2.1
      have hlink : (assignSequence n hash).unlinked = n.unlinked := n.modify_unlinked hash _
      have hkeeps := (assignSequence_keeps n hash).1
      have htry := @tryAddBlockIndexCandidate_candidates (assignSequence n hash) hash
      have hsame := tryAddBlockIndexCandidate_unlinked (assignSequence n hash) hash
      have hindex := (tryAddBlockIndexCandidate_sameChain (assignSequence n hash) hash).2.1
      rw [linkBlocks] at hmem
      generalize tryAddBlockIndexCandidate (assignSequence n hash) hash = n2 at *
      have hknown : ∀ a, (assignSequence n hash).index a ≠ none → n.index a ≠ none :=
        fun a ha hnone => ha (hkeeps.absent a hnone)
      rw [completedBlocks, ← hlink, ← hsame]
      rcases ih _ _ hmem with h2 | ⟨h2, hne⟩
      · rcases htry h2 with h1 | ⟨rfl, hne⟩
        · exact .inl (hcand ▸ h1)
        · exact .inr ⟨List.mem_cons_self, hknown _ hne⟩
      · exact .inr ⟨List.mem_cons_of_mem hash h2, hknown _ (hindex ▸ hne)⟩

/-- The parent of a block is linked, or it has none. -/
def Node.linked (n : Node) (hash : Uint256) : Bool :=
  match (n.index hash).bind fun e => e.path.tail.head? with
  | none => true
  | some hashPrev => (n.index hashPrev).any fun pprev => pprev.nChainTx != 0

theorem BlockEntry.setData_nChainTx (block : CBlock) (e : BlockEntry) : (e.setData block).nChainTx = 0 := by
  unfold BlockEntry.setData BlockEntry.raiseValidity
  split
  · rfl
  · split <;> rfl

theorem linked_setData (h : (n.modify hash (.setData block)).linked hash = true) : n.linked hash = true := by
  have hset : Keeps (fun _ _ => True) n (n.modify hash (.setData block)) :=
    Node.modify_keeps hash fun e => .setData e trivial
  unfold Node.linked at h ⊢
  cases hn : n.index hash with
  | none => rfl
  | some e =>
    obtain ⟨e', he', hkept⟩ := hset.kept hash e hn
    rw [he', Option.bind_some, hkept.path] at h
    rw [Option.bind_some]
    cases hprev : e.path.tail.head? with
    | none => rfl
    | some hashPrev =>
      rw [hprev] at h
      dsimp only at h ⊢
      rw [Node.index_modify] at h
      split at h
      · -- the data of a block is stored with a count of zero
        next heq =>
        rw [heq, hn, Option.map_some, Option.any_some, BlockEntry.setData_nChainTx] at h
        cases h
      · exact h

theorem receivedBlockTransactions_candidates {h : Uint256}
    (hmem : h ∈ (receivedBlockTransactions n block hash).candidates) :
    h ∈ n.candidates ∨ (h ∈ completedBlocks (n.unlinked.length + 1) [hash] n.unlinked ∧
      (n.modify hash (.setData block)).index h ≠ none ∧ n.linked hash = true) := by
  have hcand := (n.modify_frame hash (.setData block)).2.1
  have hlink := n.modify_unlinked hash (.setData block)
  have hlinked := @linked_setData n hash block
  simp only [receivedBlockTransactions] at hmem
  generalize n.modify hash (.setData block) = n1 at *
  rw [← hcand, ← hlink]
  have hdone : n1.linked hash = true → h ∈ (linkBlocks (n1.unlinked.length + 1) [hash] n1).candidates →
      h ∈ n1.candidates ∨ (h ∈ completedBlocks (n1.unlinked.length + 1) [hash] n1.unlinked ∧ n1.index h ≠ none ∧
        n.linked hash = true) := fun hl hm =>
    (linkBlocks_candidates _ _ _ hm).imp id fun hc => ⟨hc.1, hc.2, hlinked hl⟩
  unfold Node.linked at hdone
  split at hmem
  · next hnone => exact hdone (by rw [hnone]) hmem
  · next hashPrev hsome =>
    split at hmem
    · exact .inl hmem
    · next pprev hprev =>
      split at hmem
      · next hcount => exact hdone (by rw [hsome]; simpa [hprev] using hcount) hmem
      · split at hmem
        · exact .inl hmem
        · exact .inl hmem

theorem acceptBlockData_candidates {fRequested : Bool} {h : Uint256}
    (hmem : h ∈ (acceptBlockData E n block fRequested hash).1.candidates) :
    h ∈ n.candidates ∨ (h ∈ completedBlocks (n.unlinked.length + 1) [hash] n.unlinked ∧ n.index h ≠ none ∧
      (∃ e, n.index hash = some e ∧ e.data = none) ∧ n.linked hash = true) := by
  unfold acceptBlockData at hmem
  split at hmem
  · exact .inl hmem
  · next pindex hentry =>
    split at hmem
    · exact .inl hmem
    · next hdata =>
      split at hmem
      · exact .inl hmem
      · split at hmem
        · rcases receivedBlockTransactions_candidates hmem with h' | ⟨h', hne, hlinked⟩
          · exact .inl h'
          · refine .inr ⟨h', fun hnone => hne ?_, ⟨pindex, hentry, by simpa using hdata⟩, hlinked⟩
            have hset : Keeps (fun _ _ => True) n (n.modify hash (.setData block)) :=
              Node.modify_keeps hash fun e => .setData e trivial
            exact hset.absent h hnone
        · dsimp only at hmem
          split at hmem
          · exact .inl hmem
          · exact .inl ((n.modify_frame hash _).2.1 ▸ hmem)
        · exact .inl hmem

theorem acceptBlockHeader_known {e : BlockEntry} (h : n.index (header.getHash E.crypto) = some e) :
    (acceptBlockHeader E n header min_pow_checked fOldClient).1 = n := by
  simp only [acceptBlockHeader]
  split
  · unfold addHeader
    split
    · rw [addToBlockIndex, h]
    · rfl
  · rw [h]

theorem markFailedChildren_unlinked (failedit : Uint256) (path : BlockPath) (n : Node) :
    (markFailedChildren failedit path n).unlinked = n.unlinked := by
  induction path generalizing n with
  | nil => rfl
  | cons hash pprev ih =>
    unfold markFailedChildren
    split
    · rfl
    · rw [ih, n.modify_unlinked]

theorem acceptBlockHeader_unlinked :
    (acceptBlockHeader E n header min_pow_checked fOldClient).1.unlinked = n.unlinked := by
  have hadd : ∀ fSet, (addHeader E n header min_pow_checked fSet).1.unlinked = n.unlinked := by
    intro fSet
    unfold addHeader addToBlockIndex
    split
    · split <;> rfl
    · rfl
  simp only [acceptBlockHeader]
  split
  · exact hadd _
  · split
    · rfl
    · split
      · rfl
      · split
        · exact markFailedChildren_unlinked _ _ n
        · exact hadd _

/-- The known blocks keep their places and their work. -/
def SamePaths (n n' : Node) : Prop :=
  ∀ hash e, n.index hash = some e → ∃ e', n'.index hash = some e' ∧ e'.path = e.path ∧ e'.nChainWork = e.nChainWork

theorem Preserves.samePaths {S : Uint256 → CBlock → Prop} (h : Preserves S n n') : SamePaths n n' := by
  intro hash e he
  obtain ⟨e', he', hev⟩ := h.kept hash e he
  exact ⟨e', he', hev.path, hev.work⟩

theorem SamePaths.trans {n1 : Node} (h1 : SamePaths n n1) (h2 : SamePaths n1 n') : SamePaths n n' := by
  intro hash e he
  obtain ⟨e1, he1, hpath1, hwork1⟩ := h1 hash e he
  obtain ⟨e', he', hpath, hwork⟩ := h2 hash e1 he1
  exact ⟨e', he', hpath.trans hpath1, hwork.trans hwork1⟩

theorem acceptBlockHeader_frame (hg : n.index (E.net.hashGenesisBlock E.crypto) ≠ none)
    (h : (acceptBlockHeader E n header min_pow_checked fOldClient).1 = n') :
    SamePaths n n' ∧ n'.chain = n.chain ∧ n'.targets = n.targets := by
  rcases acceptBlockHeader_cases hg h with ⟨hpres, hsame, hcand⟩ | ⟨pindexPrev, fSet, hadd⟩
  · exact ⟨hpres.samePaths, hsame.chain, by rw [Node.targets, hcand, hsame.mostWork, Node.targets]⟩
  · rw [hadd.result]
    refine ⟨fun hash e he => ⟨e, ?_, rfl, rfl⟩, rfl, rfl⟩
    have hne : hash ≠ header.getHash E.crypto := by
      rintro rfl
      rw [hadd.fresh] at he
      cases he
    simpa [Node.setEntry, hne] using he

theorem acceptBlockHeader_entryWith (hg : n.index (E.net.hashGenesisBlock E.crypto) ≠ none) {h : Uint256}
    (he' : (acceptBlockHeader E n header min_pow_checked fOldClient).1.index h = some e') :
    ∃ e, n.entryWith E.crypto header h = some e ∧ e.path = e'.path ∧ e.nChainWork = e'.nChainWork := by
  unfold Node.entryWith
  rcases acceptBlockHeader_cases hg rfl with ⟨hpres, -, -⟩ | ⟨pindexPrev, fSet, hadd⟩
  · obtain ⟨e, he, hev⟩ := hpres.source he'
    rw [he]
    exact ⟨e, rfl, hev.path.symm, hev.work.symm⟩
  · rw [hadd.result] at he'
    by_cases hh : h = header.getHash E.crypto
    · subst hh
      rw [hadd.fresh, hadd.prev]
      simp only [Node.setEntry, if_true] at he'
      cases he'
      exact ⟨_, if_pos rfl, rfl, rfl⟩
    · simp only [Node.setEntry, if_neg hh] at he'
      rw [he']
      exact ⟨e', rfl, rfl, rfl⟩

theorem entryWith_of_index {e : BlockEntry} (he : n.index hash = some e) :
    n.entryWith E.crypto header hash = some e := by
  rw [Node.entryWith, he]

theorem processNewBlock_entryWith (hg : n.index (E.net.hashGenesisBlock E.crypto) ≠ none)
    (h : (processNewBlock E n block force_processing min_pow_checked).1 = n')
    (he' : n'.index hash = some e') :
    ∃ e, n.entryWith E.crypto block.getBlockHeader hash = some e ∧ e.path = e'.path ∧ e.nChainWork = e'.nChainWork := by
  obtain ⟨n1, hstage, hkeeps, -⟩ := processNewBlock_cases h
  obtain ⟨e1, he1, hkept⟩ := hkeeps.source he'
  rw [hkept.path, hkept.work]
  rcases hstage with rfl | rfl
  · exact ⟨e1, entryWith_of_index he1, rfl, rfl⟩
  · exact acceptBlockHeader_entryWith hg he1

theorem connectable_of_linked (hg : n.index (E.net.hashGenesisBlock E.crypto) ≠ none)
    (hok : (acceptBlockHeader E n header min_pow_checked fOldClient).2 = .ok (header.getHash E.crypto))
    (hknown : (acceptBlockHeader E n header min_pow_checked fOldClient).1.index (header.getHash E.crypto) ≠ none)
    (hlinked : (acceptBlockHeader E n header min_pow_checked fOldClient).1.linked (header.getHash E.crypto) = true) :
    n.connectable E.crypto header = true := by
  generalize hn1 : (acceptBlockHeader E n header min_pow_checked fOldClient).1 = n1 at hknown hlinked
  rcases acceptBlockHeader_shapes hg (Prod.ext hn1 hok) with rfl | ⟨-, -, e, -, herror⟩ | ⟨pindexPrev, fSet, hadd⟩
  · obtain ⟨e, he⟩ := Option.ne_none_iff_exists'.1 hknown
    rw [Node.connectable, entryWith_of_index he]
    rw [Node.linked, he] at hlinked
    exact hlinked
  · cases herror
  · have hentry : n.entryWith E.crypto header (header.getHash E.crypto) =
        some (newEntry E.crypto header false (some pindexPrev)) := by
      rw [Node.entryWith, hadd.fresh, hadd.prev]
      exact if_pos rfl
    rw [Node.linked, hadd.result] at hlinked
    rw [Node.connectable, hentry]
    simp only [Node.setEntry, if_true, Option.bind_some, newEntry, Option.map_some, Option.getD_some,
      List.tail_cons] at hlinked ⊢
    cases hprev : pindexPrev.path.head? with
    | none => rfl
    | some hashPrev =>
      rw [hprev] at hlinked
      dsimp only at hlinked ⊢
      split at hlinked
      · -- the new entry has no count yet
        cases hlinked
      · exact hlinked

theorem processNewBlock_frame (hg : n.index (E.net.hashGenesisBlock E.crypto) ≠ none)
    (h : (processNewBlock E n block force_processing min_pow_checked).1 = n') :
    SamePaths n n' ∧ n'.chain = n.chain := by
  obtain ⟨n1, hstage, hkeeps, hsame⟩ := processNewBlock_cases h
  rcases hstage with rfl | hheader
  · exact ⟨hkeeps.preserves.samePaths, hsame.chain⟩
  · obtain ⟨hentry, hchain, -⟩ := acceptBlockHeader_frame hg hheader
    exact ⟨hentry.trans hkeeps.preserves.samePaths, hsame.chain.trans hchain⟩

/-- **What a block message adds to the targets**: the blocks that it completes. -/
theorem processNewBlock_targets (hg : n.index (E.net.hashGenesisBlock E.crypto) ≠ none)
    (h : (processNewBlock E n block force_processing min_pow_checked).1 = n') (hmem : hash ∈ n'.targets) :
    hash ∈ n.targets ∨ (hash ∈ completedBlocks (n.unlinked.length + 1) [block.getHash E.crypto] n.unlinked ∧
      ((n.index (block.getHash E.crypto)).all fun e => e.data.isNone) = true ∧
      n.connectable E.crypto block.getBlockHeader = true ∧ n'.index hash ≠ none) := by
  have hheader : (acceptBlockHeader E n block.getBlockHeader min_pow_checked false).1.targets = n.targets :=
    (acceptBlockHeader_frame hg rfl).2.2
  rcases processNewBlock_stages h with rfl | rfl | ⟨hok, rfl⟩
  · exact .inl hmem
  · exact .inl (hheader ▸ hmem)
  · have hconnect := connectable_of_linked hg (show _ = Except.ok (block.getBlockHeader.getHash E.crypto) from hok)
    generalize hn1 : (acceptBlockHeader E n block.getBlockHeader min_pow_checked false).1 = n1 at *
    obtain ⟨hkeeps, hsame⟩ := acceptBlockData_keeps (E := E) n1 block force_processing
    rcases List.mem_append.1 hmem with hcand | hmost
    · rcases acceptBlockData_candidates hcand with h | ⟨h, hne, ⟨e, he, hdata⟩, hlinked⟩
      · exact .inl (hheader ▸ n1.candidates_subset_targets h)
      · rw [← hn1, acceptBlockHeader_unlinked] at h
        refine .inr ⟨h, ?_, hconnect (Option.ne_none_iff_exists'.2 ⟨e, he⟩) hlinked, ?_⟩
        · -- a block that is known already went past its header without a change
          cases hentry : n.index (block.getHash E.crypto) with
          | none => rfl
          | some e0 =>
            have hsame1 : (acceptBlockHeader E n block.getBlockHeader min_pow_checked false).1 = n :=
              acceptBlockHeader_known hentry
            rw [hn1.symm.trans hsame1, hentry] at he
            cases he
            simp [hdata]
        · obtain ⟨e1, he1⟩ := Option.ne_none_iff_exists'.1 hne
          obtain ⟨e', he', -⟩ := hkeeps.kept hash e1 he1
          simp [he']
    · rw [hsame.mostWork] at hmost
      exact .inl (hheader ▸ List.mem_append_right _ hmost)

end Completed

/-! ## Runs within the limit -/

/-- A chain can turn between any two targets within the limit, and it is within the limit of each of them. -/
structure LimitInvariant (net : Network) (C : Crypto) (n : Node) : Prop where
  rooted : n.Rooted net C
  known : ∀ hash ∈ n.targets, n.index hash ≠ none
  pairs : ∀ p ∈ n.targetPaths, ∀ q ∈ n.targetPaths, TurnsWithin net.reorganizationLimit n.work p q
  chain : ∀ q ∈ n.targetPaths, Fork.depth n.chain q ≤ net.reorganizationLimit

section Runs

variable {net : Network} {C : Crypto} {E : Env} {n n' : Node} {p : BlockPath}

theorem LimitInvariant.init (net : Network) (C : Crypto) : LimitInvariant net C (.init net C) := by
  have hpaths : (Node.init net C).targetPaths = [[net.hashGenesisBlock C]] := by
    simp [Node.targetPaths, Node.targets, Node.init, genesisEntry]
  refine ⟨Node.init_rooted net C, ?_, ?_, ?_⟩
  · intro hash hmem
    have hgenesis : hash = net.hashGenesisBlock C := by simpa [Node.targets, Node.init] using hmem
    rw [hgenesis]
    exact (Node.init_rooted net C).genesis
  · intro p hp q hq
    rw [hpaths, List.mem_singleton] at hp hq
    left
    rw [hp, hq, Fork.depth_self]
    exact Nat.zero_le _
  · intro q _
    simp [Fork.depth, Node.init]

theorem Node.Closed.targetPath (hc : n.Closed) (hp : p ∈ n.targetPaths) :
    p ≠ [] ∧ ∀ a ∈ p, ∃ e, n.index a = some e := by
  obtain ⟨hash, -, e, he, rfl⟩ := mem_targetPaths.1 hp
  obtain ⟨-, rest, hrest⟩ := hc.own hash e he
  refine ⟨by rw [hrest]; exact List.cons_ne_nil _ _, fun a ha => ?_⟩
  obtain ⟨l, r, hsplit⟩ := List.append_of_mem ha
  obtain ⟨ea, hea, -⟩ := hc.ancestor hash e he a r ⟨l, hsplit.symm⟩
  exact ⟨ea, hea⟩

theorem SamePaths.work_eq (h : SamePaths n n') {a : Uint256} (ha : ∃ e, n.index a = some e) : n'.work a = n.work a := by
  obtain ⟨e, he⟩ := ha
  obtain ⟨e', he', -, hwork⟩ := h a e he
  rw [Node.work, Node.work, he, he', Option.map_some, Option.map_some, hwork]

theorem SamePaths.mem_targetPaths (h : SamePaths n n') (hknown : ∀ hash ∈ n.targets, n.index hash ≠ none)
    (htargets : n'.targets ⊆ n.targets) (hp : p ∈ n'.targetPaths) : p ∈ n.targetPaths := by
  obtain ⟨hash, hmem, e', he', rfl⟩ := CodexaCoin.mem_targetPaths.1 hp
  obtain ⟨e, he⟩ := Option.ne_none_iff_exists'.1 (hknown hash (htargets hmem))
  obtain ⟨e'', he'', hpath, -⟩ := h hash e he
  rw [he'] at he''
  cases he''
  exact CodexaCoin.mem_targetPaths.2 ⟨hash, htargets hmem, e, he, hpath.symm⟩

theorem LimitInvariant.move (hi : LimitInvariant net C n) (hr : n'.Rooted net C) (htargets : n'.targets ⊆ n.targets)
    (hentry : SamePaths n n')
    (hchain : ∀ q ∈ n'.targetPaths, q ∈ n.targetPaths → Fork.depth n'.chain q ≤ net.reorganizationLimit) :
    LimitInvariant net C n' := by
  have hpaths := fun {p} => hentry.mem_targetPaths hi.known htargets (p := p)
  refine ⟨hr, fun hash hmem => ?_, fun p hp q hq => ?_, fun q hq => hchain q hq (hpaths hq)⟩
  · obtain ⟨e, he⟩ := Option.ne_none_iff_exists'.1 (hi.known hash (htargets hmem))
    obtain ⟨e', he', -⟩ := hentry hash e he
    simp [he']
  · obtain ⟨-, hp'⟩ := hi.rooted.targetPath (hpaths hp)
    obtain ⟨hne, hq'⟩ := hi.rooted.targetPath (hpaths hq)
    exact (hi.pairs p (hpaths hp) q (hpaths hq)).congr (fun a ha => hentry.work_eq (hp' a ha))
      (fun a ha => hentry.work_eq (hq' a ha)) hne

theorem LimitInvariant.header {header : CBlockHeader} {min_pow_checked fOldClient : Bool}
    (hi : LimitInvariant E.net E.crypto n) :
    LimitInvariant E.net E.crypto (acceptBlockHeader E n header min_pow_checked fOldClient).1 := by
  have hr : (acceptBlockHeader E n header min_pow_checked fOldClient).1.Rooted E.net E.crypto := hi.rooted.header
  obtain ⟨hentry, hchain, htargets⟩ := acceptBlockHeader_frame hi.rooted.genesis rfl
  refine hi.move hr (htargets ▸ List.Subset.refl _) hentry fun q _ hq => ?_
  rw [hchain]
  exact hi.chain q hq

theorem LimitInvariant.block {block : CBlock} {force_processing min_pow_checked : Bool}
    (hi : LimitInvariant E.net E.crypto n)
    (hlimit : ForksLimited E n (.block block force_processing min_pow_checked)) :
    LimitInvariant E.net E.crypto (processNewBlock E n block force_processing min_pow_checked).1 := by
  have hr := hi.rooted.step (.block block force_processing min_pow_checked)
  have hg := hi.rooted.genesis
  change (processNewBlock E n block force_processing min_pow_checked).1.Rooted _ _ at hr
  generalize hn' : (processNewBlock E n block force_processing min_pow_checked).1 = n' at hr ⊢
  obtain ⟨hentry, hchain⟩ := processNewBlock_frame hg hn'
  -- the work of a block after the step is what the test has looked at
  have hwork : ∀ a, (∃ e, n'.index a = some e) → n'.work a = n.workWith E.crypto block.getBlockHeader a := by
    rintro a ⟨e', he'⟩
    obtain ⟨e, he, -, hwork⟩ := processNewBlock_entryWith hg hn' he'
    rw [Node.work, Node.workWith, he, he', Option.map_some, Option.map_some, hwork]
  have hturns : ∀ p ∈ n'.targetPaths, ∀ q ∈ n'.targetPaths,
      TurnsWithin E.net.reorganizationLimit (n.workWith E.crypto block.getBlockHeader) p q →
        TurnsWithin E.net.reorganizationLimit n'.work p q := by
    intro p hp q hq h
    obtain ⟨-, hp'⟩ := hr.targetPath hp
    obtain ⟨hne, hq'⟩ := hr.targetPath hq
    exact h.congr (fun a ha => hwork a (hp' a ha)) (fun a ha => hwork a (hq' a ha)) hne
  -- every target is an old one, or a completed branch within the limit
  have hsplit : ∀ p ∈ n'.targetPaths, p ∈ n.targetPaths ∨
      (p ∈ n.completedPaths E.crypto block.getBlockHeader ∧
        WithinLimit E.net.reorganizationLimit (n.workWith E.crypto block.getBlockHeader) n.chain n.targetPaths
          (n.completedPaths E.crypto block.getBlockHeader)) := by
    intro p hp
    obtain ⟨hash, hmem, e', he', rfl⟩ := mem_targetPaths.1 hp
    obtain ⟨e, hwith, hpath, -⟩ := processNewBlock_entryWith hg hn' he'
    rcases processNewBlock_targets hg hn' hmem with hold | ⟨hnew, hdata, hconnect, -⟩
    · obtain ⟨e0, he0⟩ := Option.ne_none_iff_exists'.1 (hi.known hash hold)
      rw [entryWith_of_index he0] at hwith
      cases hwith
      exact .inl (mem_targetPaths.2 ⟨hash, hold, e, he0, hpath⟩)
    · exact .inr ⟨List.mem_filterMap.2 ⟨hash, hnew, by rw [hwith, Option.map_some, hpath]⟩, hlimit hdata hconnect⟩
  refine ⟨hr, ?_, fun p hp q hq => ?_, ?_⟩
  · intro hash hmem
    rcases processNewBlock_targets hg hn' hmem with hold | ⟨-, -, -, hne⟩
    · obtain ⟨e, he⟩ := Option.ne_none_iff_exists'.1 (hi.known hash hold)
      obtain ⟨e', he', -⟩ := hentry hash e he
      simp [he']
    · exact hne
  · rcases hsplit p hp with hp' | ⟨hp', hlim⟩
    · rcases hsplit q hq with hq' | ⟨hq', hlim⟩
      · obtain ⟨-, hpk⟩ := hi.rooted.targetPath hp'
        obtain ⟨hne, hqk⟩ := hi.rooted.targetPath hq'
        exact (hi.pairs p hp' q hq').congr (fun a ha => hentry.work_eq (hpk a ha))
          (fun a ha => hentry.work_eq (hqk a ha)) hne
      · exact hturns p hp q hq ((hlim q hq').2 p (List.mem_append_left _ hp')).2
    · rcases hsplit q hq with hq' | ⟨hq', -⟩
      · exact hturns p hp q hq ((hlim p hp').2 q (List.mem_append_left _ hq')).1
      · exact hturns p hp q hq ((hlim p hp').2 q (List.mem_append_right _ hq')).1
  · intro q hq
    rw [hchain]
    rcases hsplit q hq with hq | ⟨hq, hlim⟩
    · exact hi.chain q hq
    · exact (hlim q hq).1

theorem LimitInvariant.round (hi : LimitInvariant E.net E.crypto n) {hash : Uint256} {e : BlockEntry}
    {pblock : Option CBlock} {trace : ActivationTrace} (hr : n'.Rooted E.net E.crypto) (hentry : SamePaths n n')
    (hmem : hash ∈ n.targets) (he : n.index hash = some e) (hmost : ∀ h ∈ n'.mostWork, h = hash)
    (hspec : RoundSpec E n e.path pblock n' trace) {q : BlockPath} (hq' : q ∈ n'.targetPaths)
    (hq : q ∈ n.targetPaths) : Fork.depth n'.chain q ≤ E.net.reorganizationLimit := by
  have hpath : e.path ∈ n.targetPaths := mem_targetPaths.2 ⟨hash, hmem, e, he, rfl⟩
  rcases hspec.chain with hold | ⟨hnew, hpruned⟩
  · exact (Fork.depth_mono hold).trans (hi.chain q hq)
  · obtain ⟨hash', hmem', e', he', rfl⟩ := mem_targetPaths.1 hq'
    rcases List.mem_append.1 hmem' with hcand | hgo
    · -- a candidate has at least the work of the tip
      refine (hi.pairs e.path hpath e'.path hq).depth_le hnew fun a ha hbelow => Nat.not_lt.2 ?_
      obtain ⟨-, rest, hrest⟩ := hr.own hash' e' he'
      obtain ⟨-, hknown⟩ := hi.rooted.targetPath hq
      obtain ⟨-, hknown'⟩ := hi.rooted.targetPath hpath
      have hhead : e'.path.headD 0 = hash' := by rw [hrest, List.headD_cons]
      have hin : a ∈ e.path := hnew.subset (List.mem_of_mem_head? ha)
      obtain ⟨ea, hea⟩ := hknown' a hin
      obtain ⟨ea', hea', -⟩ := hentry a ea hea
      have hle := hpruned hash' hcand e' ea' he' (by rw [Node.tip, ha]; exact hea')
      rw [hhead, ← hentry.work_eq ⟨ea, hea⟩, ← hentry.work_eq (hknown hash' (by rw [hrest]; exact List.mem_cons_self)),
        Node.work, Node.work, he', hea']
      exact hle
    · -- the round goes on towards its own target
      obtain rfl := hmost hash' (Option.mem_toList.1 hgo)
      obtain ⟨e'', he'', hsame, -⟩ := hentry hash' e he
      rw [he'] at he''
      cases he''
      rw [hsame, Fork.depth_eq_zero hnew]
      exact Nat.zero_le _

theorem LimitInvariant.activate (hi : LimitInvariant E.net E.crypto n) (first : Bool) (pblock : Option CBlock) :
    LimitInvariant E.net E.crypto (activateBestChain E n first pblock).1 ∧
      (activateBestChain E n first pblock).2.disconnected.length ≤ E.net.reorganizationLimit := by
  obtain ⟨hpres, htargets, hround⟩ := activateBestChain_spec (E := E) hi.rooted.toClosed first pblock
  have hr := hi.rooted.preserves hpres
  rcases hround with ⟨hchain, htrace⟩ | ⟨hash, hmem, e, he, hmost, hspec⟩
  · refine ⟨hi.move hr htargets hpres.samePaths fun q _ hq => ?_, ?_⟩
    · rw [hchain]
      exact hi.chain q hq
    · rw [htrace]
      exact Nat.zero_le _
  · refine ⟨hi.move hr htargets hpres.samePaths fun q hq' hq => ?_, ?_⟩
    · exact hi.round hr hpres.samePaths hmem he hmost hspec hq' hq
    · exact hspec.disconnected.trans (hi.chain e.path (mem_targetPaths.2 ⟨hash, hmem, e, he, rfl⟩))

theorem reachable_limitInvariant (h : Reachable net C ForksLimited n) : LimitInvariant net C n := by
  refine h.invariant (.init net C) ?_
  rintro E n event rfl rfl hi hlimit
  cases event with
  | header header min_pow_checked fOldClient => exact hi.header
  | block block force_processing min_pow_checked => exact hi.block hlimit
  | activate first pblock => exact (hi.activate first pblock).1

/-- **Reorganizations within the limit.** In a run in which every block that completes branches passes the depth test
at that time, no round of activation disconnects more than `nMaxReorganizationDepth` blocks. -/
theorem activation_within_limit (h : Reachable net C ForksLimited n) (E : Env) (hnet : E.net = net)
    (hC : E.crypto = C) (first : Bool) (pblock : Option CBlock) :
    ((n.step E (.activate first pblock)).2.disconnected.length : Int) ≤ net.params.nMaxReorganizationDepth := by
  subst hnet hC
  have hle := ((reachable_limitInvariant h).activate first pblock).2
  have hpos : 0 ≤ E.net.params.nMaxReorganizationDepth := by cases E.net <;> decide
  unfold Network.reorganizationLimit at hle
  show ((activateBestChain E n first pblock).2.disconnected.length : Int) ≤ _
  omega

end Runs

/-! ## Runs on two branches -/

/-- The coinbases of two branches at one height differ. -/
def forkCoinbase (branch : UInt8) (nHeight : Nat) : CTransaction := sampleCoinbase nHeight branch ⟨0, [opReturn]⟩

def forkBlock (branch : UInt8) (nHeight : Nat) (hashPrevBlock : Uint256) : CBlock where
  hashPrevBlock := hashPrevBlock
  hashMerkleRoot := (forkCoinbase branch nHeight).getHash .sample
  nTime := 1785326400 + 16 * nHeight
  nBits := 0x207fffff
  vtx := [forkCoinbase branch nHeight]

def forkBranch (branch : UInt8) : (count nHeight : Nat) → Uint256 → List CBlock
  | 0, _, _ => []
  | count + 1, nHeight, hashPrev =>
    let block := forkBlock branch nHeight hashPrev
    block :: forkBranch branch count (nHeight + 1) (block.getHash .sample)

/-- The headers of a branch of `depth + 1` blocks on the genesis block arrive, then `depth` blocks of another branch,
each of which is activated, and then the blocks of the first one. -/
def reorgEvents (depth : Nat) : List Event :=
  let genesis := Network.regtest.hashGenesisBlock .sample
  let side := forkBranch 2 (depth + 1) 1 genesis
  .activate true none :: side.map (fun block => .header block.getBlockHeader true false) ++
    (forkBranch 1 depth 1 genesis).flatMap (fun block => [.block block true true, .activate true (some block)]) ++
    side.map (fun block => .block block true true)

def reorgEnv : Env := .sample .regtest 1785330000

instance (limit : Nat) (work : Uint256 → Nat) (p q : BlockPath) : Decidable (TurnsWithin limit work p q) :=
  inferInstanceAs (Decidable (_ ∨ _ ∧ ∀ a ∈ Fork.above p q, _))

instance (limit : Nat) (work : Uint256 → Nat) (chain : BlockPath) (targets completed : List BlockPath) :
    Decidable (WithinLimit limit work chain targets completed) :=
  inferInstanceAs (Decidable (∀ p ∈ completed, _ ∧ ∀ q ∈ targets ++ completed, _))

instance (E : Env) (n : Node) (event : Event) : Decidable (ForksLimited E n event) :=
  match event with
  | .block _ _ _ => inferInstanceAs (Decidable (_ = true → _ = true → WithinLimit _ _ _ _ _))
  | .header .. => inferInstanceAs (Decidable True)
  | .activate .. => inferInstanceAs (Decidable True)

theorem one_block_reorganization :
    RunSatisfies ForksLimited reorgEnv (reorgEvents 1) (.init .regtest .sample) ∧
      (((Node.init .regtest .sample).run reorgEnv (reorgEvents 1)).step reorgEnv
        (.activate true none)).2.disconnected.length = 1 ∧
      ((((Node.init .regtest .sample).run reorgEnv (reorgEvents 1)).step reorgEnv
        (.activate true none)).2.disconnected.length : Int) ≤ Network.regtest.params.nMaxReorganizationDepth := by
  have hrun : RunSatisfies ForksLimited reorgEnv (reorgEvents 1) (.init .regtest .sample) := by decide +kernel
  have hreach : Reachable .regtest .sample ForksLimited ((Node.init .regtest .sample).run reorgEnv (reorgEvents 1)) :=
    Reachable.run (E := reorgEnv) rfl rfl .init hrun
  exact ⟨hrun, by decide +kernel, activation_within_limit hreach reorgEnv rfl rfl true none⟩

set_option maxRecDepth 100000 in
/-- **A reorganization of 51 blocks on a network with a limit of 50.** The headers of the branch are accepted while the
genesis block is the tip, and its blocks arrive after 51 other blocks have been connected. -/
theorem headers_first_reorganization :
    ∃ n, Reachable .regtest .sample (fun _ _ _ => True) n ∧
      Network.regtest.params.nMaxReorganizationDepth <
        (n.step reorgEnv (.activate true none)).2.disconnected.length := by
  have hreach : Reachable .regtest .sample (fun _ _ _ => True)
      ((Node.init .regtest .sample).run reorgEnv (reorgEvents 51)) :=
    Reachable.run (E := reorgEnv) rfl rfl .init (.of_mem (fun _ _ _ => trivial) _)
  refine ⟨_, hreach, ?_⟩
  have hcount : (((Node.init .regtest .sample).run reorgEnv (reorgEvents 51)).step reorgEnv
      (.activate true none)).2.disconnected.length = 51 := by decide +kernel
  rw [hcount]
  decide

end CodexaCoin
