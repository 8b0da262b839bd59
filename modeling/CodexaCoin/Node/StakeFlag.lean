import CodexaCoin.Node.Activate

/-!
# The proof-of-stake flag of the block index

`ContextualCheckBlockHeader` keeps proof-of-work blocks out after the premine by the flag that `AcceptBlockHeader` reads
from `nFlags`, a field outside the block hash; `ConnectBlock` looks at the transactions.
-/

namespace CodexaCoin

open Check Consensus CoinMap IndexChain

/-- The flag that `AcceptBlockHeader` gives a new entry: the bit of `nFlags`, which for the headers of old clients is also
set when they do not pass as proof-of-work. -/
def headerFlag (E : Env) (n : Node) (header : CBlockHeader) (fOldClient : Bool) : Bool :=
  header.stakeFlag || (fOldClient && !(checkBlockHeader E header n.height true).isOk)

/-- The message says of its block what `kind` says of the block's hash: the flag does where it makes a new entry, and the
transactions do where they are stored or connected. -/
def TruthfulFlags (kind : Uint256 → Bool) (E : Env) (n : Node) : Event → Prop
  | .header header _ fOldClient =>
    n.index (header.getHash E.crypto) = none → headerFlag E n header fOldClient = kind (header.getHash E.crypto)
  | .block block _ _ =>
    (n.index (block.getHash E.crypto) = none → block.getBlockHeader.stakeFlag = kind (block.getHash E.crypto)) ∧
      block.isProofOfStake = kind (block.getHash E.crypto)
  | .activate _ pblock => ∀ block, pblock = some block → block.isProofOfStake = kind (block.getHash E.crypto)

structure TruthfulEntry (net : Network) (kind : Bool) (e : BlockEntry) : Prop where
  flag : e.pindex.fProofOfStake = kind
  height : (e.nHeight : Int) > net.params.nLastPOWBlock → kind = true
  data : ∀ block, e.data = some block → block.isProofOfStake = kind

structure TruthfulIndex (net : Network) (C : Crypto) (kind : Uint256 → Bool) (n : Node) : Prop where
  rooted : n.Rooted net C
  entry : ∀ hash e, n.index hash = some e → TruthfulEntry net (kind hash) e

section Truthful

variable {net : Network} {C : Crypto} {kind : Uint256 → Bool} {E : Env} {n n' : Node} {header : CBlockHeader}
  {fOldClient fSet : Bool} {block : CBlock}

theorem indexFlag_eq_headerFlag (h : setAsProofOfStake E n header fOldClient = .ok fSet) :
    indexFlag header fSet = headerFlag E n header fOldClient := by
  unfold setAsProofOfStake at h
  unfold indexFlag headerFlag
  cases hflag : header.stakeFlag with
  | true => rfl
  | false =>
    rw [hflag, Bool.not_false] at h
    split at h
    · next hcheck =>
      cases h
      simp [hcheck, Except.isOk, Except.toBool]
    · next e hcheck =>
      split at h
      · next hold =>
        cases h
        simp [hcheck, hold, Except.isOk, Except.toBool]
      · cases h

theorem contextualCheckBlockHeader_stake {pindexPrev : BlockEntry}
    (h : contextualCheckBlockHeader E n header pindexPrev fSet = .ok ())
    (hheight : ((pindexPrev.nHeight + 1 : Nat) : Int) > E.net.params.nLastPOWBlock) : fSet = true := by
  obtain ⟨-, h⟩ := require_bind_eq_ok.1 h
  obtain ⟨-, h⟩ := require_bind_eq_ok.1 h
  obtain ⟨hpow, -⟩ := require_bind_eq_ok.1 h
  cases fSet with
  | true => rfl
  | false =>
    exfalso
    simp only [hheight, decide_true, Bool.not_false, Bool.and_true, Bool.not_true, Bool.false_eq_true] at hpow

theorem TruthfulIndex.preserves {S : Uint256 → CBlock → Prop} (ht : TruthfulIndex net C kind n)
    (h : Preserves S n n') (hS : ∀ hash block, S hash block → block.isProofOfStake = kind hash) :
    TruthfulIndex net C kind n' := by
  refine ⟨ht.rooted.preserves h, fun hash e' he' => ?_⟩
  obtain ⟨e, he, hev⟩ := h.source he'
  obtain ⟨hflag, hheight, hdata⟩ := ht.entry hash e he
  refine ⟨hev.stake.trans hflag, fun hh => hheight ?_, fun block hb => ?_⟩
  · rwa [BlockEntry.nHeight, ← hev.path]
  · rcases hev.data block hb with hb | hb
    · exact hdata block hb
    · exact hS hash block hb

theorem TruthfulIndex.acceptHeader {min_pow_checked : Bool} (ht : TruthfulIndex E.net E.crypto kind n)
    (hflag : n.index (header.getHash E.crypto) = none →
      headerFlag E n header fOldClient = kind (header.getHash E.crypto)) :
    TruthfulIndex E.net E.crypto kind (acceptBlockHeader E n header min_pow_checked fOldClient).1 := by
  have hr : (acceptBlockHeader E n header min_pow_checked fOldClient).1.Rooted E.net E.crypto := ht.rooted.header
  rcases acceptBlockHeader_cases ht.rooted.genesis rfl with ⟨hpres, -, -⟩ | ⟨pindexPrev, fSet, hadd⟩
  · exact ht.preserves hpres fun _ _ h => h.elim
  · refine ⟨hr, fun hash e he => ?_⟩
    rw [hadd.result] at he
    simp only [Node.setEntry] at he
    split at he
    · next hhash =>
      cases he
      have hkind : indexFlag header fSet = kind hash := by
        rw [indexFlag_eq_headerFlag hadd.flag, hhash]
        exact hflag hadd.fresh
      refine ⟨hkind, fun hheight => ?_, fun block hb => by cases hb⟩
      -- the parent's path is not empty, so the height is one more
      obtain ⟨-, rest, hrest⟩ := ht.rooted.own _ _ hadd.prev
      have hset := contextualCheckBlockHeader_stake hadd.context (by
        simpa [BlockEntry.nHeight, newEntry, hrest] using hheight)
      rw [← hkind, hset, indexFlag, Bool.or_true]
    · exact ht.entry hash e he

theorem TruthfulIndex.acceptBlock {force_processing min_pow_checked : Bool}
    (ht : TruthfulIndex E.net E.crypto kind n)
    (htrue : TruthfulFlags kind E n (.block block force_processing min_pow_checked)) :
    TruthfulIndex E.net E.crypto kind (processNewBlock E n block force_processing min_pow_checked).1 := by
  generalize hn' : (processNewBlock E n block force_processing min_pow_checked).1 = n'
  obtain ⟨n1, hstage, hkeeps, -⟩ := processNewBlock_cases hn'
  have hstored : ∀ hash b, storedBlock E.crypto block hash b → b.isProofOfStake = kind hash := by
    rintro hash b ⟨rfl, rfl, -⟩
    exact htrue.2
  rcases hstage with rfl | rfl
  · exact ht.preserves hkeeps.preserves hstored
  · refine (ht.acceptHeader fun hfresh => ?_).preserves hkeeps.preserves hstored
    simpa [headerFlag] using htrue.1 hfresh

theorem TruthfulIndex.init (hkind : kind (net.hashGenesisBlock C) = false) :
    TruthfulIndex net C kind (.init net C) := by
  refine ⟨Node.init_rooted net C, fun hash e he => ?_⟩
  simp only [Node.init] at he
  split at he
  · next hhash =>
    cases he
    rw [hhash, hkind]
    refine ⟨rfl, fun hheight => ?_, fun block hb => ?_⟩
    · have hzero : ((genesisEntry net C).nHeight : Int) = 0 := rfl
      rw [hzero] at hheight
      cases net <;> exact absurd hheight (by decide)
    · cases hb
      cases net <;> rfl
  · cases he

theorem reachable_truthfulIndex (hkind : kind (net.hashGenesisBlock C) = false)
    (h : Reachable net C (TruthfulFlags kind) n) : TruthfulIndex net C kind n := by
  refine h.invariant (.init hkind) ?_
  rintro E n event rfl rfl ht htrue
  cases event with
  | header header min_pow_checked fOldClient => exact ht.acceptHeader htrue
  | block block force_processing min_pow_checked => exact ht.acceptBlock htrue
  | activate first pblock =>
    exact ht.preserves (activateBestChain_spec ht.rooted.toClosed first pblock).1 fun _ _ h => h.elim

theorem Traced.truthful {pblock : Option CBlock} {hash : Uint256}
    (ht : TruthfulIndex net C kind n) (h : Traced E n pblock hash block)
    (hblock : ∀ b, pblock = some b → b.isProofOfStake = kind (b.getHash E.crypto)) :
    ∃ e, n.index hash = some e ∧ block.getHash E.crypto = hash ∧ block.isProofOfStake = kind hash := by
  obtain ⟨e, he, hhash, hsource⟩ := h.entry
  refine ⟨e, he, hhash, ?_⟩
  rcases hsource with hp | ⟨stored, hstored, hsame⟩
  · rw [hblock block hp, hhash]
  · rw [hsame, (ht.entry hash e he).data stored hstored]

theorem stakeFlag_agrees (hkind : kind (net.hashGenesisBlock C) = false)
    (h : Reachable net C (TruthfulFlags kind) n) :
    (∀ hash e block, n.index hash = some e → e.data = some block → e.pindex.fProofOfStake = block.isProofOfStake) ∧
      ∀ (E : Env) (first : Bool) (pblock : Option CBlock), E.net = net → E.crypto = C →
        TruthfulFlags kind E n (.activate first pblock) →
        ∀ c ∈ (n.step E (.activate first pblock)).2.connected, ∃ e, n.index c.1 = some e ∧
          c.2.getHash C = c.1 ∧ ((e.nHeight : Int) > net.params.nLastPOWBlock → c.2.isProofOfStake = true) := by
  have ht := reachable_truthfulIndex hkind h
  refine ⟨fun hash e block he hb => ?_, ?_⟩
  · rw [(ht.entry hash e he).flag, (ht.entry hash e he).data block hb]
  · rintro E first pblock rfl rfl htrue c hc
    obtain ⟨-, -, hround⟩ := activateBestChain_spec (E := E) ht.rooted.toClosed first pblock
    rcases hround with ⟨-, htrace⟩ | ⟨hash, -, e, -, hspec⟩
    · rw [show (n.step E (.activate first pblock)).2 = {} from htrace] at hc
      cases hc
    · obtain ⟨ec, hec, hhash, hstake⟩ := (hspec.2.connected c hc).truthful ht htrue
      exact ⟨ec, hec, hhash, fun hheight => hstake.trans ((ht.entry c.1 ec hec).height hheight)⟩

end Truthful

/-! ## Blocks with a flag on top of the genesis block -/

def flagCoinbase : CTransaction := sampleCoinbase 1 0 ⟨0, []⟩

def flagCoinstake : CTransaction where
  vin := [{ prevout := ⟨1, 0⟩, scriptSig := [] }]
  vout := [⟨0, []⟩, ⟨1, 33 :: 2 :: List.replicate 32 7 ++ [opChecksig]⟩]
  nVersion := 2

/-- A block with the flag, at the target of proof-of-stake. -/
def flagBlock (vtx : List CTransaction) (vchBlockSig : List UInt8) : CBlock where
  hashPrevBlock := Network.regtest.hashGenesisBlock .sample
  hashMerkleRoot := (computeMerkleRoot .sample (vtx.map fun tx => tx.getHash .sample)).1
  nTime := 1785326416
  nBits := 0x1b00ffff
  nFlags := 1
  vtx := vtx
  vchBlockSig := vchBlockSig

def workBlock : CBlock := flagBlock [flagCoinbase] []

def coinstakeBlock : CBlock := flagBlock [flagCoinbase, flagCoinstake] [0x30, 7, 2, 1, 1, 2, 2, 1, 1]

def flagEnv : Env := .sample .regtest 1785330000

def flagEvents (block : CBlock) : List Event := [.activate true none, .block block true true]

def Node.flagAndKind (n : Node) (hash : Uint256) : Option (Bool × Option Bool) :=
  (n.index hash).map fun e => (e.pindex.fProofOfStake, e.data.map (·.isProofOfStake))

theorem coinstakeBlock_agrees :
    ((Node.init .regtest .sample).run flagEnv (flagEvents coinstakeBlock)).flagAndKind
        (coinstakeBlock.getHash .sample) = some (true, some true) ∧
      ∀ hash e block, ((Node.init .regtest .sample).run flagEnv (flagEvents coinstakeBlock)).index hash = some e →
        e.data = some block → e.pindex.fProofOfStake = block.isProofOfStake := by
  have hrun : RunSatisfies (TruthfulFlags fun hash => hash == coinstakeBlock.getHash .sample) flagEnv
      (flagEvents coinstakeBlock) (.init .regtest .sample) := by
    refine .of_mem (fun event hmem n => ?_) _
    rcases List.mem_cons.1 hmem with rfl | hmem
    · intro block hblock
      cases hblock
    · rw [List.mem_singleton.1 hmem]
      exact ⟨fun _ => by decide +kernel, by decide +kernel⟩
  have hreach : Reachable .regtest .sample (TruthfulFlags fun hash => hash == coinstakeBlock.getHash .sample)
      ((Node.init .regtest .sample).run flagEnv (flagEvents coinstakeBlock)) :=
    Reachable.run (E := flagEnv) rfl rfl .init hrun
  exact ⟨by decide +kernel, (stakeFlag_agrees (by decide +kernel) hreach).1⟩

/-- **A proof-of-work block under an entry with the flag.** -/
theorem proofOfWork_flagged_stake :
    ∃ n hash e block, Reachable .regtest .sample (fun _ _ _ => True) n ∧ n.index hash = some e ∧
      e.data = some block ∧ e.pindex.fProofOfStake ≠ block.isProofOfStake := by
  have hreach : Reachable .regtest .sample (fun _ _ _ => True)
      ((Node.init .regtest .sample).run flagEnv (flagEvents workBlock)) :=
    Reachable.run (E := flagEnv) rfl rfl .init (.of_mem (fun _ _ _ => trivial) _)
  have hentry : ((Node.init .regtest .sample).run flagEnv (flagEvents workBlock)).flagAndKind
      (workBlock.getHash .sample) = some (true, some false) := by decide +kernel
  obtain ⟨e, he, hkind⟩ := Option.map_eq_some_iff.1 hentry
  obtain ⟨hflag, hdata⟩ := Prod.mk.inj hkind
  obtain ⟨block, hblock, hwork⟩ := Option.map_eq_some_iff.1 hdata
  exact ⟨_, _, e, block, hreach, he, hblock, by rw [hflag, hwork]; decide⟩

end CodexaCoin
