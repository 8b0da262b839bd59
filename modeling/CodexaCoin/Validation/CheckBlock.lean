import CodexaCoin.Pos

/-!
# Context-free block checks

The part of `validation.cpp` around `CheckBlock`, `ContextualCheckBlock` and `GetBlockScriptFlags`, with
`consensus/merkle.cpp` and the block signature.
-/

namespace CodexaCoin

open Check Consensus CoinMap IndexChain

/-! ## Merkle roots -/

section Merkle

variable (C : Crypto)

/-- One level of `ComputeMerkleRoot`; the last hash of an odd level is paired with itself. -/
def merkleLevel : List Uint256 → List Uint256
  | a :: b :: rest => C.hash256 (serUint256 a ++ serUint256 b) :: merkleLevel rest
  | [a] => [C.hash256 (serUint256 a ++ serUint256 a)]
  | [] => []

def merkleMutated : List Uint256 → Bool
  | a :: b :: rest => a == b || merkleMutated rest
  | _ => false

/-- The loop of `ComputeMerkleRoot`; a level more than halves down to one hash, so `fuel` levels are enough. -/
def merkleLoop : (fuel : Nat) → List Uint256 → Bool → Uint256 × Bool
  | 0, hashes, mutated => (hashes.headD 0, mutated)
  | fuel + 1, hashes, mutated =>
    if hashes.length ≤ 1 then (hashes.headD 0, mutated)
    else merkleLoop fuel (merkleLevel C hashes) (mutated || merkleMutated hashes)

def computeMerkleRoot (hashes : List Uint256) : Uint256 × Bool :=
  merkleLoop C hashes.length hashes false

def blockMerkleRoot (block : CBlock) : Uint256 × Bool :=
  computeMerkleRoot C (block.vtx.map (·.getHash C))

def blockWitnessMerkleRoot (block : CBlock) : Uint256 :=
  (computeMerkleRoot C (0 :: block.vtx.tail.map (·.getWitnessHash C))).1

end Merkle

/-! ## Genesis -/

/-- `CreateGenesisBlock`: the coinbase pushes the time stamp phrase and has one empty output. -/
def Network.genesisCoinbase (net : Network) : CTransaction where
  vin := [{ prevout := .null, scriptSig := [0, 1, 0x2a, 0x2d] ++
    "CNBC 29/Jul/2026 Fed meeting recap: July 2026".toList.map fun c => UInt8.ofNat c.toNat }]
  vout := [⟨0, []⟩]
  nVersion := 1
  nTime := net.params.genesisTime

def Network.genesis (C : Crypto) (net : Network) : CBlock where
  nVersion := 7
  hashPrevBlock := 0
  hashMerkleRoot := (computeMerkleRoot C [net.genesisCoinbase.getHash C]).1
  nTime := net.params.genesisTime
  nBits := net.params.genesisBits
  nNonce := net.params.genesisNonce
  vtx := [net.genesisCoinbase]

def Network.hashGenesisBlock (C : Crypto) (net : Network) : Uint256 :=
  (net.genesis C).getHash C

/-! ## Script flags -/

def getBlockScriptFlags (net : Network) (pindex : CBlockIndex) (pprev : IndexChain) : ScriptFlags where
  p2sh := true
  dersig := true
  derkey := true
  lowS := true
  witness := deploymentActiveAfter net pprev .segwit
  checklocktimeverify := net.params.isProtocolV3 pindex.nTime
  nulldummy := net.params.isProtocolV3 pindex.nTime
  checksequenceverify := deploymentActiveAtCSV net pprev.length
  taproot := deploymentActiveAfter net pprev .taproot

/-! ## Block signatures -/

def isCompressedOrUncompressedPubKey (vch : List UInt8) : Bool :=
  match vch with
  | [] => false
  | b :: _ => (b == 4 && vch.length == 65) || ((b == 2 || b == 3) && vch.length == 33)

def matchPayToPubkey (script : CScript) : Option (List UInt8) :=
  let pubkey (size : Nat) : Option (List UInt8) :=
    if script.length = size + 2 ∧ script.head? = some (UInt8.ofNat size) ∧ script.getLast? = some opChecksig then
      some ((script.drop 1).take size)
    else none
  match pubkey 65 with
  | some k => if pubKeyValidSize k then some k else none
  | none =>
    match pubkey 33 with
    | some k => if pubKeyValidSize k then some k else none
    | none => none

/-- The key that `CheckBlockSignature` takes from the script of `vtx[1]->vout[1]`: a pay-to-pubkey key, or a key
pushed after `OP_RETURN`. -/
def blockSigningKey (script : CScript) : Option (List UInt8) :=
  match matchPayToPubkey script with
  | some k => some k
  | none =>
    match getScriptOp script with
    | some ((opcode, _), pc) =>
      if opcode ≠ opReturn.toNat then none
      else match getScriptOp pc with
        | some ((_, vchPushValue), _) =>
          if isCompressedOrUncompressedPubKey vchPushValue then some vchPushValue else none
        | none => none
    | none => none

def checkBlockSignature (C : Crypto) (block : CBlock) : Bool :=
  if !block.isProofOfStake then block.vchBlockSig.isEmpty
  else if block.vchBlockSig.isEmpty then false
  else match block.vtx with
    | _ :: tx1 :: _ =>
      match tx1.vout with
      | _ :: txout :: _ =>
        match blockSigningKey txout.scriptPubKey with
        | some key => C.pubKeyVerify key (block.getHash C) block.vchBlockSig
        | none => false
      | _ => false
    | _ => false

/-! ## Witness commitments -/

/-- The test of one output in `GetWitnessCommitmentIndex`. -/
def isWitnessCommitment (script : CScript) : Bool :=
  decide (script.length ≥ 38 ∧ script.take 6 = [opReturn, 0x24, 0xaa, 0x21, 0xa9, 0xed])

def getWitnessCommitmentIndex (block : CBlock) : Option Nat :=
  match block.vtx with
  | [] => none
  | tx0 :: _ =>
    tx0.vout.zipIdx.foldl (fun commitpos (out, o) => if isWitnessCommitment out.scriptPubKey then some o else commitpos)
      none

def checkWitnessMalleation (C : Crypto) (block : CBlock) (expectWitnessCommitment : Bool) : BlockCheck Unit :=
  let noWitness : BlockCheck Unit :=
    require (block.vtx.all fun tx => !tx.hasWitness) (.invalid .blockMutated "unexpected-witness")
  if !expectWitnessCommitment then noWitness
  else match getWitnessCommitmentIndex block with
    | none => noWitness
    | some commitpos =>
      match block.vtx with
      | { vin := txin :: _, vout := vout, .. } :: _ =>
        match txin.scriptWitness with
        | [nonce] => do
          require (nonce.length == 32) (.invalid .blockMutated "bad-witness-nonce-size")
          let hashWitness := C.hash256 (serUint256 (blockWitnessMerkleRoot C block) ++ nonce)
          require (((vout.getD commitpos ⟨0, []⟩).scriptPubKey.drop 6).take 32 == serUint256 hashWitness)
            (.invalid .blockMutated "bad-witness-merkle-match")
        | _ => .error (.invalid .blockMutated "bad-witness-nonce-size")
      | _ => .error (.abort "assert(!block.vtx.empty() && !block.vtx[0]->vin.empty())")

/-! ## `CheckBlock` -/

section CheckBlock

variable (E : Env) {block : CBlock}

def futureDrift (net : Network) (chainHeight : Int) (nTime : Int) : Int :=
  if net.params.fPowNoRetargeting ∧ chainHeight ≤ net.params.nLastPOWBlock then nTime + 24 * 60 * 60
  else if net.params.isProtocolV2 nTime then nTime + 15 else nTime + 10 * 60

def checkBlockHeader (header : CBlockHeader) (chainHeight : Int) (fCheckPOW : Bool) : BlockCheck Unit := do
  require (!(decide (header.nVersion < 7) && E.net.params.isProtocolV2 header.nTime))
    (.invalid .blockInvalidHeader "bad-version")
  require (!fCheckPOW || checkProofOfWork E.net (header.getPoWHash E.crypto) header.nBits)
    (.invalid .blockInvalidHeader "high-hash")
  require (decide ((header.nTime : Int) ≤ futureDrift E.net chainHeight E.adjustedTime))
    (.invalid .blockInvalidHeader "time-too-new")

def checkMerkleRoot (block : CBlock) : BlockCheck Unit := do
  require (block.hashMerkleRoot == (blockMerkleRoot E.crypto block).1) (.invalid .blockMutated "bad-txnmrklroot")
  require (!(blockMerkleRoot E.crypto block).2) (.invalid .blockMutated "bad-txns-duplicate")

def txTimeIn (block : CBlock) (tx : CTransaction) : Nat :=
  if tx.nTime ≠ 0 then tx.nTime else block.nTime

/-- The rules of `CheckBlock` for a proof-of-stake block: an empty coinbase and a single coinstake. -/
def checkStakeBlock (block : CBlock) : BlockCheck Unit :=
  match block.vtx with
  | tx0 :: tx1 :: rest => do
    require (match getWitnessCommitmentIndex block, tx0.vout with
        | none, [out0] => out0.isEmpty
        | some _, [out0, out1] => out0.isEmpty && decide (out1.nValue = 0)
        | _, _ => false)
      (.invalid .blockConsensus "bad-cb-not-empty")
    require tx1.isCoinStake (.invalid .blockConsensus "bad-cs-missing")
    require (rest.all fun tx => !tx.isCoinStake) (.invalid .blockConsensus "bad-cs-multiple")
  | _ => .error (.invalid .blockConsensus "bad-cs-missing")

/-- `CheckBlock`, without the memo of a block that passed before. The time check on transactions that the source has
after a `return` is unreachable there and absent here. -/
def checkBlock (block : CBlock) (chainHeight : Int) (fCheckPOW fCheckMerkleRoot fCheckSig : Bool) :
    BlockCheck Unit := do
  checkBlockHeader E block.getBlockHeader chainHeight (fCheckPOW && !block.isProofOfStake)
  require (!(E.net.params.signetBlocks && fCheckPOW && !E.checkSignetBlockSolution block))
    (.invalid .blockConsensus "bad-signet-blksig")
  when fCheckMerkleRoot (checkMerkleRoot E block)
  require (decide (block.vtx.length ≠ 0 ∧ block.vtx.length * witnessScaleFactor ≤ maxBlockWeight ∧
      (block.serialize false).length * witnessScaleFactor ≤ maxBlockWeight))
    (.invalid .blockConsensus "bad-blk-length")
  require ((block.vtx.head?.map (·.isCoinBase)).getD false) (.invalid .blockConsensus "bad-cb-missing")
  require (block.vtx.tail.all fun tx => !tx.isCoinBase) (.invalid .blockConsensus "bad-cb-multiple")
  require (block.vtx.head?.all fun tx0 =>
      decide ((block.nTime : Int) ≤ futureDrift E.net chainHeight (txTimeIn block tx0)))
    (.invalid .blockConsensus "bad-cb-time")
  require (!block.isProofOfStake || (block.vtx[1]?.all fun tx1 =>
      checkCoinStakeTimestamp E.net block.nTime (txTimeIn block tx1)))
    (.invalid .blockConsensus "bad-cs-time")
  when block.isProofOfStake (checkStakeBlock block)
  require (!fCheckSig || checkBlockSignature E.crypto block) (.invalid .blockConsensus "bad-blk-signature")
  block.vtx.forM fun tx => (checkTransaction tx).toBlock
  require (decide ((block.vtx.map getLegacySigOpCount).sum * witnessScaleFactor ≤ maxBlockSigopsCost))
    (.invalid .blockConsensus "bad-blk-sigops")

/-- What `CheckBlock` establishes about the transactions of a block. -/
structure CheckedBlock (block : CBlock) : Prop where
  head : ∃ tx0 rest, block.vtx = tx0 :: rest ∧ tx0.isCoinBase = true ∧ ∀ tx ∈ rest, tx.isCoinBase = false
  txs : ∀ tx ∈ block.vtx, CheckedTransaction tx
  stake : block.isProofOfStake = true → ∃ tx0 tx1 rest, block.vtx = tx0 :: tx1 :: rest ∧ tx0.valueOut = 0 ∧
    (∀ tx ∈ rest, tx.isCoinStake = false) ∧ checkCoinStakeTimestamp E.net block.nTime (txTimeIn block tx1) = true

theorem checkStakeBlock_eq_ok (h : checkStakeBlock block = .ok ()) :
    ∃ tx0 tx1 rest, block.vtx = tx0 :: tx1 :: rest ∧ tx0.valueOut = 0 ∧ ∀ tx ∈ rest, tx.isCoinStake = false := by
  unfold checkStakeBlock at h
  split at h
  · next tx0 tx1 rest hvtx =>
    obtain ⟨hempty, h⟩ := require_bind_eq_ok.1 h
    obtain ⟨-, h⟩ := require_bind_eq_ok.1 h
    refine ⟨tx0, tx1, rest, hvtx, ?_, by simpa using h⟩
    unfold CTransaction.valueOut
    split at hempty
    · next out0 _ hout => simp_all [CTxOut.isEmpty]
    · next _ out0 out1 _ hout => simp_all [CTxOut.isEmpty]
    · cases hempty
  · cases h

theorem checkBlock_eq_ok {chainHeight : Int} {fCheckPOW fCheckMerkleRoot fCheckSig : Bool}
    (h : checkBlock E block chainHeight fCheckPOW fCheckMerkleRoot fCheckSig = .ok ()) : CheckedBlock E block := by
  obtain ⟨-, -, h⟩ := bind_eq_ok.1 h
  obtain ⟨-, h⟩ := require_bind_eq_ok.1 h
  obtain ⟨-, -, h⟩ := bind_eq_ok.1 h
  obtain ⟨-, h⟩ := require_bind_eq_ok.1 h
  obtain ⟨hcb, h⟩ := require_bind_eq_ok.1 h
  obtain ⟨hmultiple, h⟩ := require_bind_eq_ok.1 h
  obtain ⟨-, h⟩ := require_bind_eq_ok.1 h
  obtain ⟨htime, h⟩ := require_bind_eq_ok.1 h
  obtain ⟨⟨⟩, hstake, h⟩ := bind_eq_ok.1 h
  obtain ⟨-, h⟩ := require_bind_eq_ok.1 h
  obtain ⟨⟨⟩, htxs, -⟩ := bind_eq_ok.1 h
  refine ⟨?_, ?_, fun hpos => ?_⟩
  · cases hvtx : block.vtx with
    | nil => simp [hvtx] at hcb
    | cons tx0 rest => exact ⟨tx0, rest, rfl, by simpa [hvtx] using hcb, by simpa [hvtx] using hmultiple⟩
  · exact fun tx htx => checkTransaction_eq_ok (by simpa using forM_eq_ok htxs tx htx)
  · rw [hpos, when_true] at hstake
    obtain ⟨tx0, tx1, rest, hvtx, hzero, hrest⟩ := checkStakeBlock_eq_ok hstake
    exact ⟨tx0, tx1, rest, hvtx, hzero, hrest, by simpa [hpos, hvtx] using htime⟩

end CheckBlock

/-! ## `ContextualCheckBlock` -/

/-- The checks of `ContextualCheckBlock` on the transactions: all are final, and the coinbase starts with the height. -/
def contextualCheckTxs (E : Env) (block : CBlock) (pindexPrev : IndexChain) : BlockCheck Unit := do
  let nHeight := pindexPrev.length
  let nLockTimeCutoff : Int :=
    if deploymentActiveAtCSV E.net nHeight then getMedianTimePast E.net pindexPrev else block.nTime
  require (block.vtx.all fun tx => isFinalTx tx nHeight nLockTimeCutoff) (.invalid .blockConsensus "bad-txns-nonfinal")
  let scriptSig := ((block.vtx.head?.bind fun tx => tx.vin.head?).map (·.scriptSig)).getD []
  require ((pushInt64 nHeight).isPrefixOf scriptSig) (.invalid .blockConsensus "bad-cb-height")

def contextualCheckBlock (E : Env) (block : CBlock) (pindexPrev : IndexChain) : BlockCheck Unit := do
  contextualCheckTxs E block pindexPrev
  checkWitnessMalleation E.crypto block (deploymentActiveAfter E.net pindexPrev .segwit)
  require (decide ((block.serialize false).length * (witnessScaleFactor - 1) + (block.serialize true).length
      ≤ maxBlockWeight))
    (.invalid .blockConsensus "bad-blk-weight")

end CodexaCoin
