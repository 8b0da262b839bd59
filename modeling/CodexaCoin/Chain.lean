import CodexaCoin.Arith
import CodexaCoin.Primitives

/-!
# Chains of block indexes and difficulty

`chain.h`, `chain.cpp` and `pow.cpp`. A `CBlockIndex*` is the list of the entry and its ancestors, tip first, with `[]`
for `nullptr`; `pprev` is `List.tail` and `nHeight` is one less than the length.
-/

namespace CodexaCoin

open Consensus

/-- `CBlockIndex`: the header fields, the proof-of-stake bit of `nFlags` and the stake modifier. -/
structure CBlockIndex where
  hash : Uint256
  nVersion : Int := 7
  nTime : Nat
  nBits : Nat
  fProofOfStake : Bool := false
  nStakeModifier : Uint256 := 0
deriving DecidableEq, Repr

abbrev IndexChain := List CBlockIndex

/-- `CBlockIndex(const CBlockHeader&)` with the hash that the index map assigns. -/
def CBlockIndex.ofHeader (C : Crypto) (header : CBlockHeader) (fProofOfStake : Bool) : CBlockIndex where
  hash := header.getHash C
  nVersion := header.nVersion
  nTime := header.nTime
  nBits := header.nBits
  fProofOfStake := fProofOfStake

namespace IndexChain

def nHeight (chain : IndexChain) : Int :=
  (chain.length : Int) - 1

/-- The entry at a height. -/
def getAncestor (chain : IndexChain) (height : Int) : IndexChain :=
  if height > nHeight chain ∨ height < 0 then [] else chain.drop (chain.length - 1 - height.toNat)

/-- `CBlockIndex::GetMedianTimePast`: the block's own time since protocol V2, else the median of eleven. -/
def getMedianTimePast (net : Network) (chain : IndexChain) : Int :=
  match chain with
  | [] => 0
  | pindex :: _ =>
    if net.params.isProtocolV2 pindex.nTime then pindex.nTime
    else
      let times := ((chain.take 11).map (·.nTime)).insertionSort (· ≤ ·)
      times.getD (times.length / 2) 0

/-- `GetLastBlockIndex`: the nearest block of the wanted kind, or the genesis block. -/
def getLastBlockIndex (fProofOfStake : Bool) : IndexChain → IndexChain
  | pindex :: pprev :: rest =>
    if pindex.fProofOfStake != fProofOfStake then getLastBlockIndex fProofOfStake (pprev :: rest)
    else pindex :: pprev :: rest
  | chain => chain

theorem getLastBlockIndex_suffix (fProofOfStake : Bool) (chain : IndexChain) :
    getLastBlockIndex fProofOfStake chain <:+ chain := by
  fun_induction getLastBlockIndex fProofOfStake chain with
  | case1 pindex pprev rest _ ih => exact ih.trans (List.suffix_cons _ _)
  | case2 => exact List.suffix_refl _
  | case3 => exact List.suffix_refl _

end IndexChain

open IndexChain

/-! ## Difficulty -/

section Difficulty

variable (net : Network)

def getBlockProof (nBits : Nat) : ArithUint256 :=
  let t := setCompact nBits
  if t.fNegative ∨ t.fOverflow ∨ t.target = 0 then 0
  else ArithUint256.div (~~~t.target) (t.target + 1) + 1

def getTargetLimit (nTime : Int) (fProofOfStake : Bool) : ArithUint256 :=
  if fProofOfStake then
    if net.params.isProtocolV2 nTime then BitVec.ofNat 256 net.params.posLimitV2
    else BitVec.ofNat 256 net.params.posLimit
  else BitVec.ofNat 256 net.params.powLimit

def calculateNextTargetRequired (pindexLast : CBlockIndex) (nFirstBlockTime : Int) (fProofOfStake : Bool) : Nat :=
  let p := net.params
  if (if fProofOfStake then p.fPoSNoRetargeting else p.fPowNoRetargeting) then pindexLast.nBits
  else
    let t : Int := pindexLast.nTime
    let nTargetSpacing := if p.isProtocolV2 t then p.nTargetSpacing else p.nTargetSpacingV1
    let nActualSpacing := t - nFirstBlockTime
    let nActualSpacing :=
      if p.isProtocolV1RetargetingFixed t ∧ nActualSpacing < 0 then nTargetSpacing else nActualSpacing
    let nActualSpacing :=
      if p.isProtocolV3 t ∧ nActualSpacing > nTargetSpacing * 10 then nTargetSpacing * 10 else nActualSpacing
    let bnTargetLimit := getTargetLimit net t fProofOfStake
    let nInterval := p.nTargetTimespan / nTargetSpacing
    let bnNew := (setCompact pindexLast.nBits).target
    let bnNew := bnNew.mulAssign32 ((nInterval - 1) * nTargetSpacing + nActualSpacing + nActualSpacing)
    let bnNew := bnNew.div (BitVec.ofInt 256 ((nInterval + 1) * nTargetSpacing))
    getCompact (if bnNew = 0 ∨ bnNew > bnTargetLimit then bnTargetLimit else bnNew)

/-- The retarget rule. -/
def getNextTargetRequired (pindexLast : IndexChain) (fProofOfStake : Bool) : Nat :=
  match pindexLast with
  | [] => getCompact (BitVec.ofNat 256 net.params.powLimit)
  | last :: _ =>
    let nTargetLimit := getCompact (getTargetLimit net last.nTime fProofOfStake)
    match getLastBlockIndex fProofOfStake pindexLast with
    | pindexPrev :: pprev :: rest =>
      match getLastBlockIndex fProofOfStake (pprev :: rest) with
      | pindexPrevPrev :: _ :: _ =>
        if net = .regtest then getCompact (setCompact 0x207fffff).target
        else calculateNextTargetRequired net pindexPrev pindexPrevPrev.nTime fProofOfStake
      | _ => nTargetLimit
    | _ => nTargetLimit

def checkProofOfWork (hash : Uint256) (nBits : Nat) : Bool :=
  let t := setCompact nBits
  if t.fNegative ∨ t.target = 0 ∨ t.fOverflow ∨ t.target.toNat > net.params.powLimit then false
  else decide (hash.toNat ≤ t.target.toNat)

end Difficulty

/-! ## Version bits -/

section VersionBits

variable (net : Network)

inductive ThresholdState where
  | defined
  | started
  | lockedIn
  | active
  | failed
deriving DecidableEq, Repr

/-- `VersionBitsConditionChecker::Condition`: the top bits `001` and the deployment's own bit. -/
def versionBitsCondition (pos : DeploymentPos) (pindex : CBlockIndex) : Bool :=
  let nVersion := (pindex.nVersion % 2 ^ 32).toNat
  decide (nVersion &&& 0xE0000000 = 0x20000000) && nVersion.testBit (net.params.vDeployments pos).bit

/-- One step of the walk forward in `GetStateFor`, at the last block of a period. -/
def thresholdStep (pos : DeploymentPos) (state : ThresholdState) (pindexPrev : IndexChain) : ThresholdState :=
  let dep := net.params.vDeployments pos
  match state with
  | .defined => if getMedianTimePast net pindexPrev ≥ dep.nStartTime then .started else .defined
  | .started =>
    if ((pindexPrev.take net.params.nMinerConfirmationWindow).countP (versionBitsCondition net pos))
        ≥ net.params.nRuleChangeActivationThreshold then .lockedIn
    else if getMedianTimePast net pindexPrev ≥ dep.nTimeout then .failed
    else .started
  | .lockedIn => if nHeight pindexPrev + 1 ≥ dep.minActivationHeight then .active else .lockedIn
  | .failed => .failed
  | .active => .active

/-- The two walks of `GetStateFor` over the ends of the periods; the cache only stores what they compute. -/
def thresholdWalk (pos : DeploymentPos) : (fuel : Nat) → IndexChain → ThresholdState
  | 0, _ => .defined
  | fuel + 1, pindexPrev =>
    if pindexPrev.isEmpty then .defined
    else if getMedianTimePast net pindexPrev < (net.params.vDeployments pos).nStartTime then .defined
    else thresholdStep net pos (thresholdWalk pos fuel (pindexPrev.drop net.params.nMinerConfirmationWindow)) pindexPrev

def getStateFor (pos : DeploymentPos) (pindexPrev : IndexChain) : ThresholdState :=
  let dep := net.params.vDeployments pos
  if dep.nStartTime = BIP9Deployment.alwaysActive then .active
  else if dep.nStartTime = BIP9Deployment.neverActive then .failed
  else thresholdWalk net pos pindexPrev.length (pindexPrev.drop (pindexPrev.length % net.params.nMinerConfirmationWindow))

def deploymentActiveAfter (pindexPrev : IndexChain) (pos : DeploymentPos) : Bool :=
  decide (getStateFor net pos pindexPrev = .active)

/-- `DeploymentActiveAt` of the buried deployment `DEPLOYMENT_CSV`, for a block at a height. -/
def deploymentActiveAtCSV (nHeight : Int) : Bool :=
  decide (nHeight ≥ net.params.csvHeight)

end VersionBits

end CodexaCoin
