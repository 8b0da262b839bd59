import Mathlib

/-!
# Consensus parameters

`consensus/params.h`, `consensus/amount.h` and the four parameter sets of `kernel/chainparams.cpp`.
-/

namespace CodexaCoin

/-! ## Amounts

A `CAmount` is an `Int` in the range of `int64_t`; where the code adds amounts, the model wraps the sum. -/

def coin : Int := 100000000

def maxMoney : Int := 2 ^ 63 - 1

def moneyRange (nValue : Int) : Bool :=
  decide (0 ≤ nValue ∧ nValue ≤ maxMoney)

theorem moneyRange_iff {v : Int} : moneyRange v = true ↔ 0 ≤ v ∧ v ≤ maxMoney := by
  simp [moneyRange]

/-! ## Parameters -/

namespace Consensus

def maxBlockWeight : Nat := 4000000

def maxBlockSigopsCost : Nat := 80000

def witnessScaleFactor : Nat := 4

/-- The slots of `vDeployments`. -/
inductive DeploymentPos where
  | testdummy
  | segwit
  | taproot
deriving DecidableEq, Repr

/-- One version-bits deployment; the defaults are those of the class. -/
structure BIP9Deployment where
  bit : Nat := 28
  nStartTime : Int := -2
  nTimeout : Int := -2
  minActivationHeight : Int := 0

def BIP9Deployment.noTimeout : Int := 2 ^ 63 - 1

def BIP9Deployment.alwaysActive : Int := -1

def BIP9Deployment.neverActive : Int := -2

/-- The fields of `Consensus::Params` that a modelled function reads. -/
structure Params where
  signetBlocks : Bool := false
  nMaxReorganizationDepth : Int := 500
  csvHeight : Int
  segwitHeight : Int
  powLimit : Nat
  posLimit : Nat := 2 ^ 236 - 1
  posLimitV2 : Nat := 2 ^ 208 - 1
  nTargetTimespan : Int := 16 * 60
  nTargetSpacingV1 : Int
  nTargetSpacing : Int := 64
  fPowAllowMinDifficultyBlocks : Bool := false
  fPowNoRetargeting : Bool := false
  fPoSNoRetargeting : Bool := false
  nRuleChangeActivationThreshold : Nat
  nMinerConfirmationWindow : Nat := 15000
  vDeployments : DeploymentPos → BIP9Deployment
  nProtocolV1RetargetingFixedTime : Int := 1395631999
  nProtocolV2Time : Int := 1407053625
  nProtocolV3Time : Int := 1444028400
  nProtocolV3_1Time : Int := 1713938400
  nLastPOWBlock : Int := 500
  nStakeTimestampMask : Nat := 0xf
  nCoinbaseMaturity : Int
  nPremineTotal : Int := 14000000000 * coin
  nStakeRewardAnnualBP : Int := 1368
  nStakeRewardAgeCapSeconds : Int := 60 * 24 * 60 * 60
  genesisTime : Nat := 1785326400
  genesisNonce : Nat
  genesisBits : Nat

namespace Params

variable (p : Params) (nTime : Int)

def isProtocolV1RetargetingFixed : Bool :=
  decide (nTime > p.nProtocolV1RetargetingFixedTime ∧ nTime ≠ 1395631999)

def isProtocolV2 : Bool :=
  decide (nTime > p.nProtocolV2Time ∧ nTime ≠ 1407053678)

def isProtocolV3 : Bool :=
  decide (nTime > p.nProtocolV3Time ∧ nTime ≠ 1444028400)

def isProtocolV3_1 : Bool :=
  decide (nTime > p.nProtocolV3_1Time ∧ nTime ≠ 1713938400)

end Params

end Consensus

open Consensus

/-- The networks of `kernel/chainparams.cpp`. -/
inductive Network where
  | main
  | testnet
  | signet
  | regtest
deriving DecidableEq, Repr

namespace Network

/-- `CMainParams`: every version-bits slot is `NEVER_ACTIVE`, the comment there notwithstanding. -/
def mainParams : Params where
  csvHeight := 0
  segwitHeight := 0
  powLimit := 2 ^ 236 - 1
  nTargetSpacingV1 := 60
  nRuleChangeActivationThreshold := 12000
  vDeployments
    | .testdummy => { bit := 28, nStartTime := BIP9Deployment.neverActive, nTimeout := BIP9Deployment.noTimeout }
    | .segwit => { bit := 1, nStartTime := BIP9Deployment.neverActive, nTimeout := BIP9Deployment.noTimeout }
    | .taproot => { bit := 2, nStartTime := BIP9Deployment.neverActive, nTimeout := BIP9Deployment.noTimeout }
  nCoinbaseMaturity := 500
  genesisNonce := 2473299
  genesisBits := 0x1e0fffff

def testNetParams : Params where
  csvHeight := 0
  segwitHeight := 0
  powLimit := 2 ^ 240 - 1
  nTargetSpacingV1 := 60
  fPowAllowMinDifficultyBlocks := true
  nRuleChangeActivationThreshold := 11250
  vDeployments
    | .testdummy => { bit := 28, nStartTime := BIP9Deployment.neverActive, nTimeout := BIP9Deployment.noTimeout }
    | .segwit => { bit := 1, nStartTime := BIP9Deployment.neverActive, nTimeout := BIP9Deployment.noTimeout }
    | .taproot => { bit := 2, nStartTime := BIP9Deployment.neverActive, nTimeout := BIP9Deployment.noTimeout }
  nProtocolV3_1Time := 1667779200
  nCoinbaseMaturity := 10
  genesisNonce := 73100
  genesisBits := 0x1f00ffff

/-- `SigNetParams`; the segwit slot is not assigned there and keeps the defaults of `BIP9Deployment`. -/
def sigNetParams : Params where
  signetBlocks := true
  csvHeight := 1
  segwitHeight := 1
  powLimit := 2 ^ 240 - 1
  nTargetSpacingV1 := 64
  nRuleChangeActivationThreshold := 12000
  vDeployments
    | .testdummy => { bit := 28, nStartTime := BIP9Deployment.neverActive, nTimeout := BIP9Deployment.noTimeout }
    | .segwit => {}
    | .taproot => { bit := 2, nStartTime := BIP9Deployment.neverActive, nTimeout := BIP9Deployment.noTimeout }
  nProtocolV1RetargetingFixedTime := 1707168541
  nProtocolV2Time := 1707168542
  nProtocolV3Time := 1707168543
  nProtocolV3_1Time := 1707168544
  nLastPOWBlock := 0x7fffffff
  nCoinbaseMaturity := 10
  nPremineTotal := 0
  genesisNonce := 73100
  genesisBits := 0x1f00ffff

def regTestParams : Params where
  nMaxReorganizationDepth := 50
  csvHeight := 1
  segwitHeight := 1
  powLimit := 2 ^ 255 - 1
  nTargetSpacingV1 := 64
  fPowAllowMinDifficultyBlocks := true
  fPowNoRetargeting := true
  fPoSNoRetargeting := true
  nRuleChangeActivationThreshold := 120
  nMinerConfirmationWindow := 150
  vDeployments
    | .testdummy => { bit := 28, nStartTime := 0, nTimeout := BIP9Deployment.noTimeout }
    | .segwit => { bit := 1, nStartTime := BIP9Deployment.alwaysActive, nTimeout := 0 }
    | .taproot => { bit := 2, nStartTime := BIP9Deployment.neverActive, nTimeout := BIP9Deployment.noTimeout }
  nCoinbaseMaturity := 10
  genesisNonce := 1
  genesisBits := 0x207fffff

/-- `CChainParams::GetConsensus` of a network. -/
def params : Network → Params
  | main => mainParams
  | testnet => testNetParams
  | signet => sigNetParams
  | regtest => regTestParams

theorem isProtocolV2_of_isProtocolV3 (net : Network) {t : Int} (h : net.params.isProtocolV3 t = true) :
    net.params.isProtocolV2 t = true := by
  simp only [Params.isProtocolV2, Params.isProtocolV3, decide_eq_true_eq] at h ⊢
  cases net <;>
    simp only [params, mainParams, testNetParams, sigNetParams, regTestParams] at h ⊢ <;> omega

end Network

end CodexaCoin
