import CodexaCoin.Script.Interpreter

/-!
# Signature hashes and the checker of a transaction

`SignatureHash` and `GenericTransactionSignatureChecker` of `script/interpreter.cpp`. Both kinds of signature hash
include `nTime` for transactions of versions below 2 only, as the serialization does.
-/

namespace CodexaCoin

open Check

section SignatureHash

variable (C : Crypto) (scriptCode : CScript) (txTo : CTransaction) (nIn nHashType : Nat)

/-- `SIGHASH_ANYONECANPAY` is set. -/
def fAnyoneCanPay : Bool := nHashType.testBit 7

/-- The hash type is `SIGHASH_NONE`. -/
def fHashNone : Bool := nHashType % 32 == 2

/-- The hash type is `SIGHASH_SINGLE`. -/
def fHashSingle : Bool := nHashType % 32 == 3

def COutPoint.serialize (o : COutPoint) : List UInt8 := serUint256 o.hash ++ serLE 4 o.n

def serVersion : List UInt8 :=
  serInt 4 txTo.nVersion ++ if txTo.nVersion < 2 then serLE 4 txTo.nTime else []

/-- The bytes hashed by `SignatureHash` for `WITNESS_V0`. -/
def witnessPreimage (amount : Int) : List UInt8 :=
  let other := fHashSingle nHashType || fHashNone nHashType
  let hashPrevouts := if fAnyoneCanPay nHashType then 0
    else C.hash256 (txTo.vin.flatMap fun txin => txin.prevout.serialize)
  let hashSequence := if fAnyoneCanPay nHashType || other then 0
    else C.hash256 (txTo.vin.flatMap fun txin => serLE 4 txin.nSequence)
  let hashOutputs :=
    if !other then C.hash256 (txTo.vout.flatMap CTxOut.serialize)
    else match fHashSingle nHashType, txTo.vout[nIn]? with
      | true, some out => C.hash256 out.serialize
      | _, _ => 0
  let txin := txTo.vin.getD nIn ⟨.null, [], 0, []⟩
  serVersion txTo ++ serUint256 hashPrevouts ++ serUint256 hashSequence
    ++ txin.prevout.serialize ++ serBytes scriptCode ++ serInt 8 amount ++ serLE 4 txin.nSequence
    ++ serUint256 hashOutputs ++ serLE 4 txTo.nLockTime ++ serLE 4 nHashType

/-- A script without its code separators. The source stops writing inside an instruction that cannot be read; such a
script fails in `EvalScript` whatever its signatures are. -/
def withoutCodeSeparators : (fuel : Nat) → CScript → CScript
  | 0, pc => pc
  | fuel + 1, pc =>
    match getScriptOp pc with
    | none => pc
    | some (op, pc') =>
      (if op.1 = 0xab then [] else pc.take (pc.length - pc'.length)) ++ withoutCodeSeparators fuel pc'

def serializeInput (txin : CTxIn) (nInput : Nat) : List UInt8 :=
  txin.prevout.serialize
    ++ serBytes (if nInput = nIn then withoutCodeSeparators (scriptCode.length + 1) scriptCode else [])
    ++ serLE 4 (if nInput ≠ nIn ∧ (fHashSingle nHashType || fHashNone nHashType) then 0 else txin.nSequence)

/-- The bytes that `CTransactionSignatureSerializer` writes. -/
def basePreimage : List UInt8 :=
  let inputs := txTo.vin.zipIdx.filter fun (_, nInput) => !fAnyoneCanPay nHashType || nInput == nIn
  let outputs :=
    if fHashNone nHashType then []
    else if fHashSingle nHashType then
      (txTo.vout.take (nIn + 1)).zipIdx.map fun (out, nOutput) => if nOutput = nIn then out else ⟨-1, []⟩
    else txTo.vout
  serVersion txTo
    ++ serVector (inputs.map fun (txin, nInput) => serializeInput scriptCode nIn nHashType txin nInput)
    ++ serVector (outputs.map CTxOut.serialize)
    ++ serLE 4 txTo.nLockTime ++ serLE 4 nHashType

def signatureHash (amount : Int) : SigVersion → Uint256
  | .witnessV0 => C.hash256 (witnessPreimage C scriptCode txTo nIn nHashType amount)
  | .base =>
    if fHashSingle nHashType && decide (txTo.vout.length ≤ nIn) then 1
    else C.hash256 (basePreimage scriptCode txTo nIn nHashType)

end SignatureHash

section Checker

variable (C : Crypto) (taproot : CTransaction → Nat → List Valtype → List UInt8 → Bool) (txTo : CTransaction) (nIn : Nat)
  (amount : Int)

def checkECDSASignature (vchSigIn vchPubKey : Valtype) (scriptCode : CScript) (sigversion : SigVersion) : Bool :=
  pubKeyValidSize vchPubKey &&
    match vchSigIn.getLast? with
    | none => false
    | some nHashType =>
      !(sigversion == .witnessV0 && decide (amount < 0)) &&
        C.pubKeyVerify vchPubKey (signatureHash C scriptCode txTo nIn nHashType.toNat amount sigversion) vchSigIn.dropLast

def locktimeThreshold : Nat := 500000000

def inputSequence : Nat := (txTo.vin.getD nIn ⟨.null, [], 0, []⟩).nSequence

def checkLockTime (nLockTime : Int) : Bool :=
  decide (txTo.nLockTime < locktimeThreshold ↔ nLockTime < locktimeThreshold)
    && decide (nLockTime ≤ txTo.nLockTime) && inputSequence txTo nIn != 0xffffffff

def checkSequence (nSequence : Int) : Bool :=
  let mask := 0x40ffff
  let txToSequenceMasked := inputSequence txTo nIn &&& mask
  let nSequenceMasked := nSequence.toNat &&& mask
  decide (2 ≤ txTo.nVersion % 2 ^ 32) && !(inputSequence txTo nIn).testBit 31
    && decide (txToSequenceMasked < 0x400000 ↔ nSequenceMasked < 0x400000)
    && decide (nSequenceMasked ≤ txToSequenceMasked)

def transactionSignatureChecker : SignatureChecker where
  checkECDSASignature := checkECDSASignature C txTo nIn amount
  checkLockTime := checkLockTime txTo nIn
  checkSequence := checkSequence txTo nIn
  verifyTaproot := taproot txTo nIn

/-- `VerifyScript` as `CheckInputScripts` calls it. -/
def transactionVerifyScript (scriptSig scriptPubKey : CScript) (witness : List (List UInt8)) (flags : ScriptFlags)
    (txTo : CTransaction) (nIn : Nat) (amount : Int) : Bool :=
  (verifyScript C (transactionSignatureChecker C taproot txTo nIn amount) flags scriptSig scriptPubKey witness).isOk

end Checker

end CodexaCoin
