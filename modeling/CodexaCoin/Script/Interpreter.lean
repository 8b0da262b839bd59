import CodexaCoin.Lib.Check
import CodexaCoin.Script.Script

/-!
# The script interpreter

`script/interpreter.cpp`: `EvalScript` for scripts of version `BASE` and `WITNESS_V0`, `VerifyWitnessProgram` and
`VerifyScript`, with the flags that `GetBlockScriptFlags` can set. The checks behind the flags of relay policy
(`STRICTENC`, `MINIMALDATA`, `NULLFAIL`, `CLEANSTACK` and so on) never run for a block and are left out. Nothing reads
`SCRIPT_VERIFY_DERKEY`. The taproot branch is a function of the checker.
-/

namespace CodexaCoin

open Check

/-! ## Errors, versions and the checker -/

/-- The errors of `script_error.h` that these functions can set. -/
inductive ScriptError where
  | unknownError | evalFalse | opReturn | scriptSize | pushSize | opCount | stackSize | sigCount | pubkeyCount
  | verify | equalVerify | checkMultisigVerify | checkSigVerify | numEqualVerify
  | badOpcode | disabledOpcode | invalidStackOperation | invalidAltstackOperation | unbalancedConditional
  | negativeLocktime | unsatisfiedLocktime | sigDer | sigPushOnly | sigHighS | sigNullDummy | cleanStack
  | witnessProgramWrongLength | witnessProgramWitnessEmpty | witnessProgramMismatch | witnessMalleated
  | witnessMalleatedP2SH | witnessUnexpected | taproot
deriving DecidableEq, Repr

inductive SigVersion where
  | base
  | witnessV0
deriving DecidableEq, Repr

abbrev Valtype := List UInt8

structure SignatureChecker where
  /-- `CheckECDSASignature` of a signature with its hash type, a public key and the script code. -/
  checkECDSASignature : Valtype → Valtype → CScript → SigVersion → Bool
  checkLockTime : Int → Bool
  checkSequence : Int → Bool
  /-- The taproot branch of `VerifyWitnessProgram`: the witness and the 32-byte program. -/
  verifyTaproot : List Valtype → List UInt8 → Bool

/-- `CastToBool`: some byte is not zero, and not only the sign bit of the last one. -/
def castToBool : Valtype → Bool
  | [] => false
  | [b] => b != 0 && b != 0x80
  | b :: bs => b != 0 || castToBool bs

/-- `vchTrue` or `vchFalse`. -/
def vchBool (f : Bool) : Valtype := if f then [1] else []

/-! ## Signature encodings -/

/-- `IsValidSignatureEncoding`. Reads past the end do not happen: the length tests come first. -/
def isValidSignatureEncoding (sig : Valtype) (haveHashType : Bool := true) : Bool :=
  let at' (i : Nat) : Nat := ((sig[i]?).map UInt8.toNat).getD 0
  let lenR := at' 3
  let lenS := at' (5 + lenR)
  decide (9 ≤ sig.length) && decide (sig.length ≤ 73)
    && decide (at' 0 = 0x30)
    && decide (at' 1 = sig.length - (if haveHashType then 3 else 2))
    && decide (5 + lenR < sig.length)
    && decide (lenR + lenS + (if haveHashType then 7 else 6) = sig.length)
    && decide (at' 2 = 0x02) && decide (lenR ≠ 0) && decide (at' 4 < 0x80)
    && !(decide (lenR > 1) && decide (at' 4 = 0) && decide (at' 5 < 0x80))
    && decide (at' (lenR + 4) = 0x02) && decide (lenS ≠ 0) && decide (at' (lenR + 6) < 0x80)
    && !(decide (lenS > 1) && decide (at' (lenR + 6) = 0) && decide (at' (lenR + 7) < 0x80))

def checkSignatureEncoding (C : Crypto) (vchSig : Valtype) (flags : ScriptFlags) : Except ScriptError Unit :=
  if vchSig.isEmpty then .ok ()
  else do
    require (!(flags.dersig || flags.lowS) || isValidSignatureEncoding vchSig) .sigDer
    require (!flags.lowS || C.checkLowS vchSig.dropLast) .sigHighS

/-! ## `FindAndDelete` -/

/-- The inner loop of `FindAndDelete`: drop copies of `b` from the front. -/
def dropMatches (b : CScript) : (fuel : Nat) → CScript → CScript
  | 0, pc => pc
  | fuel + 1, pc => if b.isPrefixOf pc then dropMatches b fuel (pc.drop b.length) else pc

/-- The outer loop of `FindAndDelete`: drop copies of `b` wherever an instruction starts. -/
def findAndDeleteAux (b : CScript) : (fuel : Nat) → CScript → CScript
  | 0, pc => pc
  | fuel + 1, pc =>
    let pc2 := dropMatches b pc.length pc
    match getScriptOp pc2 with
    | none => pc2
    | some (_, pc3) => pc2.take (pc2.length - pc3.length) ++ findAndDeleteAux b fuel pc3

def findAndDelete (script b : CScript) : CScript :=
  if b.isEmpty then script else findAndDeleteAux b (script.length + 1) script

/-! ## The condition stack -/

/-- `ConditionStack`: the size of the stack and the position of the first false value in it. -/
structure ConditionStack where
  size : Nat := 0
  firstFalsePos : Option Nat := none
deriving DecidableEq, Repr

namespace ConditionStack

def empty (s : ConditionStack) : Bool := s.size == 0

def allTrue (s : ConditionStack) : Bool := s.firstFalsePos.isNone

def pushBack (s : ConditionStack) (f : Bool) : ConditionStack where
  size := s.size + 1
  firstFalsePos := if s.firstFalsePos.isNone && !f then some s.size else s.firstFalsePos

def popBack (s : ConditionStack) : ConditionStack where
  size := s.size - 1
  firstFalsePos := if s.firstFalsePos = some (s.size - 1) then none else s.firstFalsePos

def toggleTop (s : ConditionStack) : ConditionStack :=
  match s.firstFalsePos with
  | none => { s with firstFalsePos := some (s.size - 1) }
  | some pos => if pos = s.size - 1 then { s with firstFalsePos := none } else s

end ConditionStack

/-! ## `EvalScript` -/

/-- The variables of `EvalScript`; the top of a stack comes first. -/
structure EvalState where
  stack : List Valtype
  altstack : List Valtype := []
  vfExec : ConditionStack := {}
  nOpCount : Nat := 0
  /-- The script from the last code separator on. -/
  pbegincodehash : CScript
deriving DecidableEq, Repr

/-- `CScriptNum(vch, fRequireMinimal, nMaxNumSize)`, whose exception becomes `SCRIPT_ERR_UNKNOWN_ERROR`. -/
def scriptNum (vch : Valtype) (nMaxNumSize : Nat := 4) : Except ScriptError Int :=
  if vch.length > nMaxNumSize then .error .unknownError else .ok (scriptNumSetVch vch)

def isDisabledOpcode (opcode : Nat) : Bool :=
  -- `OP_CAT` to `OP_RIGHT`, `OP_INVERT` to `OP_XOR`, `OP_2MUL`, `OP_2DIV`, `OP_MUL` to `OP_RSHIFT`
  decide (0x7e ≤ opcode ∧ opcode ≤ 0x81 ∨ 0x83 ≤ opcode ∧ opcode ≤ 0x86 ∨ opcode = 0x8d ∨ opcode = 0x8e
    ∨ 0x95 ≤ opcode ∧ opcode ≤ 0x99)

/-- The control opcodes up to `OP_RETURN`. -/
def evalControl (opcode : Nat) (fExec : Bool) (s : EvalState) : Except ScriptError EvalState :=
  match opcode with
  | 0x61 => .ok s  -- OP_NOP
  | 0x63 | 0x64 =>  -- OP_IF, OP_NOTIF
    if fExec then
      match s.stack with
      | [] => .error .unbalancedConditional
      | vch :: stack => .ok { s with stack := stack, vfExec := s.vfExec.pushBack (castToBool vch != (opcode == 0x64)) }
    else .ok { s with vfExec := s.vfExec.pushBack false }
  | 0x67 =>  -- OP_ELSE
    if s.vfExec.empty then .error .unbalancedConditional else .ok { s with vfExec := s.vfExec.toggleTop }
  | 0x68 =>  -- OP_ENDIF
    if s.vfExec.empty then .error .unbalancedConditional else .ok { s with vfExec := s.vfExec.popBack }
  | 0x69 =>  -- OP_VERIFY
    match s.stack with
    | [] => .error .invalidStackOperation
    | vch :: stack => if castToBool vch then .ok { s with stack := stack } else .error .verify
  | 0x6a => .error .opReturn  -- OP_RETURN
  | _ => .error .badOpcode

/-- The effect of the stack opcodes that neither fail on values nor touch the alternative stack; `none` when the stack
is too small. -/
def stackEffect (opcode : Nat) (stack : List Valtype) : Option (List Valtype) :=
  match opcode, stack with
  | 0x6d, _ :: _ :: st => some st  -- OP_2DROP
  | 0x6e, x2 :: x1 :: st => some (x2 :: x1 :: x2 :: x1 :: st)  -- OP_2DUP
  | 0x6f, x3 :: x2 :: x1 :: st => some (x3 :: x2 :: x1 :: x3 :: x2 :: x1 :: st)  -- OP_3DUP
  | 0x70, x4 :: x3 :: x2 :: x1 :: st => some (x2 :: x1 :: x4 :: x3 :: x2 :: x1 :: st)  -- OP_2OVER
  | 0x71, x6 :: x5 :: x4 :: x3 :: x2 :: x1 :: st => some (x2 :: x1 :: x6 :: x5 :: x4 :: x3 :: st)  -- OP_2ROT
  | 0x72, x4 :: x3 :: x2 :: x1 :: st => some (x2 :: x1 :: x4 :: x3 :: st)  -- OP_2SWAP
  | 0x73, x :: st => some (if castToBool x then x :: x :: st else x :: st)  -- OP_IFDUP
  | 0x74, st => some (scriptNumSerialize st.length :: st)  -- OP_DEPTH
  | 0x75, _ :: st => some st  -- OP_DROP
  | 0x76, x :: st => some (x :: x :: st)  -- OP_DUP
  | 0x77, x2 :: _ :: st => some (x2 :: st)  -- OP_NIP
  | 0x78, x2 :: x1 :: st => some (x1 :: x2 :: x1 :: st)  -- OP_OVER
  | 0x7b, x3 :: x2 :: x1 :: st => some (x1 :: x3 :: x2 :: st)  -- OP_ROT
  | 0x7c, x2 :: x1 :: st => some (x1 :: x2 :: st)  -- OP_SWAP
  | 0x7d, x2 :: x1 :: st => some (x2 :: x1 :: x2 :: st)  -- OP_TUCK
  | 0x82, x :: st => some (scriptNumSerialize x.length :: x :: st)  -- OP_SIZE
  | _, _ => none

/-- The stack opcodes `OP_TOALTSTACK` to `OP_SIZE`. -/
def evalStackOp (opcode : Nat) (s : EvalState) : Except ScriptError EvalState :=
  match opcode, s.stack with
  | 0x6b, vch :: stack => .ok { s with stack := stack, altstack := vch :: s.altstack }  -- OP_TOALTSTACK
  | 0x6c, stack =>  -- OP_FROMALTSTACK
    match s.altstack with
    | [] => .error .invalidAltstackOperation
    | vch :: altstack => .ok { s with stack := vch :: stack, altstack := altstack }
  | 0x79, top :: vch :: stack | 0x7a, top :: vch :: stack => do  -- OP_PICK, OP_ROLL
    let n ← scriptNum top
    let rest := vch :: stack
    if n < 0 then .error .invalidStackOperation
    else match rest[n.toNat]? with
      | none => .error .invalidStackOperation
      | some x => .ok { s with stack := x :: (if opcode = 0x7a then rest.eraseIdx n.toNat else rest) }
  | _, stack =>
    match stackEffect opcode stack with
    | none => .error .invalidStackOperation
    | some stack' => .ok { s with stack := stack' }

/-- Leave a truth value on the stack, or for the verifying form of an opcode require it. -/
def pushOrVerify (verify f : Bool) (e : ScriptError) (stack : List Valtype) (s : EvalState) :
    Except ScriptError EvalState :=
  if verify then if f then .ok { s with stack := stack } else .error e
  else .ok { s with stack := vchBool f :: stack }

/-- `OP_EQUAL` and `OP_EQUALVERIFY`. -/
def evalEqual (opcode : Nat) (s : EvalState) : Except ScriptError EvalState :=
  if opcode = 0x87 ∨ opcode = 0x88 then
    match s.stack with
    | x2 :: x1 :: stack => pushOrVerify (opcode == 0x88) (x1 == x2) .equalVerify stack s
    | _ => .error .invalidStackOperation
  else .error .badOpcode

/-- The result of `OP_1ADD` to `OP_0NOTEQUAL`. -/
def unaryNum (opcode : Nat) (bn : Int) : Option Int :=
  match opcode with
  | 0x8b => some (bn + 1)
  | 0x8c => some (bn - 1)
  | 0x8f => some (-bn)
  | 0x90 => some (if bn < 0 then -bn else bn)
  | 0x91 => some (if bn = 0 then 1 else 0)
  | 0x92 => some (if bn ≠ 0 then 1 else 0)
  | _ => none

/-- The result of `OP_ADD` to `OP_MAX`. -/
def binaryNum (opcode : Nat) (bn1 bn2 : Int) : Option Int :=
  let bool (p : Bool) : Option Int := some (if p then 1 else 0)
  match opcode with
  | 0x93 => some (bn1 + bn2)
  | 0x94 => some (bn1 - bn2)
  | 0x9a => bool (bn1 != 0 && bn2 != 0)
  | 0x9b => bool (bn1 != 0 || bn2 != 0)
  | 0x9c | 0x9d => bool (bn1 == bn2)
  | 0x9e => bool (bn1 != bn2)
  | 0x9f => bool (decide (bn1 < bn2))
  | 0xa0 => bool (decide (bn1 > bn2))
  | 0xa1 => bool (decide (bn1 ≤ bn2))
  | 0xa2 => bool (decide (bn1 ≥ bn2))
  | 0xa3 => some (if bn1 < bn2 then bn1 else bn2)
  | 0xa4 => some (if bn1 > bn2 then bn1 else bn2)
  | _ => none

/-- The numeric opcodes `OP_1ADD` to `OP_WITHIN`. -/
def evalNumeric (opcode : Nat) (s : EvalState) : Except ScriptError EvalState :=
  if opcode ≤ 0x92 then
    match s.stack with
    | x :: stack => do
      let bn ← scriptNum x
      match unaryNum opcode bn with
      | none => .error .badOpcode
      | some r => .ok { s with stack := scriptNumSerialize r :: stack }
    | [] => .error .invalidStackOperation
  else if opcode = 0xa5 then
    match s.stack with
    | x3 :: x2 :: x1 :: stack => do
      let bn1 ← scriptNum x1
      let bn2 ← scriptNum x2
      let bn3 ← scriptNum x3
      .ok { s with stack := vchBool (decide (bn2 ≤ bn1 ∧ bn1 < bn3)) :: stack }
    | _ => .error .invalidStackOperation
  else
    match s.stack with
    | x2 :: x1 :: stack => do
      let bn1 ← scriptNum x1
      let bn2 ← scriptNum x2
      match binaryNum opcode bn1 bn2 with
      | none => .error .badOpcode
      | some r =>
        if opcode = 0x9d then  -- OP_NUMEQUALVERIFY
          if r ≠ 0 then .ok { s with stack := stack } else .error .numEqualVerify
        else .ok { s with stack := scriptNumSerialize r :: stack }
    | _ => .error .invalidStackOperation

section Eval

variable (C : Crypto) (checker : SignatureChecker) (sigversion : SigVersion) (flags : ScriptFlags)

/-- The hash opcodes `OP_RIPEMD160` to `OP_HASH256`. -/
def evalHash (opcode : Nat) (s : EvalState) : Except ScriptError EvalState :=
  match s.stack with
  | [] => .error .invalidStackOperation
  | vch :: stack =>
    let vchHash :=
      match opcode with
      | 0xa6 => C.ripemd160 vch
      | 0xa7 => C.sha1 vch
      | 0xa8 => C.sha256 vch
      | 0xa9 => C.hash160 vch
      | _ => serUint256 (C.hash256 vch)
    .ok { s with stack := vchHash :: stack }

/-- The script code that a signature is checked with: `BASE` scripts drop the signatures from it. -/
def scriptCodeFor (scriptCode : CScript) (sigs : List Valtype) : CScript :=
  match sigversion with
  | .base => sigs.foldl (fun code vchSig => findAndDelete code (pushData vchSig)) scriptCode
  | .witnessV0 => scriptCode

/-- `EvalChecksigPreTapscript`. -/
def evalChecksig (vchSig vchPubKey : Valtype) (pbegincodehash : CScript) : Except ScriptError Bool := do
  checkSignatureEncoding C vchSig flags
  .ok (checker.checkECDSASignature vchSig vchPubKey (scriptCodeFor sigversion pbegincodehash [vchSig]) sigversion)

/-- The loop of `OP_CHECKMULTISIG` over signatures and keys. -/
def multisigLoop (scriptCode : CScript) : (sigs keys : List Valtype) → Except ScriptError Bool
  | [], _ => .ok true
  | _ :: _, [] => .ok false
  | vchSig :: sigs, vchPubKey :: keys => do
    checkSignatureEncoding C vchSig flags
    if checker.checkECDSASignature vchSig vchPubKey scriptCode sigversion then
      if sigs.length > keys.length then .ok false else multisigLoop scriptCode sigs keys
    else if sigs.length + 1 > keys.length then .ok false
    else multisigLoop scriptCode (vchSig :: sigs) keys

/-- `OP_CHECKMULTISIG` and `OP_CHECKMULTISIGVERIFY`. -/
def evalMultisig (verify : Bool) (s : EvalState) : Except ScriptError EvalState :=
  match s.stack with
  | [] => .error .invalidStackOperation
  | top :: stack => do
    let nKeysCount ← scriptNum top
    require (decide (0 ≤ nKeysCount ∧ nKeysCount ≤ maxPubkeysPerMultisig)) .pubkeyCount
    let nKeys := nKeysCount.toNat
    require (decide (s.nOpCount + nKeys ≤ maxOpsPerScript)) .opCount
    match stack.drop nKeys with
    | [] => .error .invalidStackOperation
    | sigTop :: rest => do
      let nSigsCount ← scriptNum sigTop
      require (decide (0 ≤ nSigsCount ∧ nSigsCount ≤ nKeysCount)) .sigCount
      let nSigs := nSigsCount.toNat
      -- below the signatures lies the extra argument that the opcode consumes
      match rest.drop nSigs with
      | [] => .error .invalidStackOperation
      | dummy :: below => do
        let sigs := rest.take nSigs
        let fSuccess ← multisigLoop C checker sigversion flags (scriptCodeFor sigversion s.pbegincodehash sigs) sigs
          (stack.take nKeys)
        require (!(flags.nulldummy && !dummy.isEmpty)) .sigNullDummy
        pushOrVerify verify fSuccess .checkMultisigVerify below { s with nOpCount := s.nOpCount + nKeys }

/-- `OP_CHECKLOCKTIMEVERIFY`. -/
def evalCheckLockTime (s : EvalState) : Except ScriptError EvalState :=
  if !flags.checklocktimeverify then .ok s
  else match s.stack with
    | [] => .error .invalidStackOperation
    | top :: _ => do
      let nLockTime ← scriptNum top 5
      require (decide (0 ≤ nLockTime)) .negativeLocktime
      require (checker.checkLockTime nLockTime) .unsatisfiedLocktime
      .ok s

/-- `OP_CHECKSEQUENCEVERIFY`. -/
def evalCheckSequence (s : EvalState) : Except ScriptError EvalState :=
  if !flags.checksequenceverify then .ok s
  else match s.stack with
    | [] => .error .invalidStackOperation
    | top :: _ => do
      let nSequence ← scriptNum top 5
      require (decide (0 ≤ nSequence)) .negativeLocktime
      require (nSequence.toNat.testBit 31 || checker.checkSequence nSequence) .unsatisfiedLocktime
      .ok s

/-- The opcodes from `OP_RIPEMD160` on; `pc` is the script after the opcode. -/
def evalCrypto (opcode : Nat) (pc : CScript) (s : EvalState) : Except ScriptError EvalState :=
  if opcode ≤ 0xaa then evalHash C opcode s
  else match opcode with
    | 0xab => .ok { s with pbegincodehash := pc }  -- OP_CODESEPARATOR
    | 0xac | 0xad =>  -- OP_CHECKSIG, OP_CHECKSIGVERIFY
      match s.stack with
      | vchPubKey :: vchSig :: stack => do
        let fSuccess ← evalChecksig C checker sigversion flags vchSig vchPubKey s.pbegincodehash
        pushOrVerify (opcode == 0xad) fSuccess .checkSigVerify stack s
      | _ => .error .invalidStackOperation
    | 0xae | 0xaf => evalMultisig C checker sigversion flags (opcode == 0xaf) s
    | 0xb1 => evalCheckLockTime checker flags s
    | 0xb2 => evalCheckSequence checker flags s
    | 0xb0 | 0xb3 | 0xb4 | 0xb5 | 0xb6 | 0xb7 | 0xb8 | 0xb9 => .ok s  -- OP_NOP1, OP_NOP4 to OP_NOP10
    | _ => .error .badOpcode

/-- The `switch` of `EvalScript`. -/
def evalSwitch (opcode : Nat) (pc : CScript) (fExec : Bool) (s : EvalState) : Except ScriptError EvalState :=
  if opcode = op1Negate ∨ op1 ≤ opcode ∧ opcode ≤ op16 then
    .ok { s with stack := scriptNumSerialize ((opcode : Int) - (op1 - 1)) :: s.stack }
  else if opcode ≤ 0x6a then evalControl opcode fExec s
  else if opcode ≤ 0x82 then evalStackOp opcode s
  else if opcode ≤ 0x8a then evalEqual opcode s
  else if opcode ≤ 0xa5 then evalNumeric opcode s
  else evalCrypto C checker sigversion flags opcode pc s

/-- What a round does with an instruction, before the size limits. -/
def evalExec (op : ScriptOp) (pc : CScript) (s : EvalState) : Except ScriptError EvalState :=
  let fExec := s.vfExec.allTrue
  if fExec && decide (op.1 ≤ opPushdata4) then .ok { s with stack := op.2 :: s.stack }
  else if fExec || decide (0x63 ≤ op.1 ∧ op.1 ≤ 0x68) then
    evalSwitch C checker sigversion flags op.1 pc fExec s
  else .ok s

/-- One round of the loop of `EvalScript`. -/
def evalOp (op : ScriptOp) (pc : CScript) (s : EvalState) : Except ScriptError EvalState := do
  require (decide (op.2.length ≤ maxScriptElementSize)) .pushSize
  let nOpCount := if op.1 > op16 then s.nOpCount + 1 else s.nOpCount
  require (decide (nOpCount ≤ maxOpsPerScript)) .opCount
  require (!isDisabledOpcode op.1) .disabledOpcode
  let s' ← evalExec C checker sigversion flags op pc { s with nOpCount := nOpCount }
  require (decide (s'.stack.length + s'.altstack.length ≤ maxStackSize)) .stackSize
  .ok s'

/-- The loop of `EvalScript`; a step for every byte is always enough. -/
def evalLoop : (fuel : Nat) → (pc : CScript) → EvalState → Except ScriptError EvalState
  | _, [], s => .ok s
  | 0, _ :: _, _ => .error .unknownError
  | fuel + 1, b :: pc, s =>
    match getScriptOp (b :: pc) with
    | none => .error .badOpcode
    | some (op, pc') => do
      let s' ← evalOp C checker sigversion flags op pc' s
      evalLoop fuel pc' s'

def evalScript (stack : List Valtype) (script : CScript) : Except ScriptError (List Valtype) := do
  require (decide (script.length ≤ maxScriptSize)) .scriptSize
  let s ← evalLoop C checker sigversion flags script.length script { stack := stack, pbegincodehash := script }
  require s.vfExec.empty .unbalancedConditional
  .ok s.stack

end Eval

/-! ## `VerifyScript` -/

section Verify

variable (C : Crypto) (checker : SignatureChecker) (flags : ScriptFlags)

def executeWitnessScript (stack : List Valtype) (execScript : CScript) : Except ScriptError Unit := do
  require (stack.all fun elem => decide (elem.length ≤ maxScriptElementSize)) .pushSize
  let stack' ← evalScript C checker .witnessV0 flags stack.reverse execScript
  require (decide (stack'.length = 1)) .cleanStack
  require (stack'.all castToBool) .evalFalse

def keyHashScript (program : List UInt8) : CScript :=
  [opDup, opHash160] ++ pushData program ++ [opEqualverify, opChecksig]

def verifyWitnessProgram (witness : List Valtype) (witversion : Nat) (program : List UInt8) (isP2SH : Bool) :
    Except ScriptError Unit :=
  if witversion = 0 then
    if program.length = 32 then
      match witness.getLast? with
      | none => .error .witnessProgramWitnessEmpty
      | some execScript => do
        require (C.sha256 execScript == program) .witnessProgramMismatch
        executeWitnessScript C checker flags witness.dropLast execScript
    else if program.length = 20 then do
      require (decide (witness.length = 2)) .witnessProgramMismatch
      executeWitnessScript C checker flags witness (keyHashScript program)
    else .error .witnessProgramWrongLength
  else if witversion = 1 ∧ program.length = 32 ∧ !isP2SH then
    require (!flags.taproot || checker.verifyTaproot witness program) .taproot
  else .ok ()

def topIsTrue (stack : List Valtype) : Except ScriptError Unit :=
  require ((stack.head?.map castToBool).getD false) .evalFalse

/-- The part of `VerifyScript` for pay-to-script-hash outputs; `stack` is the stack after `scriptSig`. The result is
`hadWitness`. -/
def verifyP2SH (scriptSig scriptPubKey : CScript) (witness : List Valtype) (stack : List Valtype) :
    Except ScriptError Bool :=
  if !(flags.p2sh && isPayToScriptHash scriptPubKey) then .ok false
  else do
    require (isPushOnly scriptSig) .sigPushOnly
    match stack with
    | [] => .error .evalFalse
    | pubKey2 :: rest => do
      let stack' ← evalScript C checker .base flags rest pubKey2
      topIsTrue stack'
      match flags.witness, isWitnessProgram pubKey2 with
      | true, some (version, program) => do
        require (scriptSig == pushData pubKey2) .witnessMalleatedP2SH
        verifyWitnessProgram C checker flags witness version program true
        .ok true
      | _, _ => .ok false

/-- The part of `VerifyScript` for bare witness programs. The result is `hadWitness`. -/
def verifyBareWitness (scriptSig scriptPubKey : CScript) (witness : List Valtype) : Except ScriptError Bool :=
  match flags.witness, isWitnessProgram scriptPubKey with
  | true, some (version, program) => do
    require scriptSig.isEmpty .witnessMalleated
    verifyWitnessProgram C checker flags witness version program false
    .ok true
  | _, _ => .ok false

/-- The two scripts, bare and nested witness programs. -/
def verifyScript (scriptSig scriptPubKey : CScript) (witness : List Valtype) : Except ScriptError Unit := do
  let stackCopy ← evalScript C checker .base flags [] scriptSig
  let stack ← evalScript C checker .base flags stackCopy scriptPubKey
  topIsTrue stack
  let bare ← verifyBareWitness C checker flags scriptSig scriptPubKey witness
  let nested ← verifyP2SH C checker flags scriptSig scriptPubKey witness stackCopy
  require (!flags.witness || bare || nested || witness.isEmpty) .witnessUnexpected

end Verify

/-! ## Outputs `OP_0 <20 bytes>` -/

theorem getScriptOp_push20 {program : List UInt8} (h : program.length = 20) (rest : List UInt8) :
    getScriptOp (0x14 :: (program ++ rest)) = some ((20, program), rest) := by
  simp [getScriptOp, readOperand, opPushdata1, h]

def witnessKeyHash (program : List UInt8) : CScript := 0x00 :: 0x14 :: program

/-- A witness for a 20-byte program: a signature and a key that hashes to the program, with the signature valid for
the spending transaction. -/
structure KeyHashWitness (C : Crypto) (checker : SignatureChecker) (program : List UInt8) (witness : List Valtype)
    (sig pubkey : Valtype) : Prop where
  stack : witness = [sig, pubkey]
  key : C.hash160 pubkey = program
  valid : checker.checkECDSASignature sig pubkey (keyHashScript program) .witnessV0 = true

end CodexaCoin
