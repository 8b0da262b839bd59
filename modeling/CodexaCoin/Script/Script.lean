import CodexaCoin.Primitives

/-!
# Scripts as byte strings

`script/script.h` and `script/script.cpp`: the instruction reader `getScriptOp`, the templates that consensus code
recognises (`isPayToScriptHash`, `isWitnessProgram`, `isUnspendable`) and the signature-operation counts.

A loop over `GetOp` is a fold over `scriptOps`, the instructions read before the first failure.
-/

namespace CodexaCoin

/-! ## Opcodes and flags -/

def opPushdata1 : Nat := 0x4c
def opPushdata2 : Nat := 0x4d
def opPushdata4 : Nat := 0x4e
def op1Negate : Nat := 0x4f
def op1 : Nat := 0x51
def op16 : Nat := 0x60
def opReturn : UInt8 := 0x6a
def opDup : UInt8 := 0x76
def opEqual : UInt8 := 0x87
def opEqualverify : UInt8 := 0x88
def opHash160 : UInt8 := 0xa9
def opChecksig : UInt8 := 0xac
def opChecksigverify : UInt8 := 0xad
def opCheckmultisig : UInt8 := 0xae
def opCheckmultisigverify : UInt8 := 0xaf

def maxScriptSize : Nat := 10000

def maxScriptElementSize : Nat := 520

def maxOpsPerScript : Nat := 201

def maxStackSize : Nat := 1000

def maxPubkeysPerMultisig : Nat := 20

structure ScriptFlags where
  p2sh : Bool := false
  dersig : Bool := false
  derkey : Bool := false
  lowS : Bool := false
  nulldummy : Bool := false
  checklocktimeverify : Bool := false
  checksequenceverify : Bool := false
  witness : Bool := false
  taproot : Bool := false
deriving DecidableEq, Repr

def ScriptFlags.none : ScriptFlags := {}

/-! ## Reading instructions -/

/-- The number in the first `w` bytes, least significant first, and what follows them. -/
def readLE : (w : Nat) → CScript → Option (Nat × CScript)
  | 0, pc => some (0, pc)
  | _ + 1, [] => none
  | w + 1, b :: pc => (readLE w pc).map fun r => (b.toNat + 256 * r.1, r.2)

abbrev ScriptOp := Nat × List UInt8

/-- The operand of `nSize` bytes, if the script is long enough. -/
def readOperand (opcode nSize : Nat) (pc : CScript) : Option (ScriptOp × CScript) :=
  if pc.length < nSize then none else some ((opcode, pc.take nSize), pc.drop nSize)

def getScriptOp : CScript → Option (ScriptOp × CScript)
  | [] => none
  | b :: pc =>
    let opcode := b.toNat
    if opcode < opPushdata1 then readOperand opcode opcode pc
    else if opcode = opPushdata1 then (readLE 1 pc).bind fun r => readOperand opcode r.1 r.2
    else if opcode = opPushdata2 then (readLE 2 pc).bind fun r => readOperand opcode r.1 r.2
    else if opcode = opPushdata4 then (readLE 4 pc).bind fun r => readOperand opcode r.1 r.2
    else some ((opcode, []), pc)

/-- The instructions of a script up to the first one that `GetOp` cannot read, and whether all of it was read. -/
def scriptOpsAux : (fuel : Nat) → CScript → List ScriptOp × Bool
  | 0, pc => ([], pc.isEmpty)
  | fuel + 1, pc =>
    if pc.isEmpty then ([], true)
    else match getScriptOp pc with
      | none => ([], false)
      | some (op, pc') => let r := scriptOpsAux fuel pc'; (op :: r.1, r.2)

/-- `scriptOpsAux` with a step for every byte, which is always enough. -/
def scriptOps (script : CScript) : List ScriptOp × Bool :=
  scriptOpsAux script.length script

def isPushOnly (script : CScript) : Bool :=
  let r := scriptOps script
  r.2 && r.1.all fun op => op.1 ≤ op16

/-! ## Numbers and pushes -/

/-- The bytes of `absvalue`, least significant first, without leading zeros. -/
def absBytes : (fuel : Nat) → (absvalue : Nat) → List UInt8
  | 0, _ => []
  | fuel + 1, absvalue => if absvalue = 0 then [] else UInt8.ofNat absvalue :: absBytes fuel (absvalue / 256)

/-- Put the sign into the most significant byte, or into a new one when its top bit is taken. -/
def addSign (neg : Bool) : List UInt8 → List UInt8
  | [] => []
  | [b] => if b ≥ 0x80 then [b, if neg then 0x80 else 0] else [if neg then b ||| 0x80 else b]
  | b :: bs => b :: addSign neg bs

def scriptNumSerialize (value : Int) : List UInt8 :=
  addSign (decide (value < 0)) (absBytes 8 value.natAbs)

def scriptNumSetVch (vch : List UInt8) : Int :=
  let result : Nat := vch.foldr (fun b n => b.toNat + 256 * n) 0
  match vch.getLast? with
  | none => 0
  | some b => if b ≥ 0x80 then -((result : Int) - 0x80 * 256 ^ (vch.length - 1)) else result

/-- `CScript::operator<<(const std::vector<unsigned char>&)` to an empty script. -/
def pushData (b : List UInt8) : CScript :=
  if b.length < opPushdata1 then UInt8.ofNat b.length :: b
  else if b.length ≤ 0xff then UInt8.ofNat opPushdata1 :: serLE 1 b.length ++ b
  else if b.length ≤ 0xffff then UInt8.ofNat opPushdata2 :: serLE 2 b.length ++ b
  else UInt8.ofNat opPushdata4 :: serLE 4 b.length ++ b

def pushInt64 (n : Int) : CScript :=
  if n = -1 ∨ 1 ≤ n ∧ n ≤ 16 then [UInt8.ofNat (n + (op1 - 1)).toNat]
  else if n = 0 then [0]
  else pushData (scriptNumSerialize n)

/-! ## Templates -/

def isPayToScriptHash (script : CScript) : Bool :=
  decide (script.length = 23 ∧ script[0]? = some opHash160 ∧ script[1]? = some 0x14 ∧ script[22]? = some opEqual)

def decodeOpN (opcode : Nat) : Nat :=
  if opcode = 0 then 0 else opcode - (op1 - 1)

def isWitnessProgram (script : CScript) : Option (Nat × List UInt8) :=
  if script.length < 4 ∨ script.length > 42 then none
  else match script with
    | b0 :: b1 :: program =>
      if b0.toNat ≠ 0 ∧ (b0.toNat < op1 ∨ b0.toNat > op16) then none
      else if b1.toNat + 2 = script.length then some (decodeOpN b0.toNat, program)
      else none
    | _ => none

def isUnspendable (script : CScript) : Bool :=
  decide (script.head? = some opReturn ∨ script.length > maxScriptSize)

/-! ## Signature operations -/

/-- One step of the loop of `CScript::GetSigOpCount(bool)`; the state is the last opcode and the count. -/
def sigOpStep (fAccurate : Bool) (s : Nat × Nat) (op : ScriptOp) : Nat × Nat :=
  let opcode := op.1
  let n :=
    if opcode = opChecksig.toNat ∨ opcode = opChecksigverify.toNat then s.2 + 1
    else if opcode = opCheckmultisig.toNat ∨ opcode = opCheckmultisigverify.toNat then
      if fAccurate ∧ op1 ≤ s.1 ∧ s.1 ≤ op16 then s.2 + decodeOpN s.1 else s.2 + maxPubkeysPerMultisig
    else s.2
  (opcode, n)

/-- `CScript::GetSigOpCount(bool fAccurate)`. The loop starts with `OP_INVALIDOPCODE`. -/
def getSigOpCount (fAccurate : Bool) (script : CScript) : Nat :=
  ((scriptOps script).1.foldl (sigOpStep fAccurate) (0xff, 0)).2

/-- `CScript::GetSigOpCount(const CScript& scriptSig)`. -/
def getSigOpCountP2SH (scriptPubKey scriptSig : CScript) : Nat :=
  if !isPayToScriptHash scriptPubKey then getSigOpCount true scriptPubKey
  else if !isPushOnly scriptSig then 0
  else getSigOpCount true (((scriptOps scriptSig).1.getLast?.map (·.2)).getD [])

def witnessSigOps (version : Nat) (program : List UInt8) (witness : List (List UInt8)) : Nat :=
  if version = 0 then
    if program.length = 20 then 1
    else if program.length = 32 then (witness.getLast?.map (getSigOpCount true)).getD 0
    else 0
  else 0

def countWitnessSigOps (scriptSig scriptPubKey : CScript) (witness : List (List UInt8)) (flags : ScriptFlags) : Nat :=
  if !flags.witness then 0
  else match isWitnessProgram scriptPubKey with
    | some (version, program) => witnessSigOps version program witness
    | none =>
      if isPayToScriptHash scriptPubKey && isPushOnly scriptSig then
        match isWitnessProgram (((scriptOps scriptSig).1.getLast?.map (·.2)).getD []) with
        | some (version, program) => witnessSigOps version program witness
        | none => 0
      else 0

end CodexaCoin
