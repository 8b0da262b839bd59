import CodexaCoin.Consensus.Params

/-!
# Transactions and blocks

`primitives/transaction.h`, `primitives/block.h` and the serializations of `serialize.h` that the hashes are taken of.
-/

namespace CodexaCoin

/-- `uint256`: a 256-bit hash, read as a number with the first byte the least significant one. -/
abbrev Uint256 := BitVec 256

instance : LawfulBEq Uint256 := inferInstance

abbrev CScript := List UInt8

/-! ## Serialization of the basic types -/

/-- `n` as `w` bytes, the least significant first. -/
def serLE : (w : Nat) → (n : Nat) → List UInt8
  | 0, _ => []
  | w + 1, n => UInt8.ofNat n :: serLE w (n / 256)

/-- A signed integer of `w` bytes, in two's complement. -/
def serInt (w : Nat) (n : Int) : List UInt8 :=
  serLE w (n % 2 ^ (8 * w)).toNat

def serUint256 (h : Uint256) : List UInt8 :=
  serLE 32 h.toNat

def writeCompactSize (n : Nat) : List UInt8 :=
  if n < 253 then serLE 1 n
  else if n ≤ 0xffff then 253 :: serLE 2 n
  else if n ≤ 0xffffffff then 254 :: serLE 4 n
  else 255 :: serLE 8 n

def serBytes (bs : List UInt8) : List UInt8 :=
  writeCompactSize bs.length ++ bs

def serVector (items : List (List UInt8)) : List UInt8 :=
  writeCompactSize items.length ++ items.flatten

/-! ## Transactions -/

structure COutPoint where
  hash : Uint256
  n : Nat
deriving DecidableEq, Repr

def COutPoint.nullIndex : Nat := 0xffffffff

def COutPoint.isNull (o : COutPoint) : Bool :=
  decide (o.hash = 0 ∧ o.n = COutPoint.nullIndex)

def COutPoint.null : COutPoint := ⟨0, COutPoint.nullIndex⟩

structure CTxIn where
  prevout : COutPoint
  scriptSig : CScript := []
  nSequence : Nat := 0xffffffff
  scriptWitness : List (List UInt8) := []
deriving DecidableEq, Repr

def CTxIn.serialize (txin : CTxIn) : List UInt8 :=
  serUint256 txin.prevout.hash ++ serLE 4 txin.prevout.n ++ serBytes txin.scriptSig ++ serLE 4 txin.nSequence

structure CTxOut where
  nValue : Int
  scriptPubKey : CScript
deriving DecidableEq, Repr

def CTxOut.isEmpty (o : CTxOut) : Bool :=
  decide (o.nValue = 0) && o.scriptPubKey.isEmpty

def CTxOut.serialize (o : CTxOut) : List UInt8 :=
  serInt 8 o.nValue ++ serBytes o.scriptPubKey

/-- `CTransaction`. The field `nTime` is in memory for every version and serialized for versions below 2 only. -/
structure CTransaction where
  vin : List CTxIn
  vout : List CTxOut
  nVersion : Int := 2
  nTime : Nat := 0
  nLockTime : Nat := 0
deriving DecidableEq, Repr

namespace CTransaction

variable (tx : CTransaction)

def isCoinBase : Bool :=
  match tx.vin with
  | [txin] => txin.prevout.isNull
  | _ => false

/-- `CTransaction::IsCoinStake`: a first input with a prevout and an empty first output among at least two. -/
def isCoinStake : Bool :=
  match tx.vin, tx.vout with
  | txin :: _, out0 :: _ :: _ => !txin.prevout.isNull && out0.isEmpty
  | _, _ => false

def hasWitness : Bool :=
  tx.vin.any fun txin => !txin.scriptWitness.isEmpty

/-- `SerializeTransaction`; `allowWitness` selects `TX_WITH_WITNESS` or `TX_NO_WITNESS`. -/
def serialize (allowWitness : Bool) : List UInt8 :=
  let witness := allowWitness && tx.hasWitness
  serInt 4 tx.nVersion
    ++ (if tx.nVersion < 2 then serLE 4 tx.nTime else [])
    ++ (if witness then [0, 1] else [])
    ++ serVector (tx.vin.map CTxIn.serialize)
    ++ serVector (tx.vout.map CTxOut.serialize)
    ++ (if witness then (tx.vin.map fun txin => serVector (txin.scriptWitness.map serBytes)).flatten else [])
    ++ serLE 4 tx.nLockTime

/-- What `UnserializeTransaction` gives back for the serialized transaction. -/
def reread : CTransaction :=
  { tx with nTime := if tx.nVersion < 2 then tx.nTime else 0 }

@[simp] theorem reread_vin : tx.reread.vin = tx.vin := rfl

@[simp] theorem reread_vout : tx.reread.vout = tx.vout := rfl

@[simp] theorem reread_nVersion : tx.reread.nVersion = tx.nVersion := rfl

@[simp] theorem reread_reread : tx.reread.reread = tx.reread := by
  simp only [reread]
  split <;> rfl

@[simp] theorem isCoinBase_reread : tx.reread.isCoinBase = tx.isCoinBase := rfl

@[simp] theorem isCoinStake_reread : tx.reread.isCoinStake = tx.isCoinStake := rfl

/-- **The serialization does not depend on the `nTime` that rereading drops.** -/
@[simp] theorem serialize_reread (w : Bool) : tx.reread.serialize w = tx.serialize w := by
  by_cases h : tx.nVersion < 2 <;> simp [serialize, reread, h, hasWitness]

theorem isCoinBase_eq_false_of_isCoinStake (h : tx.isCoinStake = true) : tx.isCoinBase = false := by
  unfold isCoinStake at h
  unfold isCoinBase
  split
  · next txin hin =>
    rw [hin] at h
    split at h
    · next txin' _ _ _ _ heq _ => obtain ⟨rfl, -⟩ := List.cons.inj heq; simp_all
    · exact absurd h (by simp)
  · rfl

end CTransaction

/-! ## Hash functions and signatures -/

/-- The cryptographic functions of the node, left arbitrary. -/
structure Crypto where
  /-- `HashWriter::GetHash` and `CHash256`: double SHA-256 of a string of bytes. -/
  hash256 : List UInt8 → Uint256
  /-- `scrypt_1024_1_1_256` of the 80 bytes of a header. -/
  scrypt : List UInt8 → Uint256
  /-- `Hash160`, 20 bytes. -/
  hash160 : List UInt8 → List UInt8
  ripemd160 : List UInt8 → List UInt8
  sha1 : List UInt8 → List UInt8
  sha256 : List UInt8 → List UInt8
  /-- `CPubKey::Verify` of a public key, a hash and a signature. -/
  pubKeyVerify : List UInt8 → Uint256 → List UInt8 → Bool
  /-- `CPubKey::CheckLowS` of a signature without its hash type. -/
  checkLowS : List UInt8 → Bool

/-- A choice of the functions that makes the model run on concrete inputs: the bytes as digits of a number, hashes of
headers that meet every target, and signatures that are all valid. -/
def Crypto.sample : Crypto where
  hash256 bs := BitVec.ofNat 256 (bs.foldl (fun h b => h * 263 + b.toNat + 1) 1)
  scrypt _ := 0
  hash160 bs := serLE 20 (bs.foldl (fun h b => h * 263 + b.toNat + 1) 1)
  ripemd160 bs := serLE 20 (bs.foldl (fun h b => h * 263 + b.toNat + 2) 1)
  sha1 bs := serLE 20 (bs.foldl (fun h b => h * 263 + b.toNat + 3) 1)
  sha256 bs := serLE 32 (bs.foldl (fun h b => h * 263 + b.toNat + 4) 1)
  pubKeyVerify _ _ _ := true
  checkLowS _ := true

/-- `CPubKey::GetLen` of a header byte. -/
def pubKeyLen (header : UInt8) : Nat :=
  if header = 2 ∨ header = 3 then 33 else if header = 4 ∨ header = 6 ∨ header = 7 then 65 else 0

def pubKeyValidSize (vch : List UInt8) : Bool :=
  match vch with
  | [] => false
  | b :: _ => pubKeyLen b == vch.length

namespace CTransaction

variable (C : Crypto) (tx : CTransaction)

/-- The block hash, which leaves `nFlags` out. -/
def getHash : Uint256 :=
  C.hash256 (tx.serialize false)

def getWitnessHash : Uint256 :=
  if tx.hasWitness then C.hash256 (tx.serialize true) else tx.getHash C

@[simp] theorem getHash_reread : tx.reread.getHash C = tx.getHash C := by
  simp [getHash]

end CTransaction

/-! ## Blocks -/

/-- `CBlockHeader`. `nFlags` is a copy of the sender's index flags and travels outside the hash. -/
structure CBlockHeader where
  nVersion : Int := 7
  hashPrevBlock : Uint256
  hashMerkleRoot : Uint256
  nTime : Nat
  nBits : Nat
  nNonce : Nat := 0
  nFlags : Nat := 0
deriving DecidableEq, Repr

structure CBlock extends CBlockHeader where
  vtx : List CTransaction
  vchBlockSig : List UInt8 := []
deriving DecidableEq, Repr

namespace CBlockHeader

variable (C : Crypto) (header : CBlockHeader)

def serialize : List UInt8 :=
  serInt 4 header.nVersion ++ serUint256 header.hashPrevBlock ++ serUint256 header.hashMerkleRoot
    ++ serLE 4 header.nTime ++ serLE 4 header.nBits ++ serLE 4 header.nNonce

def getPoWHash : Uint256 :=
  C.scrypt header.serialize

def getHash : Uint256 :=
  if header.nVersion > 6 then C.hash256 header.serialize else header.getPoWHash C

end CBlockHeader

namespace CBlock

variable (C : Crypto) (block : CBlock)

abbrev getBlockHeader : CBlockHeader := block.toCBlockHeader

def isProofOfStake : Bool :=
  match block.vtx with
  | _ :: tx1 :: _ => tx1.isCoinStake
  | _ => false

/-- The serialization of a block; `nFlags` is written for peers that ask for it and never on disk. -/
def serialize (allowWitness : Bool) : List UInt8 :=
  block.getBlockHeader.serialize ++ serVector (block.vtx.map (CTransaction.serialize · allowWitness))
    ++ serBytes block.vchBlockSig

/-- A block read back from its serialization without `nFlags`. -/
def reread : CBlock :=
  { block with nFlags := 0, vtx := block.vtx.map CTransaction.reread }

@[simp] theorem reread_vtx : block.reread.vtx = block.vtx.map CTransaction.reread := rfl

@[simp] theorem getHash_reread : block.reread.getHash C = block.getHash C := rfl

@[simp] theorem isProofOfStake_reread : block.reread.isProofOfStake = block.isProofOfStake := by
  unfold isProofOfStake
  rw [reread_vtx]
  rcases block.vtx with _ | ⟨_, _ | ⟨_, _⟩⟩ <;> simp

end CBlock

end CodexaCoin
