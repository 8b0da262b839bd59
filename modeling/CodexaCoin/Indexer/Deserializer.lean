import CodexaCoin.Consensus.TxVerify
import CodexaCoin.Unserialize

/-!
# The indexer's transaction reader

`Deserializer`, `DeserializerSegWit` and `DeserializerBlackcoinSegWit` of `electrumx/lib/tx.py`, over a buffer that holds
whole blocks. Four layouts are told apart by the version and by the bytes where the marker and the flag would be.
-/

namespace CodexaCoin.Indexer

open Wire

/-- A deserializer: `binary` and `cursor`. A failed read (an assertion, an index or a `struct` error) is `none`. -/
abbrev Read (α : Type) := Reader (Cursor UInt8) α

/-! ## The parts of a transaction -/

structure TxInput where
  prevTxidRev : List UInt8
  prevIdx : Nat
  script : List UInt8
  sequence : Nat
deriving DecidableEq, Repr

structure TxOutput where
  value : Int
  pkScript : List UInt8
deriving DecidableEq, Repr

structure SegWit where
  marker : Nat
  flag : Nat
  witness : List (List (List UInt8))
deriving DecidableEq, Repr

structure Tx where
  version : Int
  time : Option Nat := none
  segWit : Option SegWit := none
  inputs : List TxInput
  outputs : List TxOutput
  locktime : Nat
  txidRev : List UInt8
  wtxidRev : List UInt8
deriving DecidableEq, Repr

def doubleSha256 (C : Crypto) (bs : List UInt8) : List UInt8 := serUint256 (C.hash256 bs)

/-- What `_read_varint` makes of its first byte. -/
def varintTail (n : Nat) : Read Nat :=
  if n < 253 then pure n
  else if n = 253 then number 2
  else if n = 254 then number 4
  else number 8

def readVarint : Read Nat := do
  let n ← number 1
  varintTail n

def readVarbytes : Read (List UInt8) := do
  let n ← readVarint
  take n

def readList {α : Type} (r : Read α) : Read (List α) := do
  let n ← readVarint
  many r n

def readInput : Read TxInput := do
  let prevTxidRev ← take 32
  let prevIdx ← number 4
  let script ← readVarbytes
  let sequence ← number 4
  pure ⟨prevTxidRev, prevIdx, script, sequence⟩

def readOutput : Read TxOutput := do
  let value ← int 8
  let pkScript ← readVarbytes
  pure ⟨value, pkScript⟩

/-- `_read_inputs` and `_read_outputs`. -/
def readInputsOutputs : Read (List TxInput × List TxOutput) := do
  let inputs ← readList readInput
  let outputs ← readList readOutput
  pure (inputs, outputs)

def readWitness (fields : Nat) : Read (List (List (List UInt8))) :=
  many (readList readVarbytes) fields

/-! ## The four layouts -/

structure TxFields where
  version : Int
  time : Option Nat
  inputs : List TxInput
  outputs : List TxOutput
  locktime : Nat

/-- The version and, for `TxTime`, the time. -/
def readHead (withTime : Bool) : Read (Int × Option Nat) := do
  let version ← int 4
  if withTime then do
    let time ← number 4
    pure (version, some time)
  else pure (version, none)

/-- The fields of a transaction without marker and flag. -/
def readPlainFields (withTime : Bool) : Read TxFields := do
  let head ← readHead withTime
  let insOuts ← readInputsOutputs
  let locktime ← number 4
  pure ⟨head.1, head.2, insOuts.1, insOuts.2, locktime⟩

/-- A transaction without marker and flag: `Deserializer.read_tx` and the legacy branch for version 1. -/
def readPlain (C : Crypto) (withTime : Bool) : Read (Tx × Nat) := do
  let r ← consumed (readPlainFields withTime)
  let txid := doubleSha256 C r.2
  pure (⟨r.1.version, r.1.time, none, r.1.inputs, r.1.outputs, r.1.locktime, txid, txid⟩, r.2.length)

/-- The fields of a transaction with marker and flag, with `orig_ser` and `witness_size`. -/
structure SegWitFields extends TxFields where
  segWit : SegWit
  origSer : List UInt8
  witnessSize : Nat

/-- Reading the fields of a transaction with marker and flag. -/
def readSegWitFields (withTime : Bool) : Read SegWitFields := do
  let head ← consumed (readHead withTime)
  let marker ← number 1
  let flag ← number 1
  let insOuts ← consumed readInputsOutputs
  let witness ← consumed (readWitness insOuts.1.1.length)
  let locktime ← consumed (number 4)
  pure ⟨⟨head.1.1, head.1.2, insOuts.1.1, insOuts.1.2, locktime.1⟩, ⟨marker, flag, witness.1⟩,
    head.2 ++ insOuts.2 ++ locktime.2, witness.2.length + 2⟩

/-- `vsize` from the size of the whole transaction and that of its witness. -/
def vsizeOf (size witnessSize : Nat) : Nat :=
  let baseSize := size - witnessSize
  let weight := 4 * baseSize + witnessSize
  weight / 4 + if weight % 4 > 0 then 1 else 0

/-- A transaction with marker and flag: the last part of `DeserializerSegWit._read_tx_parts`, and the branch for
version 1 that reads the time as well. -/
def readSegWit (C : Crypto) (withTime : Bool) : Read (Tx × Nat) := do
  let r ← consumed (readSegWitFields withTime)
  pure (⟨r.1.version, r.1.time, some r.1.segWit, r.1.inputs, r.1.outputs, r.1.locktime, doubleSha256 C r.1.origSer,
    doubleSha256 C r.2⟩, vsizeOf r.2.length r.1.witnessSize)

/-- `DeserializerSegWit._read_tx_parts`. -/
def readTxPartsV2 (C : Crypto) : Read (Tx × Nat) := do
  let marker ← itemAt 4
  match marker with
  | none => failure
  | some marker => if marker ≠ 0 then readPlain C false else readSegWit C false

/-- The test for marker and flag behind a time: both bytes exist, the first is zero and the second is not. -/
def markedV1 (marker flag : Option UInt8) : Bool :=
  match flag with
  | none => false
  | some flag => marker == some 0 && flag != 0

def blackcoinTxVersion : Int := 2

def readTxParts (C : Crypto) : Read (Tx × Nat) := do
  let version ← peek (int 4)
  if version < blackcoinTxVersion then do
    let marker ← itemAt 8
    let flag ← itemAt 9
    if markedV1 marker flag then readSegWit C true else readPlain C true
  else readTxPartsV2 C

def readTx (C : Crypto) : Read Tx := do
  let parts ← readTxParts C
  pure parts.1

def readTxBlock (C : Crypto) : Read (List Tx) := readList (readTx C)

/-! ## The parts are read as the node writes them -/

def maxLen : Nat := 2 ^ 64 - 1

theorem reads_varint {n : Nat} (h : n ≤ maxLen) : Reads readVarint (writeCompactSize n) n := by
  have hmax : maxLen = 2 ^ 64 - 1 := rfl
  rcases writeCompactSize_cases (n := n) (by omega) with ⟨hn, hw⟩ | ⟨-, hn, hw⟩ | ⟨-, hn, hw⟩ | ⟨-, hn, hw⟩ <;> rw [hw]
  · have htail : Reads (varintTail n) [] n := by rw [varintTail, if_pos hn]; exact Reads.pure n
    rw [← List.append_nil (serLE 1 n)]
    exact (reads_number_serLE (by omega)).bind htail
  · exact (reads_number_serLE (by omega)).bind (reads_number_serLE hn)
  · exact (reads_number_serLE (by omega)).bind (reads_number_serLE hn)
  · exact (reads_number_serLE (by omega)).bind (reads_number_serLE hn)

theorem reads_varbytes {bs : List UInt8} (h : bs.length ≤ maxLen) : Reads readVarbytes (serBytes bs) bs :=
  (reads_varint h).bind (reads_take bs)

theorem reads_list {α γ : Type} {r : Read α} {e : γ → List UInt8} {v : γ → α} {l : List γ}
    (hlen : l.length ≤ maxLen) (h : ∀ y ∈ l, Reads r (e y) (v y)) :
    Reads (readList r) (serVector (l.map e)) (l.map v) := by
  rw [serVector, List.length_map]
  exact (reads_varint hlen).bind (Reads.many h)

def inputOf (txin : CTxIn) : TxInput :=
  ⟨serUint256 txin.prevout.hash, txin.prevout.n, txin.scriptSig, txin.nSequence⟩

def outputOf (out : CTxOut) : TxOutput := ⟨out.nValue, out.scriptPubKey⟩

theorem reads_input {txin : CTxIn} (h : txin.Fits maxLen) : Reads readInput txin.serialize (inputOf txin) := by
  have hhash := reads_take (σ := Cursor UInt8) (serUint256 txin.prevout.hash)
  rw [length_serUint256] at hhash
  rw [CTxIn.serialize, List.append_assoc, List.append_assoc]
  refine hhash.bind ?_
  refine (reads_number_serLE h.index_lt).bind ?_
  refine (reads_varbytes h.script_le).bind ?_
  exact (reads_number_serLE h.sequence_lt).map _

theorem reads_output {out : CTxOut} (h : out.Fits maxLen) : Reads readOutput out.serialize (outputOf out) := by
  have hvalue0 := h.value_ge
  have hvalue1 := h.value_lt
  exact (reads_int_serInt (by omega) (by omega)).bind ((reads_varbytes h.script_le).map _)

section Transactions

variable {C : Crypto} {tx : CTransaction}

def headBytes (tx : CTransaction) : List UInt8 :=
  serInt 4 tx.nVersion ++ if tx.nVersion < 2 then serLE 4 tx.nTime else []

def bodyBytes (tx : CTransaction) : List UInt8 :=
  serVector (tx.vin.map CTxIn.serialize) ++ serVector (tx.vout.map CTxOut.serialize)

def witnessBytes (tx : CTransaction) : List UInt8 :=
  (tx.vin.map fun txin => serVector (txin.scriptWitness.map serBytes)).flatten

theorem serialize_plain (allowWitness : Bool) (h : (allowWitness && tx.hasWitness) = false) :
    tx.serialize allowWitness = headBytes tx ++ (bodyBytes tx ++ serLE 4 tx.nLockTime) := by
  simp [CTransaction.serialize, h, headBytes, bodyBytes]

theorem serialize_segWit (h : tx.hasWitness = true) :
    tx.serialize true =
      headBytes tx ++ ([0] ++ ([1] ++ (bodyBytes tx ++ (witnessBytes tx ++ serLE 4 tx.nLockTime)))) := by
  simp [CTransaction.serialize, h, headBytes, bodyBytes, witnessBytes]

def timeOf (tx : CTransaction) : Option Nat := if tx.nVersion < 2 then some tx.nTime else none

theorem reads_head (h : tx.Fits maxLen) :
    Reads (readHead (decide (tx.nVersion < 2))) (headBytes tx) (tx.nVersion, timeOf tx) := by
  have hge := h.version_ge
  have hlt := h.version_lt
  refine (reads_int_serInt (by omega) (by omega)).bind ?_
  simp only [timeOf, decide_eq_true_eq]
  split
  · exact (reads_number_serLE h.time_lt).map _
  · exact Reads.pure _

theorem reads_body (h : tx.Fits maxLen) :
    Reads readInputsOutputs (bodyBytes tx) (tx.vin.map inputOf, tx.vout.map outputOf) :=
  (reads_list h.vin_le fun txin hmem => reads_input (h.vin_fits txin hmem)).bind
    ((reads_list h.vout_le fun out hmem => reads_output (h.vout_fits out hmem)).map _)

theorem reads_witnesses (h : tx.Fits maxLen) :
    Reads (readWitness tx.vin.length) (witnessBytes tx) (tx.vin.map (·.scriptWitness)) := by
  refine Reads.many fun txin hmem => ?_
  have hitems := reads_list (v := id) (h.vin_fits txin hmem).witness_le fun item hitem =>
    reads_varbytes ((h.vin_fits txin hmem).items_le item hitem)
  rwa [List.map_id] at hitems

def txOf (C : Crypto) (tx : CTransaction) : Tx where
  version := tx.nVersion
  time := timeOf tx
  segWit := if tx.hasWitness then some ⟨0, 1, tx.vin.map (·.scriptWitness)⟩ else none
  inputs := tx.vin.map inputOf
  outputs := tx.vout.map outputOf
  locktime := tx.nLockTime
  txidRev := doubleSha256 C (tx.serialize false)
  wtxidRev := doubleSha256 C (tx.serialize true)

theorem virtualSize_plain (h : tx.hasWitness = false) : tx.virtualSize = (tx.serialize true).length := by
  have hsame : tx.serialize true = tx.serialize false := by
    rw [serialize_plain true (by simp [h]), serialize_plain false (by simp)]
  rw [CTransaction.virtualSize, CTransaction.weight, hsame]
  simp only [Consensus.witnessScaleFactor]
  omega

theorem virtualSize_segWit (h : tx.hasWitness = true) :
    tx.virtualSize = vsizeOf (tx.serialize true).length ((witnessBytes tx).length + 2) := by
  rw [CTransaction.virtualSize, CTransaction.weight, serialize_segWit h, serialize_plain false (by simp)]
  simp only [Consensus.witnessScaleFactor, vsizeOf, List.length_append, List.length_cons, List.length_nil]
  split <;> omega

theorem reads_plain (h : tx.Fits maxLen) (hw : tx.hasWitness = false) :
    Reads (readPlain C (decide (tx.nVersion < 2))) (tx.serialize true) (txOf C tx, tx.virtualSize) := by
  have hfields : Reads (readPlainFields (decide (tx.nVersion < 2))) (tx.serialize true)
      ⟨tx.nVersion, timeOf tx, tx.vin.map inputOf, tx.vout.map outputOf, tx.nLockTime⟩ := by
    rw [serialize_plain true (by simp [hw])]
    exact (reads_head h).bind ((reads_body h).bind ((reads_number_serLE h.lockTime_lt).map _))
  have hsame : tx.serialize false = tx.serialize true := by
    rw [serialize_plain true (by simp [hw]), serialize_plain false (by simp)]
  have hr := hfields.consumed.map fun r => ((⟨r.1.version, r.1.time, none, r.1.inputs, r.1.outputs, r.1.locktime,
    doubleSha256 C r.2, doubleSha256 C r.2⟩, r.2.length) : Tx × Nat)
  rw [virtualSize_plain hw, txOf, hw, hsame]
  exact hr

theorem reads_segWit (h : tx.Fits maxLen) (hw : tx.hasWitness = true) :
    Reads (readSegWit C (decide (tx.nVersion < 2))) (tx.serialize true) (txOf C tx, tx.virtualSize) := by
  have hwit := reads_witnesses h
  rw [← List.length_map (f := inputOf)] at hwit
  have hfields : Reads (readSegWitFields (decide (tx.nVersion < 2))) (tx.serialize true)
      ⟨⟨tx.nVersion, timeOf tx, tx.vin.map inputOf, tx.vout.map outputOf, tx.nLockTime⟩,
        ⟨0, 1, tx.vin.map (·.scriptWitness)⟩, headBytes tx ++ bodyBytes tx ++ serLE 4 tx.nLockTime,
        (witnessBytes tx).length + 2⟩ := by
    rw [serialize_segWit hw]
    refine (reads_head h).consumed.bind ?_
    refine (reads_number_serLE (w := 1) (n := 0) (by decide)).bind ?_
    refine (reads_number_serLE (w := 1) (n := 1) (by decide)).bind ?_
    refine (reads_body h).consumed.bind ?_
    refine hwit.consumed.bind ?_
    exact (reads_number_serLE h.lockTime_lt).consumed.map _
  have hr := hfields.consumed.map fun r => ((⟨r.1.version, r.1.time, some r.1.segWit, r.1.inputs, r.1.outputs,
    r.1.locktime, doubleSha256 C r.1.origSer, doubleSha256 C r.2⟩, vsizeOf r.2.length r.1.witnessSize) : Tx × Nat)
  rw [virtualSize_segWit hw, txOf, hw, serialize_plain false (by simp), ← List.append_assoc]
  exact hr

/-! ## Telling the layouts apart -/

theorem writeCompactSize_head {n : Nat} (hpos : 0 < n) (h : n ≤ maxLen) :
    ∃ b tail, b ≠ 0 ∧ writeCompactSize n = b :: tail := by
  have hmax : maxLen = 2 ^ 64 - 1 := rfl
  rcases writeCompactSize_cases (n := n) (by omega) with ⟨hn, hw⟩ | ⟨-, -, hw⟩ | ⟨-, -, hw⟩ | ⟨-, -, hw⟩
  · refine ⟨UInt8.ofNat n, [], fun h0 => ?_, hw⟩
    have := congrArg UInt8.toNat h0
    rw [UInt8.toNat_ofNat', Nat.mod_eq_of_lt (by omega)] at this
    exact hpos.ne' this
  · exact ⟨253, _, by decide, hw⟩
  · exact ⟨254, _, by decide, hw⟩
  · exact ⟨255, _, by decide, hw⟩

theorem length_headBytes : (headBytes tx).length = if tx.nVersion < 2 then 8 else 4 := by
  unfold headBytes
  split <;> simp

theorem serialize_marker (h : tx.Fits maxLen) (hvin : tx.vin ≠ []) :
    (tx.hasWitness = false ∧ ∃ b tail, b ≠ 0 ∧ tx.serialize true = headBytes tx ++ b :: tail) ∨
    (tx.hasWitness = true ∧ ∃ tail, tx.serialize true = headBytes tx ++ 0 :: 1 :: tail) := by
  cases hw : tx.hasWitness with
  | false =>
    obtain ⟨b, tail, hb, hcount⟩ := writeCompactSize_head (List.length_pos_of_ne_nil hvin) h.vin_le
    refine .inl ⟨rfl, b, tail ++ ((tx.vin.map CTxIn.serialize).flatten ++ serVector (tx.vout.map CTxOut.serialize) ++
      serLE 4 tx.nLockTime), hb, ?_⟩
    rw [serialize_plain true (by simp [hw]), bodyBytes, serVector, List.length_map, hcount]
    simp only [List.cons_append, List.append_assoc]
  | true => exact .inr ⟨rfl, _, by rw [serialize_segWit hw]; rfl⟩

theorem reads_txPartsV2 (h : tx.Fits maxLen) (hvin : tx.vin ≠ []) (hversion : ¬tx.nVersion < 2) :
    Reads (readTxPartsV2 C) (tx.serialize true) (txOf C tx, tx.virtualSize) := by
  have hlen : (headBytes tx).length = 4 := by rw [length_headBytes, if_neg hversion]
  have hplain := reads_plain (C := C) h
  have hsegWit := reads_segWit (C := C) h
  rw [decide_eq_false hversion] at hplain hsegWit
  rcases serialize_marker h hvin with ⟨hw, b, tail, hb, hser⟩ | ⟨hw, tail, hser⟩
  · have hr := hplain hw
    rw [hser] at hr ⊢
    refine Reads.itemAt_bind hlen ?_
    simp only [if_pos hb]
    exact hr
  · have hr := hsegWit hw
    rw [hser] at hr ⊢
    exact Reads.itemAt_bind hlen hr

theorem reads_txPartsV1 (h : tx.Fits maxLen) (hvin : tx.vin ≠ []) (hversion : tx.nVersion < 2) :
    Reads (do
      let marker ← itemAt 8
      let flag ← itemAt 9
      if markedV1 marker flag then readSegWit C true else readPlain C true)
      (tx.serialize true) (txOf C tx, tx.virtualSize) := by
  have hlen : (headBytes tx).length = 8 := by rw [length_headBytes, if_pos hversion]
  have hplain := reads_plain (C := C) h
  have hsegWit := reads_segWit (C := C) h
  rw [decide_eq_true hversion] at hplain hsegWit
  rcases serialize_marker h hvin with ⟨hw, b, tail, hb, hser⟩ | ⟨hw, tail, hser⟩
  · have hr := hplain hw
    rw [hser] at hr ⊢
    refine Reads.itemAt_bind hlen (Reads.itemAt_bind_any fun flag => ?_)
    have hmarked : markedV1 (some b) flag = false := by cases flag <;> simp [markedV1, hb]
    rw [hmarked]
    exact hr
  · have hr := hsegWit hw
    rw [hser] at hr ⊢
    refine Reads.itemAt_bind hlen ?_
    have hnext : headBytes tx ++ 0 :: 1 :: tail = (headBytes tx ++ [0]) ++ 1 :: tail := by simp
    rw [hnext] at hr ⊢
    exact Reads.itemAt_bind (by simp [hlen]) hr

/-- **Every transaction with an input is read as the node writes it.** -/
theorem reads_txParts (h : tx.Fits maxLen) (hvin : tx.vin ≠ []) :
    Reads (readTxParts C) (tx.serialize true) (txOf C tx, tx.virtualSize) := by
  have hge := h.version_ge
  have hlt := h.version_lt
  obtain ⟨tail, hser⟩ : ∃ tail, tx.serialize true = serInt 4 tx.nVersion ++ tail := by
    rcases serialize_marker h hvin with ⟨-, b, tail, -, hser⟩ | ⟨-, tail, hser⟩ <;>
      exact ⟨_, by rw [hser, headBytes, List.append_assoc]⟩
  by_cases hversion : tx.nVersion < 2
  · have hr := reads_txPartsV1 (C := C) h hvin hversion
    rw [hser] at hr ⊢
    refine Reads.peek_bind (reads_int_serInt (by omega) (by omega)) ?_
    rw [blackcoinTxVersion, if_pos hversion]
    exact hr
  · have hr := reads_txPartsV2 (C := C) h hvin hversion
    rw [hser] at hr ⊢
    refine Reads.peek_bind (reads_int_serInt (by omega) (by omega)) ?_
    rw [blackcoinTxVersion, if_neg hversion]
    exact hr

theorem reads_txBlock {vtx : List CTransaction} (hlen : vtx.length ≤ maxLen)
    (h : ∀ tx ∈ vtx, tx.Fits maxLen ∧ tx.vin ≠ []) :
    Reads (readTxBlock C) (serVector (vtx.map (CTransaction.serialize · true))) (vtx.map (txOf C)) :=
  reads_list hlen fun tx hmem => (reads_txParts (h tx hmem).1 (h tx hmem).2).map (·.1)

end Transactions

theorem readTxParts_serialize (C : Crypto) (tx : CTransaction) (hfits : tx.Fits maxLen) (hvin : tx.vin ≠ [])
    (before after : List UInt8) :
    readTxParts C ⟨before ++ tx.serialize true ++ after, before.length⟩ =
      some (({ version := tx.nVersion
               time := if tx.nVersion < 2 then some tx.nTime else none
               segWit := if tx.hasWitness then some ⟨0, 1, tx.vin.map (·.scriptWitness)⟩ else none
               inputs := tx.vin.map inputOf
               outputs := tx.vout.map outputOf
               locktime := tx.nLockTime
               txidRev := doubleSha256 C (tx.serialize false)
               wtxidRev := doubleSha256 C (tx.serialize true) },
          (tx.weight + 3) / 4),
        ⟨before ++ tx.serialize true ++ after, before.length + (tx.serialize true).length⟩) := by
  refine reads_txParts hfits hvin _ after ?_
  exact (congrArg (List.drop before.length) (List.append_assoc ..)).trans (List.drop_left ..)

def sampleSegWitTx : CTransaction :=
  { vin := [{ prevout := ⟨7, 1⟩, scriptSig := [1, 2], scriptWitness := [[3], []] }]
    vout := [⟨5000, [0x51]⟩]
    nVersion := 1
    nTime := 1700000000
    nLockTime := 9 }

theorem sampleSegWitTx_read : sampleSegWitTx.vin ≠ [] ∧
    (readTxParts .sample ⟨[0xaa] ++ sampleSegWitTx.serialize true ++ [0xbb], 1⟩).map (fun p => (p.1.1.time, p.1.2)) =
      some (some 1700000000, 69) := by
  have hin : CTxIn.Fits maxLen { prevout := ⟨7, 1⟩, scriptSig := [1, 2], scriptWitness := [[3], []] } :=
    ⟨by decide, by decide, by decide, by decide, by decide⟩
  have hout : CTxOut.Fits maxLen ⟨5000, [0x51]⟩ := ⟨by decide, by decide, by decide⟩
  have hfits : sampleSegWitTx.Fits maxLen := ⟨by decide, by decide, by decide, by decide,
    by simpa [sampleSegWitTx] using hin, by decide, by simpa [sampleSegWitTx] using hout, by decide⟩
  refine ⟨by decide, ?_⟩
  exact (congrArg (Option.map _) (readTxParts_serialize .sample sampleSegWitTx hfits (by decide) [0xaa] [0xbb])).trans
    (by decide)

end CodexaCoin.Indexer
