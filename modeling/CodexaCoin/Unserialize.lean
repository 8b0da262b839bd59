import CodexaCoin.Lib.Wire
import CodexaCoin.Primitives

/-!
# Reading transactions

`ReadCompactSize` and the vector formats of `serialize.h`, and `UnserializeTransaction` of `primitives/transaction.h`.
-/

namespace CodexaCoin

open Wire

/-! ## Basic types -/

@[simp] theorem length_serLE (w n : Nat) : (serLE w n).length = w := by
  induction w generalizing n with
  | zero => rfl
  | succ w ih => rw [serLE, List.length_cons, ih]

@[simp] theorem length_serInt (w : Nat) (n : Int) : (serInt w n).length = w :=
  length_serLE ..

@[simp] theorem length_serUint256 (h : Uint256) : (serUint256 h).length = 32 :=
  length_serLE ..

theorem leNat_serLE (w n : Nat) : leNat (serLE w n) = n % 256 ^ w := by
  induction w generalizing n with
  | zero => simp [serLE, leNat, Nat.mod_one]
  | succ w ih =>
    rw [serLE, leNat, ih, UInt8.toNat_ofNat', Nat.pow_succ' (n := w), Nat.mod_mul]

section Basic

variable {σ : Type} [Source σ UInt8]

theorem reads_number_serLE {w n : Nat} (h : n < 256 ^ w) : Reads (number w : Reader σ Nat) (serLE w n) n := by
  have hr := reads_number (σ := σ) (serLE w n)
  rwa [length_serLE, leNat_serLE, Nat.mod_eq_of_lt h] at hr

/-- The signed number with the two's complement `n` in `w` bytes. -/
def twosComplement (w n : Nat) : Int :=
  if 2 * n < 256 ^ w then n else n - 256 ^ w

/-- A signed number of `w` bytes. -/
def int (w : Nat) : Reader σ Int := do
  let n ← number w
  pure (twosComplement w n)

theorem twosComplement_toNat_emod {w : Nat} {n : Int} (h0 : -256 ^ w ≤ 2 * n) (h1 : 2 * n < 256 ^ w) :
    twosComplement w (n % 256 ^ w).toNat = n := by
  have hcast : ((256 ^ w : Nat) : Int) = 256 ^ w := by push_cast; rfl
  have hpos : (0 : Int) < 256 ^ w := by positivity
  unfold twosComplement
  rcases lt_or_ge n 0 with hneg | hnonneg
  · have hval : n % 256 ^ w = n + 256 ^ w := by
      rw [← Int.add_emod_right, Int.emod_eq_of_lt (by omega) (by omega)]
    rw [hval, if_neg (by omega)]
    omega
  · rw [Int.emod_eq_of_lt hnonneg (by omega), if_pos (by omega)]
    omega

theorem reads_int_serInt {w : Nat} {n : Int} (h0 : -256 ^ w ≤ 2 * n) (h1 : 2 * n < 256 ^ w) :
    Reads (int w : Reader σ Int) (serInt w n) n := by
  have hpow : (2 : Int) ^ (8 * w) = 256 ^ w := by rw [pow_mul]; norm_num
  have hcast : ((256 ^ w : Nat) : Int) = 256 ^ w := by push_cast; rfl
  have hmod := Int.emod_lt_of_pos n (show (0 : Int) < 256 ^ w by positivity)
  have hr := (reads_number_serLE (σ := σ) (w := w) (n := (n % 256 ^ w).toNat) (by omega)).map (twosComplement w)
  rwa [twosComplement_toNat_emod h0 h1, ← hpow] at hr

def uint256 : Reader σ Uint256 := do
  let n ← number 32
  pure (BitVec.ofNat 256 n)

theorem reads_serUint256 (h : Uint256) : Reads (uint256 : Reader σ Uint256) (serUint256 h) h := by
  have hr := (reads_number_serLE (σ := σ) (w := 32) (n := h.toNat) h.isLt).map (BitVec.ofNat 256)
  rwa [BitVec.ofNat_toNat, BitVec.setWidth_eq] at hr

end Basic

/-! ## Sizes -/

def maxSize : Nat := 0x02000000

/-- The size after its first byte; a size that a shorter form could hold is refused. -/
def compactSizeTail (chSize : Nat) : Reader (List UInt8) Nat :=
  if chSize < 253 then pure chSize
  else if chSize = 253 then do
    let n ← number 2
    check (decide (253 ≤ n))
    pure n
  else if chSize = 254 then do
    let n ← number 4
    check (decide (0x10000 ≤ n))
    pure n
  else do
    let n ← number 8
    check (decide (0x100000000 ≤ n))
    pure n

def readCompactSize : Reader (List UInt8) Nat := do
  let chSize ← number 1
  let nSizeRet ← compactSizeTail chSize
  check (decide (nSizeRet ≤ maxSize))
  pure nSizeRet

theorem writeCompactSize_cases {n : Nat} (h : n < 2 ^ 64) :
    (n < 253 ∧ writeCompactSize n = serLE 1 n) ∨
    (253 ≤ n ∧ n < 256 ^ 2 ∧ writeCompactSize n = serLE 1 253 ++ serLE 2 n) ∨
    (0x10000 ≤ n ∧ n < 256 ^ 4 ∧ writeCompactSize n = serLE 1 254 ++ serLE 4 n) ∨
    (0x100000000 ≤ n ∧ n < 256 ^ 8 ∧ writeCompactSize n = serLE 1 255 ++ serLE 8 n) := by
  unfold writeCompactSize
  split
  · exact .inl ⟨by assumption, rfl⟩
  · split
    · exact .inr (.inl ⟨by omega, by omega, rfl⟩)
    · split
      · exact .inr (.inr (.inl ⟨by omega, by omega, rfl⟩))
      · exact .inr (.inr (.inr ⟨by omega, by omega, rfl⟩))

theorem reads_compactSizeTail {n : Nat} (h : n < 2 ^ 64) :
    ∃ chSize < 256, ∃ tail, writeCompactSize n = serLE 1 chSize ++ tail ∧ Reads (compactSizeTail chSize) tail n := by
  rcases writeCompactSize_cases h with ⟨hn, hw⟩ | ⟨h0, h1, hw⟩ | ⟨h0, h1, hw⟩ | ⟨h0, h1, hw⟩
  · refine ⟨n, by omega, [], by rw [hw, List.append_nil], ?_⟩
    rw [compactSizeTail, if_pos hn]
    exact Reads.pure n
  · exact ⟨253, by omega, _, hw, (reads_number_serLE h1).checked (decide_eq_true h0)⟩
  · exact ⟨254, by omega, _, hw, (reads_number_serLE h1).checked (decide_eq_true h0)⟩
  · exact ⟨255, by omega, _, hw, (reads_number_serLE h1).checked (decide_eq_true h0)⟩

theorem reads_compactSize {n : Nat} (h : n ≤ maxSize) : Reads readCompactSize (writeCompactSize n) n := by
  have hmax : maxSize = 0x02000000 := rfl
  obtain ⟨chSize, hch, tail, hw, htail⟩ := reads_compactSizeTail (n := n) (by omega)
  rw [hw]
  exact (reads_number_serLE (by omega)).bind (htail.checked (decide_eq_true h))

/-! ## Vectors -/

def readBytes : Reader (List UInt8) (List UInt8) := do
  let n ← readCompactSize
  take n

def readVector {α : Type} (r : Reader (List UInt8) α) : Reader (List UInt8) (List α) := do
  let n ← readCompactSize
  many r n

theorem reads_bytes {bs : List UInt8} (h : bs.length ≤ maxSize) : Reads readBytes (serBytes bs) bs :=
  (reads_compactSize h).bind (reads_take bs)

theorem reads_vector {α γ : Type} {r : Reader (List UInt8) α} {e : γ → List UInt8} {v : γ → α} {l : List γ}
    (hlen : l.length ≤ maxSize) (h : ∀ y ∈ l, Reads r (e y) (v y)) :
    Reads (readVector r) (serVector (l.map e)) (l.map v) := by
  rw [serVector, List.length_map]
  exact (reads_compactSize hlen).bind (Reads.many h)

/-! ## Fields and lengths that fit -/

/-- The fields of an input fit their types and its vectors the limit. -/
structure CTxIn.Fits (limit : Nat) (txin : CTxIn) : Prop where
  index_lt : txin.prevout.n < 2 ^ 32
  script_le : txin.scriptSig.length ≤ limit
  sequence_lt : txin.nSequence < 2 ^ 32
  witness_le : txin.scriptWitness.length ≤ limit
  items_le : ∀ item ∈ txin.scriptWitness, item.length ≤ limit

/-- The fields of an output fit their types and its script the limit. -/
structure CTxOut.Fits (limit : Nat) (out : CTxOut) : Prop where
  value_ge : -2 ^ 63 ≤ out.nValue
  value_lt : out.nValue < 2 ^ 63
  script_le : out.scriptPubKey.length ≤ limit

/-- The fields of a transaction fit their types and all of its vectors the limit. -/
structure CTransaction.Fits (limit : Nat) (tx : CTransaction) : Prop where
  version_ge : -2 ^ 31 ≤ tx.nVersion
  version_lt : tx.nVersion < 2 ^ 31
  time_lt : tx.nTime < 2 ^ 32
  vin_le : tx.vin.length ≤ limit
  vin_fits : ∀ txin ∈ tx.vin, txin.Fits limit
  vout_le : tx.vout.length ≤ limit
  vout_fits : ∀ out ∈ tx.vout, out.Fits limit
  lockTime_lt : tx.nLockTime < 2 ^ 32

/-! ## Inputs, outputs and witnesses -/

def CTxIn.bare (txin : CTxIn) : CTxIn := { txin with scriptWitness := [] }

def readTxIn : Reader (List UInt8) CTxIn := do
  let hash ← uint256
  let n ← number 4
  let scriptSig ← readBytes
  let nSequence ← number 4
  pure ⟨⟨hash, n⟩, scriptSig, nSequence, []⟩

def readTxOut : Reader (List UInt8) CTxOut := do
  let nValue ← int 8
  let scriptPubKey ← readBytes
  pure ⟨nValue, scriptPubKey⟩

theorem reads_txIn {txin : CTxIn} (h : txin.Fits maxSize) : Reads readTxIn txin.serialize txin.bare := by
  rw [CTxIn.serialize, List.append_assoc, List.append_assoc]
  refine (reads_serUint256 txin.prevout.hash).bind ?_
  refine (reads_number_serLE h.index_lt).bind ?_
  refine (reads_bytes h.script_le).bind ?_
  exact (reads_number_serLE h.sequence_lt).map _

theorem reads_txOut {out : CTxOut} (h : out.Fits maxSize) : Reads readTxOut out.serialize out :=
  (reads_int_serInt (w := 8) (by have := h.value_ge; omega) (by have := h.value_lt; omega)).bind
    ((reads_bytes h.script_le).map fun scriptPubKey => (⟨out.nValue, scriptPubKey⟩ : CTxOut))

def serStack (txin : CTxIn) : List UInt8 := serVector (txin.scriptWitness.map serBytes)

theorem reads_stack {txin : CTxIn} (h : txin.Fits maxSize) :
    Reads (readVector readBytes) (serStack txin) txin.scriptWitness := by
  have hr := reads_vector (e := serBytes) (v := id) h.witness_le fun item hitem => reads_bytes (h.items_le item hitem)
  rwa [List.map_id] at hr

def withWitnesses (vin : List CTxIn) (witnesses : List (List (List UInt8))) : List CTxIn :=
  vin.zipWith (fun txin stack => { txin with scriptWitness := stack }) witnesses

theorem withWitnesses_bare (vin : List CTxIn) :
    withWitnesses (vin.map CTxIn.bare) (vin.map (·.scriptWitness)) = vin := by
  induction vin with
  | nil => rfl
  | cons txin vin ih => exact congrArg (txin :: ·) ih

theorem map_bare_of_hasWitness {tx : CTransaction} (h : tx.hasWitness = false) : tx.vin.map CTxIn.bare = tx.vin := by
  refine (List.map_congr_left fun txin hmem => ?_).trans (List.map_id _)
  have hnil : txin.scriptWitness = [] := by
    have := List.any_eq_false.1 h txin hmem
    simpa using this
  obtain ⟨prevout, scriptSig, nSequence, scriptWitness⟩ := txin
  cases hnil
  rfl

/-! ## Transactions -/

/-- `s >> tx.nTime`, for versions below 2 only. -/
def readTime (nVersion : Int) : Reader (List UInt8) Nat :=
  if nVersion < 2 then number 4 else pure 0

def readExtended (flags : Nat) : Reader (List UInt8) (Nat × List CTxIn × List CTxOut) :=
  if flags ≠ 0 then do
    let vin ← readVector readTxIn
    let vout ← readVector readTxOut
    pure (flags, vin, vout)
  else pure (0, [], [])

/-- The flags, the inputs and the outputs. An empty vector of inputs is the dummy of the extended format. -/
def readInsOuts (fAllowWitness : Bool) : Reader (List UInt8) (Nat × List CTxIn × List CTxOut) := do
  let vin ← readVector readTxIn
  if vin.isEmpty && fAllowWitness then do
    let flags ← number 1
    readExtended flags
  else do
    let vout ← readVector readTxOut
    pure (0, vin, vout)

/-- The witnesses, if flag 1 announces them; the flag is cleared. -/
def readWitness (fAllowWitness : Bool) (flags : Nat) (vin : List CTxIn) : Reader (List UInt8) (Nat × List CTxIn) :=
  if flags.testBit 0 && fAllowWitness then do
    let witnesses ← many (readVector readBytes) vin.length
    check ((withWitnesses vin witnesses).any fun txin => !txin.scriptWitness.isEmpty)
    pure (flags ^^^ 1, withWitnesses vin witnesses)
  else pure (flags, vin)

def unserializeTransaction (fAllowWitness : Bool) : Reader (List UInt8) CTransaction := do
  let nVersion ← int 4
  let nTime ← readTime nVersion
  let body ← readInsOuts fAllowWitness
  let ins ← readWitness fAllowWitness body.1 body.2.1
  check (ins.1 == 0)
  let nLockTime ← number 4
  pure ⟨ins.2, body.2.2, nVersion, nTime, nLockTime⟩

section RoundTrip

variable {tx : CTransaction}

theorem reads_time (h : tx.nTime < 2 ^ 32) :
    Reads (readTime tx.nVersion) (if tx.nVersion < 2 then serLE 4 tx.nTime else []) tx.reread.nTime := by
  simp only [readTime, CTransaction.reread]
  split
  · exact reads_number_serLE h
  · exact Reads.pure 0

theorem reads_vin (h : tx.Fits maxSize) :
    Reads (readVector readTxIn) (serVector (tx.vin.map CTxIn.serialize)) (tx.vin.map CTxIn.bare) :=
  reads_vector h.vin_le fun txin hmem => reads_txIn (h.vin_fits txin hmem)

theorem reads_vout (h : tx.Fits maxSize) :
    Reads (readVector readTxOut) (serVector (tx.vout.map CTxOut.serialize)) tx.vout := by
  have hr := reads_vector (v := id) h.vout_le fun out hmem => reads_txOut (h.vout_fits out hmem)
  rwa [List.map_id] at hr

theorem reads_dummy : Reads (readVector readTxIn) [0] [] :=
  reads_vector (r := readTxIn) (e := CTxIn.serialize) (v := CTxIn.bare) (l := []) (by decide) (by simp)

theorem reads_insOuts (h : tx.Fits maxSize) (hvin : tx.vin ≠ []) :
    Reads (readInsOuts true) (serVector (tx.vin.map CTxIn.serialize) ++ serVector (tx.vout.map CTxOut.serialize))
      (0, tx.vin.map CTxIn.bare, tx.vout) := by
  refine (reads_vin h).bind ?_
  rw [if_neg (by simpa using hvin)]
  exact (reads_vout h).map _

theorem reads_insOuts_extended (h : tx.Fits maxSize) :
    Reads (readInsOuts true)
      ([0, 1] ++ (serVector (tx.vin.map CTxIn.serialize) ++ serVector (tx.vout.map CTxOut.serialize)))
      (1, tx.vin.map CTxIn.bare, tx.vout) := by
  refine Reads.bind (w := [0]) reads_dummy ?_
  refine Reads.bind (w := [1]) (reads_number_serLE (w := 1) (n := 1) (by decide)) ?_
  refine (reads_vin h).bind ?_
  exact (reads_vout h).map _

theorem reads_witness (h : tx.Fits maxSize) (hw : tx.hasWitness = true) :
    Reads (readWitness true 1 (tx.vin.map CTxIn.bare))
      (tx.vin.map fun txin => serVector (txin.scriptWitness.map serBytes)).flatten (0, tx.vin) := by
  have hmany := Reads.many (v := (·.scriptWitness)) fun txin hmem => reads_stack (h.vin_fits txin hmem)
  have hr := hmany.bind (f := fun witnesses =>
    check ((withWitnesses (tx.vin.map CTxIn.bare) witnesses).any fun txin => !txin.scriptWitness.isEmpty) >>= fun _ =>
      pure (1 ^^^ 1, withWitnesses (tx.vin.map CTxIn.bare) witnesses))
    (Reads.check_bind (by rw [withWitnesses_bare]; exact hw) (Reads.pure _))
  rw [List.append_nil, withWitnesses_bare] at hr
  rw [readWitness, if_pos (by decide), List.length_map]
  exact hr

theorem reads_no_witness (vin : List CTxIn) : Reads (readWitness true 0 vin) [] (0, vin) := by
  rw [readWitness, if_neg (by simp)]
  exact Reads.pure _

/-- **A serialized transaction with an input is read back as `reread` says.** -/
theorem reads_serialize (h : tx.Fits maxSize) (hvin : tx.vin ≠ []) :
    Reads (unserializeTransaction true) (tx.serialize true) tx.reread := by
  have hversion := reads_int_serInt (σ := List UInt8) (w := 4) (n := tx.nVersion) (by have := h.version_ge; omega)
    (by have := h.version_lt; omega)
  have hlock := reads_number_serLE (σ := List UInt8) (w := 4) (n := tx.nLockTime) h.lockTime_lt
  cases hw : tx.hasWitness with
  | false =>
    simp only [CTransaction.serialize, hw, Bool.and_false, Bool.false_eq_true, if_false, List.append_nil,
      List.append_assoc]
    refine hversion.bind ((reads_time h.time_lt).bind ?_)
    rw [← List.append_assoc]
    refine (reads_insOuts h hvin).bind ?_
    rw [map_bare_of_hasWitness hw]
    refine Reads.bind (w := []) (reads_no_witness tx.vin) ?_
    exact hlock.map _
  | true =>
    simp only [CTransaction.serialize, hw, Bool.and_true, if_true, List.append_assoc]
    refine hversion.bind ((reads_time h.time_lt).bind ?_)
    rw [← List.append_assoc (serVector _), ← List.append_assoc [0, 1]]
    refine (reads_insOuts_extended h).bind ?_
    refine (reads_witness h hw).bind ?_
    exact hlock.map _

end RoundTrip

/-! ## What is accepted fits -/

section Accepted

theorem returns_int (w : Nat) : Returns (int w : Reader (List UInt8) Int) fun n => -256 ^ w ≤ 2 * n ∧
    2 * n < 256 ^ w := by
  refine (returns_number w).bind fun n hn => .pure ?_
  have hcast : ((256 ^ w : Nat) : Int) = 256 ^ w := by push_cast; rfl
  unfold twosComplement
  split <;> omega

theorem returns_compactSize : Returns readCompactSize (· ≤ maxSize) := by
  refine (returns_number 1).bind fun chSize _ => ?_
  refine Returns.bind (P := fun _ => True) (fun _ _ _ _ => trivial) fun n _ => ?_
  exact (Returns.check _).bind fun _ hc => .pure (of_decide_eq_true hc)

theorem returns_bytes : Returns readBytes (·.length ≤ maxSize) :=
  returns_compactSize.bind fun n hn => (returns_take n).mono fun _ h => h ▸ hn

theorem returns_vector {α : Type} {r : Reader (List UInt8) α} {P : α → Prop} (h : Returns r P) :
    Returns (readVector r) fun l => l.length ≤ maxSize ∧ ∀ x ∈ l, P x :=
  returns_compactSize.bind fun n hn => (h.many n).mono fun _ hl => ⟨hl.1 ▸ hn, hl.2⟩

theorem returns_txIn : Returns readTxIn (CTxIn.Fits maxSize) := by
  refine Returns.bind (P := fun _ => True) (fun _ _ _ _ => trivial) fun hash _ => ?_
  refine (returns_number 4).bind fun n hn => returns_bytes.bind fun script hscript => ?_
  refine (returns_number 4).bind fun nSequence hseq => .pure ?_
  exact ⟨hn, hscript, hseq, Nat.zero_le _, by simp⟩

theorem returns_txOut : Returns readTxOut (CTxOut.Fits maxSize) := by
  refine (returns_int 8).bind fun nValue hvalue => returns_bytes.bind fun script hscript => .pure ?_
  exact ⟨show _ ≤ nValue by omega, show nValue < _ by omega, hscript⟩

theorem withWitnesses_fits {vin : List CTxIn} {witnesses : List (List (List UInt8))}
    (hvin : ∀ txin ∈ vin, txin.Fits maxSize)
    (hw : ∀ stack ∈ witnesses, stack.length ≤ maxSize ∧ ∀ item ∈ stack, item.length ≤ maxSize) :
    ∀ txin ∈ withWitnesses vin witnesses, txin.Fits maxSize := by
  intro txin hmem
  rw [withWitnesses, ← List.map_uncurry_zip_eq_zipWith, List.mem_map] at hmem
  obtain ⟨⟨bare, stack⟩, hzip, rfl⟩ := hmem
  obtain ⟨hbare, hstack⟩ := List.of_mem_zip hzip
  have hfit := hvin bare hbare
  exact ⟨hfit.index_lt, hfit.script_le, hfit.sequence_lt, (hw stack hstack).1, (hw stack hstack).2⟩

structure InsOutsFit (vin : List CTxIn) (vout : List CTxOut) : Prop where
  vin_le : vin.length ≤ maxSize
  vin_fits : ∀ txin ∈ vin, txin.Fits maxSize
  vout_le : vout.length ≤ maxSize
  vout_fits : ∀ out ∈ vout, out.Fits maxSize

theorem returns_insOuts (fAllowWitness : Bool) :
    Returns (readInsOuts fAllowWitness) fun body => InsOutsFit body.2.1 body.2.2 := by
  refine (returns_vector returns_txIn).bind fun vin hvin => ?_
  split
  · refine Returns.bind (P := fun _ => True) (fun _ _ _ _ => trivial) fun flags _ => ?_
    unfold readExtended
    split
    · refine (returns_vector returns_txIn).bind fun vin hvin => (returns_vector returns_txOut).bind fun vout hvout => ?_
      exact .pure ⟨hvin.1, hvin.2, hvout.1, hvout.2⟩
    · exact .pure ⟨Nat.zero_le _, by simp, Nat.zero_le _, by simp⟩
  · refine (returns_vector returns_txOut).bind fun vout hvout => ?_
    exact .pure ⟨hvin.1, hvin.2, hvout.1, hvout.2⟩

theorem returns_witness (fAllowWitness : Bool) (flags : Nat) {vin : List CTxIn} {vout : List CTxOut}
    (h : InsOutsFit vin vout) : Returns (readWitness fAllowWitness flags vin) fun ins => InsOutsFit ins.2 vout := by
  unfold readWitness
  split
  · refine ((returns_vector returns_bytes).many vin.length).bind fun witnesses hw => ?_
    refine (Returns.check _).bind fun _ _ => .pure ⟨?_, withWitnesses_fits h.vin_fits hw.2, h.vout_le, h.vout_fits⟩
    rw [withWitnesses, List.length_zipWith, hw.1, Nat.min_self]
    exact h.vin_le
  · exact .pure h

/-- **Whatever transaction the node reads fits**: in particular it has no script longer than `MAX_SIZE`. -/
theorem returns_unserializeTransaction (fAllowWitness : Bool) :
    Returns (unserializeTransaction fAllowWitness) (CTransaction.Fits maxSize) := by
  refine (returns_int 4).bind fun nVersion hversion => ?_
  refine Returns.bind (P := (· < 2 ^ 32)) ?_ fun nTime htime => ?_
  · unfold readTime
    split
    · exact returns_number 4
    · exact .pure (by decide)
  refine (returns_insOuts fAllowWitness).bind fun body hbody => ?_
  refine (returns_witness fAllowWitness body.1 hbody).bind fun ins hins => ?_
  refine (Returns.check _).bind fun _ _ => (returns_number 4).bind fun nLockTime hlock => .pure ?_
  exact ⟨show _ ≤ nVersion by omega, show nVersion < _ by omega, htime, hins.vin_le, hins.vin_fits, hins.vout_le,
    hins.vout_fits, hlock⟩

end Accepted

/-! ## What is accepted was written -/

section Canonical

theorem serLE_leNat (bs : List UInt8) : serLE bs.length (leNat bs) = bs := by
  induction bs with
  | nil => rfl
  | cons b bs ih =>
    have hb := b.toNat_lt
    rw [List.length_cons, serLE, leNat, show (b.toNat + 256 * leNat bs) / 256 = leNat bs by omega, ih]
    refine congrArg (· :: bs) (UInt8.toNat_inj.1 ?_)
    rw [UInt8.toNat_ofNat']
    omega

theorem takes_number (w : Nat) : Takes (number w : Reader (List UInt8) Nat) fun n bs => bs = serLE w n ∧ n < 256 ^ w := by
  refine (takes_take w).bind fun bs _ hbs => .pure ?_
  rw [hbs.1, List.append_nil, ← hbs.2]
  exact ⟨(serLE_leNat bs).symm, leNat_lt bs⟩

theorem serInt_twosComplement {w n : Nat} (h : n < 256 ^ w) : serInt w (twosComplement w n) = serLE w n := by
  have hpow : (2 : Int) ^ (8 * w) = (256 ^ w : Nat) := by rw [pow_mul]; norm_num
  have hcast : ((256 ^ w : Nat) : Int) = 256 ^ w := by push_cast; rfl
  rw [serInt, hpow]
  unfold twosComplement
  split
  · rw [← Int.natCast_emod, Int.toNat_natCast, Nat.mod_eq_of_lt h]
  · rw [← hcast, Int.sub_emod_right, ← Int.natCast_emod, Int.toNat_natCast, Nat.mod_eq_of_lt h]

theorem takes_int (w : Nat) : Takes (int w : Reader (List UInt8) Int) fun n bs => bs = serInt w n :=
  (takes_number w).bind fun n _ hn => .pure (by rw [hn.1, List.append_nil, serInt_twosComplement hn.2])

theorem takes_uint256 : Takes (uint256 : Reader (List UInt8) Uint256) fun h bs => bs = serUint256 h := by
  refine (takes_number 32).bind fun n _ hn => .pure ?_
  rw [hn.1, List.append_nil, serUint256, BitVec.toNat_ofNat, Nat.mod_eq_of_lt (show n < 2 ^ 256 from hn.2)]

theorem takes_compactSize : Takes readCompactSize fun n bs => bs = writeCompactSize n := by
  -- one of the longer forms
  have hlong : ∀ k low, Takes (number k >>= fun n => check (decide (low ≤ n)) >>= fun _ => pure n :
    Reader (List UInt8) Nat)
      fun n bs => bs = serLE k n ∧ low ≤ n ∧ n < 256 ^ k := fun k low =>
    (takes_number k).bind fun n _ hn => (Takes.check _).bind fun _ _ hc => .pure
      ⟨by rw [hn.1, hc.1, List.append_nil, List.append_nil], of_decide_eq_true hc.2, hn.2⟩
  refine (takes_number 1).bind fun chSize _ hch => ?_
  refine Takes.bind (P := fun n bs => serLE 1 chSize ++ bs = writeCompactSize n) ?_ fun n bs hn => ?_
  · unfold compactSizeTail
    split
    · next h => exact .pure (by rw [writeCompactSize, if_pos h, List.append_nil])
    split
    · next _ h =>
      refine (hlong 2 253).mono fun n bs hn => ?_
      rw [writeCompactSize, if_neg (by omega), if_pos (by omega), hn.1, h]
      rfl
    split
    · next _ _ h =>
      refine (hlong 4 0x10000).mono fun n bs hn => ?_
      rw [writeCompactSize, if_neg (by omega), if_neg (by omega), if_pos (by omega), hn.1, h]
      rfl
    · refine (hlong 8 0x100000000).mono fun n bs hn => ?_
      rw [writeCompactSize, if_neg (by omega), if_neg (by omega), if_neg (by omega), hn.1, show chSize = 255 by omega]
      rfl
  · exact (Takes.check _).bind fun _ _ hc => .pure (by rw [hch.1, hc.1, ← hn, List.append_nil, List.append_nil])

theorem takes_bytes : Takes readBytes fun bs w => w = serBytes bs :=
  takes_compactSize.bind fun n _ hn => (takes_take n).mono fun bs w hbs => by rw [hn, hbs.1, serBytes, hbs.2]

theorem takes_vector {α : Type} {r : Reader (List UInt8) α} {e : α → List UInt8} {P : α → Prop}
    (h : Takes r fun x w => w = e x ∧ P x) : Takes (readVector r) fun l w => w = serVector (l.map e) ∧ ∀ x ∈ l, P x :=
  takes_compactSize.bind fun n _ hn => (h.many n).mono fun l w hl =>
    ⟨by rw [hn, hl.1, serVector, List.length_map, hl.2.1], hl.2.2⟩

theorem takes_txIn : Takes readTxIn fun txin w => w = txin.serialize ∧ txin.scriptWitness = [] := by
  refine takes_uint256.bind fun hash _ hhash => (takes_number 4).bind fun n _ hn =>
    takes_bytes.bind fun script _ hscript => ?_
  refine (takes_number 4).bind fun nSequence _ hseq => .pure ⟨?_, rfl⟩
  rw [hhash, hn.1, hscript, hseq.1, CTxIn.serialize]
  simp only [List.append_nil, List.append_assoc]

theorem takes_txOut : Takes readTxOut fun out w => w = out.serialize ∧ True := by
  refine (takes_int 8).bind fun nValue _ hvalue => takes_bytes.bind fun script _ hscript => .pure ⟨?_, trivial⟩
  rw [hvalue, hscript, CTxOut.serialize, List.append_nil]

/-- What is written of the inputs and outputs, with the flags of the extended format. -/
def serInsOuts (body : Nat × List CTxIn × List CTxOut) : List UInt8 :=
  (if body.1 = 0 then [] else [0, UInt8.ofNat body.1]) ++ serVector (body.2.1.map CTxIn.serialize)
    ++ serVector (body.2.2.map CTxOut.serialize)

theorem takes_insOuts (fAllowWitness : Bool) : Takes (readInsOuts fAllowWitness) fun body w =>
    w = serInsOuts body ∧ body.1 < 256 ∧ ∀ txin ∈ body.2.1, txin.scriptWitness = [] := by
  refine (takes_vector takes_txIn).bind fun vin _ hvin => ?_
  split
  · next hdummy =>
    obtain rfl : vin = [] := by simpa using (Bool.and_eq_true_iff.1 hdummy).1
    refine (takes_number 1).bind fun flags _ hflags => ?_
    unfold readExtended
    split
    · next hne =>
      refine (takes_vector takes_txIn).bind fun vin _ hvin' => (takes_vector takes_txOut).bind fun vout _ hvout =>
        .pure ?_
      refine ⟨?_, hflags.2, hvin'.2⟩
      rw [hvin.1, hflags.1, hvin'.1, hvout.1, serInsOuts, if_neg hne]
      simp [serVector, serLE, writeCompactSize]
    · next hzero =>
      obtain rfl : flags = 0 := by simpa using hzero
      exact .pure ⟨by rw [hvin.1, hflags.1]; rfl, by decide, by simp⟩
  · refine (takes_vector takes_txOut).bind fun vout _ hvout => .pure ⟨?_, Nat.zero_lt_succ _, hvin.2⟩
    rw [hvin.1, hvout.1, serInsOuts]
    simp

theorem map_withWitnesses {vin : List CTxIn} {witnesses : List (List (List UInt8))} (h : witnesses.length = vin.length) :
    (withWitnesses vin witnesses).map CTxIn.serialize = vin.map CTxIn.serialize ∧
      (withWitnesses vin witnesses).map (·.scriptWitness) = witnesses := by
  induction vin generalizing witnesses with
  | nil =>
    obtain rfl := List.eq_nil_of_length_eq_zero h
    exact ⟨rfl, rfl⟩
  | cons txin vin ih =>
    obtain ⟨stack, rest, rfl⟩ := List.exists_cons_of_length_eq_add_one h
    obtain ⟨hins, hstacks⟩ := ih (Nat.succ.inj h)
    exact ⟨congrArg (txin.serialize :: ·) hins, congrArg (stack :: ·) hstacks⟩

theorem takes_witness (fAllowWitness : Bool) (flags : Nat) (vin : List CTxIn) :
    Takes (readWitness fAllowWitness flags vin) fun ins w => ins.1 = 0 →
      flags = 0 ∧ ins.2 = vin ∧ w = [] ∨
      fAllowWitness = true ∧ flags = 1 ∧ ins.2.map CTxIn.serialize = vin.map CTxIn.serialize ∧
        (ins.2.any fun txin => !txin.scriptWitness.isEmpty) = true ∧ w = (ins.2.map serStack).flatten := by
  unfold readWitness
  split
  · next hflag =>
    have hstack : Takes (readVector readBytes) fun stack w => w = serVector (stack.map serBytes) ∧ True :=
      (takes_vector (P := fun _ => True) (takes_bytes.mono fun _ _ h => ⟨h, trivial⟩)).mono fun _ _ h => ⟨h.1, trivial⟩
    refine (hstack.many vin.length).bind fun witnesses _ hw => (Takes.check _).bind fun _ _ hc => .pure fun hzero =>
      .inr ?_
    obtain ⟨hins, hstacks⟩ := map_withWitnesses hw.2.1
    refine ⟨(Bool.and_eq_true_iff.1 hflag).2, Nat.xor_eq_zero_iff.1 hzero, hins, hc.2, ?_⟩
    rw [hw.1, hc.1, List.append_nil, List.append_nil]
    conv_lhs => rw [← hstacks, List.map_map]
    rfl
  · exact .pure fun hzero => .inl ⟨hzero, rfl, rfl⟩

/-- **A transaction is read only from the bytes that it is written as**: no other bytes give the same transaction. -/
theorem unserializeTransaction_canonical {fAllowWitness : Bool} {s s' : List UInt8} {tx : CTransaction}
    (h : unserializeTransaction fAllowWitness s = some (tx, s')) : s = tx.serialize fAllowWitness ++ s' := by
  suffices htakes : Takes (unserializeTransaction fAllowWitness) fun tx w => w = tx.serialize fAllowWitness by
    obtain ⟨w, hs, rfl⟩ := htakes s tx s' h
    exact hs
  refine (takes_int 4).bind fun nVersion _ hversion => ?_
  have htime : Takes (readTime nVersion) fun nTime w => w = if nVersion < 2 then serLE 4 nTime else [] := by
    unfold readTime
    split
    · exact (takes_number 4).mono fun _ _ h => h.1
    · exact .pure rfl
  refine htime.bind fun nTime _ htime => (takes_insOuts fAllowWitness).bind fun body _ hbody => ?_
  refine (takes_witness fAllowWitness body.1 body.2.1).bind fun ins _ hins => (Takes.check _).bind fun _ _ hc => ?_
  refine (takes_number 4).bind fun nLockTime _ hlock => .pure ?_
  rw [hversion, htime, hbody.1, hc.1, hlock.1, serInsOuts, CTransaction.serialize, CTransaction.hasWitness]
  rcases hins (eq_of_beq hc.2) with ⟨hflags, hvin, hw⟩ | ⟨hallow, hflags, hvin, hany, hw⟩
  · have hplain : (body.2.1.any fun txin => !txin.scriptWitness.isEmpty) = false :=
      List.any_eq_false.2 fun txin htxin => by simp [hbody.2.2 txin htxin]
    simp [hflags, hvin, hw, hplain]
  · simp [hflags, ← hvin, hw, hallow, hany]
    rfl

def witnessTxBytes : List UInt8 :=
  [2, 0, 0, 0, 0, 1, 1] ++ List.replicate 36 0 ++ [0, 255, 255, 255, 255, 0, 1, 1, 5, 0, 0, 0, 0, 9]

theorem witnessTxBytes_canonical : ∃ tx, unserializeTransaction true witnessTxBytes = some (tx, [9]) ∧
    witnessTxBytes = tx.serialize true ++ [9] := by
  have h : unserializeTransaction true witnessTxBytes = some (⟨[⟨⟨0, 0⟩, [], 0xffffffff, [[5]]⟩], [], 2, 0, 0⟩, [9]) := by
    decide +kernel
  exact ⟨_, h, unserializeTransaction_canonical h⟩

end Canonical

end CodexaCoin
