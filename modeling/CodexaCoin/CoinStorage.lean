import CodexaCoin.Coins
import CodexaCoin.Compressor
import CodexaCoin.Lib.Wrap

/-!
# Coins on disk

`Coin::Serialize`, `Coin::Unserialize` of `coins.h` and `TxInUndoFormatter` of `undo.h`.
-/

namespace CodexaCoin

open Wire

/-- The fields of a `Coin` as they are read from disk, whether or not they are those of an unspent one. -/
structure StoredCoin where
  out : CTxOut
  fCoinBase : Bool
  fCoinStake : Bool
  nHeight : Nat
  nTime : Nat
deriving DecidableEq, Repr

def Coin.stored (c : Coin) : StoredCoin :=
  ⟨c.out, c.fCoinBase, c.fCoinStake, c.nHeight, c.nTime⟩

/-- The code of height and flags, in the arithmetic of `uint32_t`. -/
def Coin.code (c : Coin) : Nat :=
  (c.nHeight * 4 + (if c.fCoinBase then 1 else 0) + (if c.fCoinStake then 2 else 0)) % 2 ^ 32

section Formats

variable (K : PubKeys)

/-- `TxOutCompression` of an output: the amount as a `uint64_t` and the script. -/
def serTxOut (out : CTxOut) : List UInt8 :=
  VarInt.write 64 (compressAmount (out.nValue % 2 ^ 64).toNat) ++ serScript K out.scriptPubKey

def unserTxOut : Reader (List UInt8) CTxOut := do
  let v ← VarInt.read 64
  let script ← unserScript K
  pure ⟨wrap64 (decompressAmount v), script⟩

def Coin.serialize (c : Coin) : List UInt8 :=
  VarInt.write 32 c.code ++ (VarInt.write 32 c.nTime ++ serTxOut K c.out)

/-- `Coin::Unserialize`. -/
def unserializeCoin : Reader (List UInt8) StoredCoin := do
  let code ← VarInt.read 32
  let nTime ← VarInt.read 32
  let out ← unserTxOut K
  pure ⟨out, decide (code % 2 = 1), decide (code / 2 % 2 = 1), code / 4, nTime⟩

/-- `TxInUndoFormatter::Ser`, with the byte of the old format. -/
def Coin.serUndo (c : Coin) : List UInt8 :=
  VarInt.write 32 c.code ++
    ((if c.nHeight > 0 then [0] else []) ++ (VarInt.write 32 c.nTime ++ serTxOut K c.out))

def unserVersionDummy (nHeight : Nat) : Reader (List UInt8) Nat :=
  if nHeight > 0 then VarInt.read 32 else pure 0

/-- `TxInUndoFormatter::Unser` after the code. -/
def unserUndoRest (nCode : Nat) : Reader (List UInt8) StoredCoin := do
  let _nVersionDummy ← unserVersionDummy (nCode / 4)
  let nTime ← VarInt.read 32
  let out ← unserTxOut K
  pure ⟨out, decide (nCode % 2 = 1), decide (nCode / 2 % 2 = 1), nCode / 4, nTime⟩

/-- `TxInUndoFormatter::Unser`. -/
def unserUndo : Reader (List UInt8) StoredCoin := do
  let nCode ← VarInt.read 32
  unserUndoRest K nCode

end Formats

/-! ## What comes back -/

/-- A coin that `AddCoin` stores, with fields that fit their types. -/
structure AddedCoin extends Coin where
  range : moneyRange out.nValue = true
  spendable : isUnspendable out.scriptPubKey = false
  nTime_lt : nTime < 2 ^ 32
  nHeight_lt : nHeight < 2 ^ 31

def AddedCoin.amount (c : AddedCoin) : Nat := c.out.nValue.toNat

section Facts

variable {K : PubKeys} (c : AddedCoin)

theorem AddedCoin.amount_spec : (c.amount : Int) = c.out.nValue ∧ c.amount < 2 ^ 63 := by
  have hr := moneyRange_iff.1 c.range
  have hmax : maxMoney = 2 ^ 63 - 1 := rfl
  unfold AddedCoin.amount
  omega

/-- The coin that `Unserialize` makes of a serialized one. -/
def AddedCoin.reread (c : AddedCoin) : StoredCoin :=
  ⟨⟨wrap64 (decompressAmount (compressAmount c.amount)), c.out.scriptPubKey⟩, c.fCoinBase, c.fCoinStake,
    c.nHeight % 2 ^ 30, c.nTime⟩

theorem reads_serTxOut : Reads (unserTxOut K) (serTxOut K c.out)
    ⟨wrap64 (decompressAmount (compressAmount c.amount)), c.out.scriptPubKey⟩ := by
  obtain ⟨hval, hlt⟩ := c.amount_spec
  have hamount : (c.out.nValue % 2 ^ 64).toNat = c.amount := by omega
  have hlen : c.out.scriptPubKey.length ≤ maxScriptSize := by
    have h := c.spendable
    simp only [isUnspendable, decide_eq_false_iff_not, not_or] at h
    omega
  unfold serTxOut unserTxOut
  rw [hamount]
  refine (VarInt.reads_write (by decide) (compressAmount_lt _)).bind ?_
  exact (reads_script hlen).map fun script => (⟨wrap64 (decompressAmount (compressAmount c.amount)), script⟩ : CTxOut)

theorem code_spec : c.code < 2 ^ 32 ∧ c.code / 4 = c.nHeight % 2 ^ 30 ∧ decide (c.code % 2 = 1) = c.fCoinBase ∧
    decide (c.code / 2 % 2 = 1) = c.fCoinStake := by
  unfold Coin.code
  refine ⟨Nat.mod_lt _ (by decide), ?_, ?_, ?_⟩
  · split <;> split <;> omega
  · cases c.fCoinBase <;> cases c.fCoinStake <;> simp <;> omega
  · cases c.fCoinBase <;> cases c.fCoinStake <;> simp <;> omega

theorem reads_rest : Reads (do
      let nTime ← VarInt.read 32
      let out ← unserTxOut K
      pure (⟨out, decide (c.code % 2 = 1), decide (c.code / 2 % 2 = 1), c.code / 4, nTime⟩ : StoredCoin))
    (VarInt.write 32 c.nTime ++ serTxOut K c.out) c.reread := by
  obtain ⟨-, hheight, hbase, hstake⟩ := code_spec c
  refine (VarInt.reads_write (by decide) c.nTime_lt).bind ?_
  rw [hheight, hbase, hstake]
  exact (reads_serTxOut c).map fun out => (⟨out, c.fCoinBase, c.fCoinStake, c.nHeight % 2 ^ 30, c.nTime⟩ : StoredCoin)

/-- **What `Unserialize` makes of a serialized coin.** -/
theorem reads_coin : Reads (unserializeCoin K) (c.toCoin.serialize K) c.reread :=
  (VarInt.reads_write (by decide) (code_spec c).1).bind (reads_rest c)

/-- **What `Unser` makes of the undo data of a coin** whose height fits. -/
theorem reads_undo (hheight : c.nHeight < 2 ^ 30) : Reads (unserUndo K) (c.toCoin.serUndo K) c.reread := by
  obtain ⟨hcode, hcodeHeight, -⟩ := code_spec c
  have hsame : c.code / 4 = c.nHeight := by rw [hcodeHeight, Nat.mod_eq_of_lt hheight]
  -- the byte of the old format is written and read for the same heights
  have hdummy : Reads (unserVersionDummy (c.code / 4)) (if c.nHeight > 0 then [0] else []) 0 := by
    rw [hsame, unserVersionDummy]
    split
    · have hzero : VarInt.write 32 0 = [0] := rfl
      rw [← hzero]
      exact VarInt.reads_write (by decide) (by decide)
    · exact Reads.pure 0
  exact (VarInt.reads_write (by decide) hcode).bind (hdummy.bind (f := fun _ => _) (reads_rest c))

/-- A coin comes back from a format: the reader returns it and takes exactly the bytes that were written. -/
def ComesBack (r : Reader (List UInt8) StoredCoin) (written : List UInt8) (c : Coin) : Prop :=
  ∀ rest, r (written ++ rest) = some (c.stored, rest)

theorem reread_eq_iff : c.reread = c.stored ↔
    c.nHeight < 2 ^ 30 ∧ (c.amount % 10 = 0 ∨ c.amount ≤ 2049638230412172402) := by
  obtain ⟨hval, hlt⟩ := c.amount_spec
  have hback := decompressAmount_lt (compressAmount c.amount)
  have hamount : wrap64 (decompressAmount (compressAmount c.amount)) = c.out.nValue ↔
      decompressAmount (compressAmount c.amount) = c.amount := by
    rw [← hval]
    unfold wrap64
    omega
  rw [← decompress_compress_iff hlt, ← hamount]
  have hheight : c.nHeight % 2 ^ 30 = c.nHeight ↔ c.nHeight < 2 ^ 30 := by omega
  rw [← hheight]
  constructor
  · intro h
    exact ⟨congrArg StoredCoin.nHeight h, congrArg (fun r => r.out.nValue) h⟩
  · rintro ⟨hh, hout⟩
    unfold AddedCoin.reread Coin.stored
    rw [hh, hout]

theorem unserUndoRest_height (code : Nat) : Returns (unserUndoRest K code) fun r => r.nHeight = code / 4 := by
  have any : ∀ {α : Type} (r : Reader (List UInt8) α), Returns r fun _ => True := fun _ _ _ _ _ => trivial
  refine (any _).bind fun _ _ => (any _).bind fun _ _ => (any _).bind fun _ _ => ?_
  exact Returns.pure rfl

theorem unserUndo_height {t t' : List UInt8} {r : StoredCoin} {code : Nat} (hcode : code < 2 ^ 32)
    (h : unserUndo K (VarInt.write 32 code ++ t) = some (r, t')) : r.nHeight = code / 4 := by
  have hread := (VarInt.reads_write (by decide) hcode).apply_stream t
  have h : ((VarInt.read 32 (VarInt.write 32 code ++ t)).bind fun p => unserUndoRest K p.1 p.2) = some (r, t') := h
  rw [hread] at h
  exact unserUndoRest_height code t r t' h

/-- **Which coins are stored without loss**: those of a height below `2 ^ 30` whose value ends in a zero or is at most
2049638230412172402. -/
theorem coin_lossless_iff (K : PubKeys) (c : AddedCoin) :
    (ComesBack (unserializeCoin K) (c.toCoin.serialize K) c.toCoin ↔
      c.nHeight < 2 ^ 30 ∧ (c.amount % 10 = 0 ∨ c.amount ≤ 2049638230412172402)) ∧
    (ComesBack (unserUndo K) (c.toCoin.serUndo K) c.toCoin ↔
      c.nHeight < 2 ^ 30 ∧ (c.amount % 10 = 0 ∨ c.amount ≤ 2049638230412172402)) ∧
    (decompressAmount (compressAmount c.amount) = c.amount ↔
      c.amount % 10 = 0 ∨ c.amount ≤ 2049638230412172402) := by
  have hstored : ∀ {r : Reader (List UInt8) StoredCoin} {w : List UInt8}, Reads r w c.reread →
      (ComesBack r w c.toCoin ↔ c.nHeight < 2 ^ 30 ∧ (c.amount % 10 = 0 ∨ c.amount ≤ 2049638230412172402)) := by
    intro r w hr
    rw [← reread_eq_iff]
    constructor
    · intro hback
      have h := (hr.apply_stream []).symm.trans (hback [])
      exact (Prod.mk.inj (Option.some.inj h)).1
    · intro heq rest
      rw [hr.apply_stream, heq]
  refine ⟨hstored (reads_coin c), ?_, decompress_compress_iff c.amount_spec.2⟩
  by_cases hheight : c.nHeight < 2 ^ 30
  · exact hstored (reads_undo c hheight)
  · refine ⟨fun hback => absurd ?_ hheight, fun h => absurd h.1 hheight⟩
    obtain ⟨hcode, hcodeHeight, -⟩ := code_spec c
    have h := hback []
    rw [List.append_nil, Coin.serUndo] at h
    have hsame : c.nHeight = c.code / 4 := unserUndo_height hcode h
    omega

end Facts

/-! ## Two coins that are lost -/

def noPubKeys : PubKeys := ⟨fun _ => false, fun _ => none, fun _ _ _ _ h => nomatch h⟩

def largeCoin : AddedCoin where
  out := ⟨2049638230412172403, [0x51]⟩
  fCoinBase := false
  fCoinStake := false
  nHeight := 1
  nTime := 0
  unspent := by decide
  range := by decide
  spendable := by decide
  nTime_lt := by decide
  nHeight_lt := by decide

def highCoin : AddedCoin where
  out := ⟨1, [0x51]⟩
  fCoinBase := false
  fCoinStake := false
  nHeight := 2 ^ 30
  nTime := 0
  unspent := by decide
  range := by decide
  spendable := by decide
  nTime_lt := by decide
  nHeight_lt := by decide

/-- **Neither comes back**, from the coin database or from the undo data. -/
theorem large_and_high_lost :
    ¬ ComesBack (unserializeCoin noPubKeys) (largeCoin.toCoin.serialize noPubKeys) largeCoin.toCoin ∧
    ¬ ComesBack (unserUndo noPubKeys) (largeCoin.toCoin.serUndo noPubKeys) largeCoin.toCoin ∧
    ¬ ComesBack (unserializeCoin noPubKeys) (highCoin.toCoin.serialize noPubKeys) highCoin.toCoin ∧
    ¬ ComesBack (unserUndo noPubKeys) (highCoin.toCoin.serUndo noPubKeys) highCoin.toCoin := by
  refine ⟨fun h => absurd (h []) ?_, fun h => absurd (h []) ?_, fun h => absurd (h []) ?_, fun h => absurd (h []) ?_⟩
  all_goals decide +kernel

end CodexaCoin
