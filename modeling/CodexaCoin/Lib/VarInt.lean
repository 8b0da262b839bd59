import CodexaCoin.Lib.Wire

/-!
# Numbers of variable length

A number as base-128 digits, the most significant first, where every byte but the last has its high bit set and stands
for one more than its digit, so that no number has two encodings.
-/

namespace VarInt

open Wire

/-- The last digit of a number; `more` marks a byte that others follow. -/
def byte (n : Nat) (more : Bool) : UInt8 :=
  UInt8.ofNat (n % 128 + if more then 128 else 0)

/-- The bytes of a number when there is room for so many. -/
def bytes : (room n : Nat) → (more : Bool) → List UInt8
  | 0, _, _ => []
  | room + 1, n, more =>
    if n ≤ 0x7f then [byte n more] else bytes room (n / 128 - 1) true ++ [byte n more]

/-- The bytes of a number of `width` bits. -/
def write (width n : Nat) : List UInt8 :=
  bytes ((width + 6) / 7) n false

/-- The loop of the reader: `n` is what has been read so far. -/
def readFrom (max : Nat) : Nat → Reader (List UInt8) Nat
  | _, [] => none
  | n, chData :: s =>
    if n > max / 128 then none
    else
      let n := n * 128 + chData.toNat % 128
      if chData.toNat ≥ 128 then if n = max then none else readFrom max (n + 1) s
      else some (n, s)

/-- The reader for an unsigned type of `width` bits. -/
def read (width : Nat) : Reader (List UInt8) Nat :=
  readFrom (2 ^ width - 1) 0

theorem byte_toNat (n : Nat) (more : Bool) : (byte n more).toNat = n % 128 + if more then 128 else 0 := by
  rw [byte, UInt8.toNat_ofNat']
  split <;> omega

theorem readFrom_byte {max n : Nat} {more : Bool} {s : List UInt8} (hmax : n ≤ max) (hmore : more = true → n < max) :
    readFrom max (n / 128) (byte n more :: s) = if more then readFrom max (n + 1) s else some (n, s) := by
  have hhigh : ¬ n / 128 > max / 128 := Nat.not_lt.2 (Nat.div_le_div_right hmax)
  rw [readFrom, if_neg hhigh]
  cases more with
  | false =>
    have hdigit : n / 128 * 128 + (byte n false).toNat % 128 = n := by
      rw [byte_toNat, if_neg (by simp)]
      omega
    have hlast : ¬ (byte n false).toNat ≥ 128 := by
      rw [byte_toNat, if_neg (by simp)]
      omega
    simp only [hdigit, if_neg hlast, Bool.false_eq_true, if_false]
  | true =>
    have hdigit : n / 128 * 128 + (byte n true).toNat % 128 = n := by
      rw [byte_toNat, if_pos rfl]
      omega
    have hnext : (byte n true).toNat ≥ 128 := by
      rw [byte_toNat, if_pos rfl]
      omega
    have hne : n ≠ max := Nat.ne_of_lt (hmore rfl)
    simp only [hdigit, if_pos hnext, if_neg hne, if_true]

theorem readFrom_bytes {max room n : Nat} {more : Bool} {s : List UInt8} (hroom : n < 128 ^ (room + 1)) (hmax : n ≤ max)
    (hmore : more = true → n < max) :
    readFrom max 0 (bytes (room + 1) n more ++ s) = if more then readFrom max (n + 1) s else some (n, s) := by
  induction room generalizing n more s with
  | zero =>
    have hzero : n / 128 = 0 := by omega
    rw [bytes, if_pos (by omega), List.singleton_append, ← readFrom_byte hmax hmore, hzero]
  | succ room ih =>
    rw [bytes]
    by_cases hn : n ≤ 0x7f
    · have hzero : n / 128 = 0 := by omega
      rw [if_pos hn, List.singleton_append, ← readFrom_byte hmax hmore, hzero]
    · have hhigh : n / 128 - 1 + 1 = n / 128 := by omega
      have hroom' : n / 128 - 1 < 128 ^ (room + 1) := by
        rw [Nat.pow_succ] at hroom
        omega
      rw [if_neg hn, List.append_assoc, List.singleton_append, ih hroom' (by omega) (fun _ => by omega), if_pos rfl,
        hhigh, readFrom_byte hmax hmore]

/-- **The reader takes what was written.** -/
theorem reads_write {width n : Nat} (hwidth : 0 < width) (h : n < 2 ^ width) : Reads (read width) (write width n) n := by
  obtain ⟨room, hroom⟩ : ∃ room, (width + 6) / 7 = room + 1 := ⟨(width + 6) / 7 - 1, by omega⟩
  have hlt : n < 128 ^ (room + 1) := by
    calc n < 2 ^ width := h
      _ ≤ 2 ^ (7 * (room + 1)) := Nat.pow_le_pow_right (by decide) (by omega)
      _ = 128 ^ (room + 1) := by rw [Nat.pow_mul]
  intro s t hs
  have hs : s = write width n ++ t := hs
  have hread : readFrom (2 ^ width - 1) 0 (write width n ++ t) = some (n, t) := by
    rw [write, hroom]
    exact readFrom_bytes hlt (by omega) (fun hmore => nomatch hmore)
  rw [hs, read, hread]
  exact congrArg (fun l => some (n, l)) (List.drop_left ..).symm

theorem write_of_le {width n : Nat} (hwidth : 0 < width) (h : n ≤ 0x7f) : write width n = [UInt8.ofNat n] := by
  obtain ⟨room, hroom⟩ : ∃ room, (width + 6) / 7 = room + 1 := ⟨(width + 6) / 7 - 1, by omega⟩
  rw [write, hroom, bytes, if_pos h, byte, if_neg (by simp), Nat.mod_eq_of_lt (by omega), Nat.add_zero]

end VarInt
