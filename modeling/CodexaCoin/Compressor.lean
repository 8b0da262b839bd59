import CodexaCoin.Lib.VarInt
import CodexaCoin.Script.Script

/-!
# Compressed amounts and scripts

`compressor.h` and `compressor.cpp`: the forms in which amounts and scripts are stored in the coin database and in the
undo data.
-/

namespace CodexaCoin

open Wire

/-! ## Amounts -/

/-- The first loop of `CompressAmount`: drop at most so many zeros off the end, and count them. -/
def dropZeros : (rounds n : Nat) → Nat × Nat
  | 0, n => (n, 0)
  | rounds + 1, n =>
    if n % 10 = 0 then
      let r := dropZeros rounds (n / 10)
      (r.1, r.2 + 1)
    else (n, 0)

def compressAmount (n : Nat) : Nat :=
  if n = 0 then 0
  else
    let (n, e) := dropZeros 9 n
    if e < 9 then
      let d := n % 10
      (1 + (n / 10 * 9 + d - 1) * 10 + e) % 2 ^ 64
    else (1 + (n - 1) * 10 + 9) % 2 ^ 64

/-- The last loop of `DecompressAmount`. -/
def timesTen : (e n : Nat) → Nat
  | 0, n => n
  | e + 1, n => timesTen e (n * 10 % 2 ^ 64)

def decompressAmount (x : Nat) : Nat :=
  if x = 0 then 0
  else
    let x := x - 1
    let e := x % 10
    let x := x / 10
    if e < 9 then
      let d := x % 9 + 1
      timesTen e ((x / 9 * 10 + d) % 2 ^ 64)
    else timesTen e ((x + 1) % 2 ^ 64)

section Amounts

theorem timesTen_eq (e n : Nat) : timesTen e (n % 2 ^ 64) = n * 10 ^ e % 2 ^ 64 := by
  induction e generalizing n with
  | zero => rw [timesTen, Nat.pow_zero, Nat.mul_one]
  | succ e ih =>
    have hstep : n % 2 ^ 64 * 10 % 2 ^ 64 = n * 10 % 2 ^ 64 := by omega
    rw [timesTen, hstep, ih, Nat.mul_assoc, ← Nat.pow_succ']

theorem compressAmount_lt (n : Nat) : compressAmount n < 2 ^ 64 := by
  unfold compressAmount
  split
  · decide
  · dsimp only
    split <;> exact Nat.mod_lt _ (by decide)

theorem decompressAmount_lt (x : Nat) : decompressAmount x < 2 ^ 64 := by
  unfold decompressAmount
  split
  · decide
  · dsimp only
    split <;> rw [timesTen_eq] <;> exact Nat.mod_lt _ (by decide)

theorem decompressAmount_eq {y e : Nat} (he : e < 10) :
    decompressAmount (1 + 10 * y + e) =
      (if e < 9 then y / 9 * 10 + (y % 9 + 1) else y + 1) * 10 ^ e % 2 ^ 64 := by
  have hx : 1 + 10 * y + e - 1 = 10 * y + e := by omega
  have he' : (10 * y + e) % 10 = e := by omega
  have hy : (10 * y + e) / 10 = y := by omega
  unfold decompressAmount
  rw [if_neg (by omega)]
  simp only [hx, he', hy]
  split
  · exact timesTen_eq _ _
  · exact timesTen_eq _ _

theorem dropZeros_spec (rounds : Nat) {n : Nat} (hn : 0 < n) :
    n = (dropZeros rounds n).1 * 10 ^ (dropZeros rounds n).2 ∧ (dropZeros rounds n).2 ≤ rounds ∧
      ((dropZeros rounds n).2 < rounds → (dropZeros rounds n).1 % 10 ≠ 0) := by
  induction rounds generalizing n with
  | zero => simp [dropZeros]
  | succ rounds ih =>
    rw [dropZeros]
    split
    · next h0 =>
      obtain ⟨heq, hle, hlast⟩ := ih (n := n / 10) (by omega)
      refine ⟨?_, Nat.succ_le_succ hle, fun hlt => hlast (Nat.lt_of_succ_lt_succ hlt)⟩
      have h10 : n = n / 10 * 10 := by omega
      rw [h10]
      conv_lhs => rw [heq]
      rw [Nat.mul_div_cancel _ (by decide), Nat.pow_succ, Nat.mul_assoc]
    · next h0 => exact ⟨by simp, Nat.zero_le _, fun _ => h0⟩

theorem decompress_of_lt {q d e : Nat} (hd : 1 ≤ d) (hd9 : d ≤ 9) (he : e < 9)
    (hfit : 1 + (q * 9 + d - 1) * 10 + e < 2 ^ 64) :
    decompressAmount ((1 + (q * 9 + d - 1) * 10 + e) % 2 ^ 64) = (q * 10 + d) * 10 ^ e % 2 ^ 64 := by
  have hdigit : (q * 9 + d - 1) / 9 * 10 + ((q * 9 + d - 1) % 9 + 1) = q * 10 + d := by omega
  rw [Nat.mod_eq_of_lt hfit, Nat.mul_comm _ 10, decompressAmount_eq (by omega), if_pos he, hdigit]

/-! ### Amounts whose compressed form wraps

Only an amount without a zero at its end gets there. Its compressed form loses `j * 2 ^ 64` and shows an exponent that
is not zero, and the amount that the rest stands for is one of a few numbers modulo `2 ^ 64`; none of them is the
amount itself. -/

theorem eq_emod_of_mul_eq {a b u v n k : Int} (hu : u * a = 1 + v * 2 ^ 64) (h : a * n = b + k * 2 ^ 64) (h0 : 0 ≤ n)
    (h1 : n < 2 ^ 64) : n = u * b % 2 ^ 64 := by
  have hn : n = u * b + (u * k - v * n) * 2 ^ 64 := by linear_combination u * h - n * hu
  rw [← Int.emod_eq_of_lt h0 h1]
  conv_lhs => rw [hn]
  exact Int.add_mul_emod_self_right ..

/-- The exponent that a compressed form shows after it has lost `j * 2 ^ 64`. -/
def wrappedExponent : (j : Nat) → Nat
  | 1 => 4
  | 2 => 8
  | 3 => 2
  | _ => 6

/-- The inverse of `9 * (10 ^ e - 1)` modulo `2 ^ 64` for that exponent. -/
def wrappedInverse : (j : Nat) → Int
  | 1 => 15842828238033401399
  | 2 => 16430456183658535111
  | 3 => 13705661702352102323
  | _ => 12483635422780629383

/-- An amount that a wrapped form could stand for: `t` is the digit that it shows less the true one, plus its exponent.
The conditions are that the amount ends in no zero, that its form wraps `j` times and that the digits match. -/
def coincides (j : Nat) (t : Int) : Bool :=
  let n : Int := wrappedInverse j * (10 ^ wrappedExponent j * t) % 2 ^ 64
  let d := n % 10
  decide (d ≠ 0 ∧ n < 2 ^ 63 ∧ (j : Int) * 2 ^ 64 < 9 * n + d ∧ 9 * n + d < ((j : Int) + 1) * 2 ^ 64 + 9 ∧
    (9 * n - j * 2 ^ 64 - t) % 9 = 0)

theorem not_coincides : ∀ j ∈ [1, 2, 3, 4], ∀ i ∈ List.range 17,
    coincides j ((wrappedExponent j : Int) - 8 + i) = false := by
  decide +kernel

theorem wrappedInverse_mul : ∀ j ∈ [1, 2, 3, 4],
    wrappedInverse j * (9 * (10 ^ wrappedExponent j - 1)) % 2 ^ 64 = 1 := by
  decide +kernel

/-- **A form that wraps does not come back.** -/
theorem decompress_of_wrap {n y j : Nat} (hj : j ∈ [1, 2, 3, 4]) (hd : n % 10 ≠ 0) (hn : n < 2 ^ 63)
    (hx : 9 * n + n % 10 = 10 + 10 * y + wrappedExponent j + j * 2 ^ 64)
    (hlow : j * 2 ^ 64 < 9 * n + n % 10) (hhigh : 9 * n + n % 10 < (j + 1) * 2 ^ 64 + 9) :
    (y / 9 * 10 + (y % 9 + 1)) * 10 ^ wrappedExponent j % 2 ^ 64 ≠ n := by
  intro heq
  have hc1 : (n : Int) % 10 ≠ 0 := by omega
  have hc2 : (n : Int) < 2 ^ 63 := by omega
  have hc3 : (j : Int) * 2 ^ 64 < 9 * n + n % 10 := by omega
  have hc4 : 9 * (n : Int) + n % 10 < ((j : Int) + 1) * 2 ^ 64 + 9 := by omega
  -- the two digits, and the difference that the table runs over
  set e := wrappedExponent j with he
  set d' := y % 9 + 1 with hd'
  obtain ⟨i, hi, ht⟩ : ∃ i : Nat, i < 17 ∧ (d' : Int) + e - (n % 10 : Nat) = (e : Int) - 8 + i :=
    ⟨d' + 8 - n % 10, by omega, by omega⟩
  have hno := not_coincides j hj i (List.mem_range.2 hi)
  rw [← he, ← ht] at hno
  -- the amount is the number that the table has for that difference
  have h9 : (9 * (y / 9 * 10 + d') : Int) = 9 * n - ((d' : Int) + e - (n % 10 : Nat)) - j * 2 ^ 64 := by omega
  have hdiv := Nat.div_add_mod ((y / 9 * 10 + d') * 10 ^ e) (2 ^ 64)
  rw [heq] at hdiv
  set k := (y / 9 * 10 + d') * 10 ^ e / 2 ^ 64
  have hdiv : (2 : Int) ^ 64 * k + n = (y / 9 * 10 + d') * 10 ^ e := by exact_mod_cast hdiv
  have hmul : (9 * (10 ^ e - 1) : Int) * n =
      10 ^ e * ((d' : Int) + e - (n % 10 : Nat)) + (9 * k + j * 10 ^ e) * 2 ^ 64 := by
    linear_combination -(10 : Int) ^ e * h9 - 9 * hdiv
  have hinv := Int.emod_add_mul_ediv (wrappedInverse j * (9 * (10 ^ e - 1))) (2 ^ 64)
  rw [wrappedInverse_mul j hj, mul_comm ((2 : Int) ^ 64)] at hinv
  have hval := eq_emod_of_mul_eq hinv.symm hmul (by omega) (by omega)
  -- so it would meet the conditions
  have hyes : coincides j ((d' : Int) + e - (n % 10 : Nat)) = true := by
    unfold coincides
    rw [← he, ← hval]
    refine decide_eq_true ⟨hc1, hc2, hc3, hc4, Int.emod_eq_zero_of_dvd ⟨y / 9 * 10 + d', ?_⟩⟩
    linear_combination -h9
  rw [hno] at hyes
  cases hyes

theorem decompress_wrapped_at (j tenth : Nat) {n q d : Nat} (hn : n = q * 10 + d) (hn63 : n < 2 ^ 63) (hd : 1 ≤ d)
    (hd9 : d ≤ 9)
    (hj : j ∈ [1, 2, 3, 4]) (htenth : 10 * tenth = j * 2 ^ 64 + wrappedExponent j) (he : wrappedExponent j < 9)
    (hlow : j * 2 ^ 64 + wrappedExponent j ≤ 90 * q + 10 * d - 10) (hhigh : 90 * q + 10 * d < (j + 1) * 2 ^ 64 + 9) :
    decompressAmount ((1 + (q * 9 + d - 1) * 10 + 0) % 2 ^ 64) ≠ n := by
  have hdigit : n % 10 = d := by omega
  have hsplit : 1 + (q * 9 + d - 1) * 10 + 0 = 1 + 10 * (q * 9 + d - 1 - tenth) + wrappedExponent j + 2 ^ 64 * j := by
    omega
  have hlt : 1 + 10 * (q * 9 + d - 1 - tenth) + wrappedExponent j < 2 ^ 64 := by omega
  rw [hsplit, Nat.add_mul_mod_self_left, Nat.mod_eq_of_lt hlt, decompressAmount_eq (by omega), if_pos he]
  exact decompress_of_wrap hj (by omega) hn63 (by omega) (by omega) (by omega)

theorem decompress_wrapped {n : Nat} (hd : n % 10 ≠ 0) (hn : n < 2 ^ 63) (hbig : 2049638230412172402 < n) :
    decompressAmount ((1 + (n / 10 * 9 + n % 10 - 1) * 10 + 0) % 2 ^ 64) ≠ n := by
  obtain ⟨q, hq⟩ : ∃ q, q = n / 10 := ⟨_, rfl⟩
  obtain ⟨d, hd'⟩ : ∃ d, d = n % 10 := ⟨_, rfl⟩
  have hn' : n = q * 10 + d := by omega
  have hd9 : d ≤ 9 := by omega
  rw [← hq, ← hd']
  have hd1 : 1 ≤ d := by omega
  clear hq hd'
  subst hn'
  rcases Nat.lt_or_ge (90 * q + 10 * d) (2 * 2 ^ 64 + 9) with h2 | h2
  · exact decompress_wrapped_at 1 1844674407370955162 rfl hn hd1 hd9 (by decide) (by decide) (by decide)
      (by simp only [wrappedExponent]; omega) h2
  rcases Nat.lt_or_ge (90 * q + 10 * d) (3 * 2 ^ 64 + 9) with h3 | h3
  · exact decompress_wrapped_at 2 3689348814741910324 rfl hn hd1 hd9 (by decide) (by decide) (by decide)
      (by simp only [wrappedExponent]; omega) h3
  rcases Nat.lt_or_ge (90 * q + 10 * d) (4 * 2 ^ 64 + 9) with h4 | h4
  · exact decompress_wrapped_at 3 5534023222112865485 rfl hn hd1 hd9 (by decide) (by decide) (by decide)
      (by simp only [wrappedExponent]; omega) h4
  · exact decompress_wrapped_at 4 7378697629483820647 rfl hn hd1 hd9 (by decide) (by decide) (by decide)
      (by simp only [wrappedExponent]; omega) (by omega)

/-- **Which amounts come back**: those that end in a zero, and those whose compressed form fits 64 bits. -/
theorem decompress_compress_iff {n : Nat} (h : n < 2 ^ 63) :
    decompressAmount (compressAmount n) = n ↔ n % 10 = 0 ∨ n ≤ 2049638230412172402 := by
  by_cases h0 : n = 0
  · subst h0
    exact ⟨fun _ => .inl rfl, fun _ => rfl⟩
  obtain ⟨heq, hle, hlast⟩ := dropZeros_spec 9 (Nat.pos_of_ne_zero h0)
  rw [compressAmount, if_neg h0]
  generalize dropZeros 9 n = r at heq hle hlast
  obtain ⟨m, e⟩ := r
  dsimp only at heq hle hlast ⊢
  rcases Nat.lt_or_ge e 9 with he | he
  · have hd := hlast he
    rw [if_pos he]
    rcases Nat.eq_zero_or_pos e with rfl | hpos
    · -- no zero at the end: the form fits, or it wraps up to four times
      rw [Nat.pow_zero, Nat.mul_one] at heq
      subst heq
      by_cases hfit : n ≤ 2049638230412172402
      · rw [decompress_of_lt (by omega) (by omega) he (by omega)]
        exact ⟨fun _ => .inr hfit, fun _ => by omega⟩
      · refine ⟨fun hback => absurd hback (decompress_wrapped hd h (by omega)), fun hor => ?_⟩
        omega
    · -- a tenth of the range is left, and nothing wraps
      have hm : m * 10 ≤ n := by
        rw [heq]
        exact Nat.mul_le_mul_left m (Nat.pow_le_pow_right (by decide) hpos : 10 ^ 1 ≤ 10 ^ e)
      have hzero : n % 10 = 0 := by
        rw [heq, ← Nat.succ_pred_eq_of_pos hpos, Nat.pow_succ, ← Nat.mul_assoc]
        exact Nat.mul_mod_left ..
      rw [decompress_of_lt (by omega) (by omega) he (by omega)]
      have hdigits : m / 10 * 10 + m % 10 = m := by omega
      rw [hdigits, ← heq, Nat.mod_eq_of_lt (by omega)]
      exact ⟨fun _ => .inl hzero, fun _ => rfl⟩
  · have he : e = 9 := Nat.le_antisymm hle he
    subst he
    rw [if_neg (by omega)]
    have hm : m * 1000000000 = n := heq.symm
    have hform : (1 + (m - 1) * 10 + 9) % 2 ^ 64 = 1 + 10 * (m - 1) + 9 := by omega
    have hone : m - 1 + 1 = m := by omega
    rw [hform, decompressAmount_eq (by omega), if_neg (by omega), hone, ← heq, Nat.mod_eq_of_lt (by omega)]
    exact ⟨fun _ => .inl (by omega), fun _ => rfl⟩

end Amounts

/-! ## Scripts -/

structure PubKeys where
  /-- `CPubKey::IsFullyValid`. -/
  isFullyValid : List UInt8 → Bool
  /-- `CPubKey::Decompress` of a key of 33 bytes, one of 65 bytes. -/
  decompress : List UInt8 → Option (List UInt8)
  /-- A valid key is recovered from its first coordinate and the parity of the second. -/
  decompress_compress : ∀ x y : List UInt8, x.length = 32 → y.length = 32 → isFullyValid (0x04 :: (x ++ y)) = true →
    decompress ((0x02 ||| (y.getD 31 0 &&& 0x01)) :: x) = some (0x04 :: (x ++ y))

section Scripts

variable (K : PubKeys)

def isToKeyID (script : CScript) : Option (List UInt8) :=
  if script.length = 25 ∧ script.take 3 = [opDup, opHash160, 20] ∧ script.drop 23 = [opEqualverify, opChecksig] then
    some ((script.drop 3).take 20)
  else none

def isToScriptID (script : CScript) : Option (List UInt8) :=
  if script.length = 23 ∧ script.take 2 = [opHash160, 20] ∧ script.drop 22 = [opEqual] then
    some ((script.drop 2).take 20)
  else none

def isToPubKey (script : CScript) : Option (List UInt8) :=
  if script.length = 35 ∧ script.take 1 = [33] ∧ script.drop 34 = [opChecksig] ∧
      (script.getD 1 0 = 0x02 ∨ script.getD 1 0 = 0x03) then
    some ((script.drop 1).take 33)
  else if script.length = 67 ∧ script.take 1 = [65] ∧ script.drop 66 = [opChecksig] ∧ script.getD 1 0 = 0x04 then
    let pubkey := (script.drop 1).take 65
    if K.isFullyValid pubkey then some pubkey else none
  else none

def compressScript (script : CScript) : Option (List UInt8) :=
  match isToKeyID script with
  | some keyID => some (0x00 :: keyID)
  | none =>
    match isToScriptID script with
    | some scriptID => some (0x01 :: scriptID)
    | none =>
      match isToPubKey K script with
      | some pubkey =>
        let x := (pubkey.drop 1).take 32
        if pubkey.getD 0 0 = 0x02 ∨ pubkey.getD 0 0 = 0x03 then some (pubkey.getD 0 0 :: x)
        else if pubkey.getD 0 0 = 0x04 then some ((0x04 ||| (pubkey.getD 64 0 &&& 0x01)) :: x)
        else none
      | none => none

def getSpecialScriptSize (nSize : Nat) : Nat :=
  if nSize = 0 ∨ nSize = 1 then 20
  else if nSize = 2 ∨ nSize = 3 ∨ nSize = 4 ∨ nSize = 5 then 32
  else 0

def decompressScript (nSize : Nat) (vch : List UInt8) : Option CScript :=
  match nSize with
  | 0 => some ([opDup, opHash160, 20] ++ vch ++ [opEqualverify, opChecksig])
  | 1 => some ([opHash160, 20] ++ vch ++ [opEqual])
  | 2 | 3 => some ([33, UInt8.ofNat nSize] ++ vch ++ [opChecksig])
  | 4 | 5 => (K.decompress (UInt8.ofNat (nSize - 2) :: vch)).map fun pubkey => [65] ++ pubkey ++ [opChecksig]
  | _ => none

/-- `ScriptCompression::Ser`. -/
def serScript (script : CScript) : List UInt8 :=
  match compressScript K script with
  | some compr => compr
  | none => VarInt.write 32 (script.length + 6) ++ script

/-- `ScriptCompression::Unser` into a script that is empty before. -/
def unserScript : Reader (List UInt8) CScript := do
  let nSize ← VarInt.read 32
  if nSize < 6 then
    let vch ← take (getSpecialScriptSize nSize)
    pure ((decompressScript K nSize vch).getD [])
  else if nSize - 6 > maxScriptSize then
    let _ ← take (nSize - 6)
    pure [opReturn]
  else take (nSize - 6)

variable {K} {script : CScript} {vch : List UInt8} {pubkey : List UInt8}

theorem eq_take_append_drop (l : List UInt8) (a b : Nat) : l = l.take a ++ ((l.drop a).take b ++ l.drop (a + b)) := by
  rw [← List.drop_drop, List.take_append_drop, List.take_append_drop]

theorem decompress_keyID (h : isToKeyID script = some vch) :
    vch.length = 20 ∧ decompressScript K 0 vch = some script := by
  unfold isToKeyID at h
  split at h
  · next hform =>
    obtain ⟨hlen, hhead, hlast⟩ := hform
    cases h
    refine ⟨by simp [hlen], ?_⟩
    conv_rhs => rw [eq_take_append_drop script 3 20, hhead, hlast]
    simp [decompressScript]
  · cases h

theorem decompress_scriptID (h : isToScriptID script = some vch) :
    vch.length = 20 ∧ decompressScript K 1 vch = some script := by
  unfold isToScriptID at h
  split at h
  · next hform =>
    obtain ⟨hlen, hhead, hlast⟩ := hform
    cases h
    refine ⟨by simp [hlen], ?_⟩
    conv_rhs => rw [eq_take_append_drop script 2 20, hhead, hlast]
    simp [decompressScript]
  · cases h

theorem and_one_cases (b : UInt8) : b &&& 0x01 = 0 ∨ b &&& 0x01 = 1 := by
  have h := Nat.and_two_pow_sub_one_eq_mod b.toNat 1
  have hb : (b &&& 0x01).toNat = b.toNat % 2 := by rw [UInt8.toNat_and]; exact h
  rcases Nat.mod_two_eq_zero_or_one b.toNat with h2 | h2
  · exact .inl (UInt8.toNat_inj.1 (by rw [hb, h2]; rfl))
  · exact .inr (UInt8.toNat_inj.1 (by rw [hb, h2]; rfl))

theorem isToPubKey_cases (h : isToPubKey K script = some pubkey) :
    script = UInt8.ofNat pubkey.length :: (pubkey ++ [opChecksig]) ∧
      ((pubkey.length = 33 ∧ (pubkey.getD 0 0 = 0x02 ∨ pubkey.getD 0 0 = 0x03)) ∨
        (pubkey.length = 65 ∧ pubkey.getD 0 0 = 0x04 ∧ K.isFullyValid pubkey = true)) := by
  have hget : ∀ n, 0 < n → 1 < script.length → ((script.drop 1).take n).getD 0 0 = script.getD 1 0 := by
    intro n hn hlen
    simp [List.getD_eq_getElem?_getD, hn]
  unfold isToPubKey at h
  split at h
  · next hform =>
    obtain ⟨hlen, hhead, hlast, hkind⟩ := hform
    cases h
    have hsize : ((script.drop 1).take 33).length = 33 := by simp [hlen]
    refine ⟨?_, .inl ⟨hsize, by rw [hget 33 (by decide) (by omega)]; exact hkind⟩⟩
    conv_lhs => rw [eq_take_append_drop script 1 33, hhead, hlast]
    rw [hsize]
    rfl
  · split at h
    · next hform =>
      obtain ⟨hlen, hhead, hlast, hkind⟩ := hform
      dsimp only at h
      split at h
      · next hvalid =>
        cases h
        have hsize : ((script.drop 1).take 65).length = 65 := by simp [hlen]
        refine ⟨?_, .inr ⟨hsize, by rw [hget 65 (by decide) (by omega)]; exact hkind, hvalid⟩⟩
        conv_lhs => rw [eq_take_append_drop script 1 65, hhead, hlast]
        rw [hsize]
        rfl
      · cases h
    · cases h

theorem compressed_key (hlen : pubkey.length = 33)
    (hkind : pubkey.getD 0 0 = 0x02 ∨ pubkey.getD 0 0 = 0x03) :
    ∃ nSize vch, nSize < 6 ∧ pubkey.getD 0 0 :: (pubkey.drop 1).take 32 = UInt8.ofNat nSize :: vch ∧
      vch.length = getSpecialScriptSize nSize ∧
      decompressScript K nSize vch = some (UInt8.ofNat pubkey.length :: (pubkey ++ [opChecksig])) := by
  obtain ⟨b, x, rfl⟩ : ∃ b x, pubkey = b :: x := List.exists_cons_of_length_pos (by omega)
  have hx : x.length = 32 := by simpa using hlen
  rw [hlen, List.drop_succ_cons, List.drop_zero, List.take_of_length_le (by omega)]
  rcases hkind with hb | hb
  · cases hb
    exact ⟨2, x, by decide, rfl, hx, by simp [decompressScript]⟩
  · cases hb
    exact ⟨3, x, by decide, rfl, hx, by simp [decompressScript]⟩

theorem uncompressed_key (hlen : pubkey.length = 65) (hkind : pubkey.getD 0 0 = 0x04)
    (hvalid : K.isFullyValid pubkey = true) :
    ∃ nSize vch, nSize < 6 ∧ (0x04 ||| (pubkey.getD 64 0 &&& 0x01)) :: (pubkey.drop 1).take 32 =
        UInt8.ofNat nSize :: vch ∧ vch.length = getSpecialScriptSize nSize ∧
      decompressScript K nSize vch = some (UInt8.ofNat pubkey.length :: (pubkey ++ [opChecksig])) := by
  obtain ⟨b, rest, rfl⟩ : ∃ b rest, pubkey = b :: rest := List.exists_cons_of_length_pos (by omega)
  have hb : b = 0x04 := hkind
  subst hb
  obtain ⟨x, y, rfl, hx⟩ : ∃ x y, rest = x ++ y ∧ x.length = 32 :=
    ⟨rest.take 32, rest.drop 32, (List.take_append_drop 32 rest).symm, by simp at hlen ⊢; omega⟩
  have hy : y.length = 32 := by simp [hx] at hlen; omega
  have hlast : (0x04 :: (x ++ y)).getD 64 (0 : UInt8) = y.getD 31 0 := by
    simp [List.getD_eq_getElem?_getD, List.getElem?_append_right, hx]
  have hback := K.decompress_compress x y hx hy hvalid
  rw [hlen, hlast, List.drop_succ_cons, List.drop_zero, List.take_left' hx]
  rcases and_one_cases (y.getD 31 0) with hbit | hbit
  · rw [hbit] at hback ⊢
    have hback : K.decompress (UInt8.ofNat (4 - 2) :: x) = some (0x04 :: (x ++ y)) := hback
    exact ⟨4, x, by decide, rfl, hx, by rw [decompressScript, hback]; rfl⟩
  · rw [hbit] at hback ⊢
    have hback : K.decompress (UInt8.ofNat (5 - 2) :: x) = some (0x04 :: (x ++ y)) := hback
    exact ⟨5, x, by decide, rfl, hx, by rw [decompressScript, hback]; rfl⟩

/-- **A special script comes back** from the byte that names its kind and the bytes that follow. -/
theorem compressScript_eq_some {compr : List UInt8} (h : compressScript K script = some compr) :
    ∃ nSize vch, nSize < 6 ∧ compr = UInt8.ofNat nSize :: vch ∧ vch.length = getSpecialScriptSize nSize ∧
      decompressScript K nSize vch = some script := by
  unfold compressScript at h
  split at h
  · next keyID hkey =>
    cases h
    exact ⟨0, keyID, by decide, rfl, decompress_keyID hkey⟩
  · split at h
    · next scriptID hscript =>
      cases h
      exact ⟨1, scriptID, by decide, rfl, decompress_scriptID hscript⟩
    · split at h
      · next pubkey hpubkey =>
        obtain ⟨rfl, ⟨hlen, hkind⟩ | ⟨hlen, hkind, hvalid⟩⟩ := isToPubKey_cases hpubkey
        · rw [if_pos hkind] at h
          cases h
          exact compressed_key hlen hkind
        · rw [if_neg (by rw [hkind]; decide), if_pos hkind] at h
          cases h
          exact uncompressed_key hlen hkind hvalid
      · cases h

/-- **Scripts come back.** -/
theorem reads_script (h : script.length ≤ maxScriptSize) :
    Reads (unserScript K) (serScript K script) script := by
  unfold serScript unserScript
  split
  · next compr hcompr =>
    obtain ⟨nSize, vch, hsize, rfl, hlen, hback⟩ := compressScript_eq_some hcompr
    have hread : Reads (VarInt.read 32) [UInt8.ofNat nSize] nSize := by
      rw [← VarInt.write_of_le (by decide : 0 < 32) (by omega : nSize ≤ 0x7f)]
      exact VarInt.reads_write (by decide) (by omega)
    have hspecial : Reads (do
        let vch ← take (getSpecialScriptSize nSize)
        pure ((decompressScript K nSize vch).getD []) : Reader (List UInt8) CScript) vch script := by
      have htake : Reads (take vch.length : Reader (List UInt8) (List UInt8)) vch vch := reads_take vch
      rw [hlen] at htake
      have hmap := htake.map fun vch => (decompressScript K nSize vch).getD []
      rwa [hback] at hmap
    change Reads _ ([UInt8.ofNat nSize] ++ vch) script
    refine hread.bind ?_
    simpa only [if_pos hsize] using hspecial
  · have hmax : maxScriptSize = 10000 := rfl
    have hread : Reads (VarInt.read 32) (VarInt.write 32 (script.length + 6)) (script.length + 6) :=
      VarInt.reads_write (by decide) (by omega)
    refine hread.bind ?_
    have hback : Reads (take (script.length + 6 - 6) : Reader (List UInt8) (List UInt8)) script script :=
      reads_take script
    simpa only [if_neg (by omega : ¬ script.length + 6 < 6),
      if_neg (by omega : ¬ script.length + 6 - 6 > maxScriptSize)] using hback

end Scripts

end CodexaCoin
