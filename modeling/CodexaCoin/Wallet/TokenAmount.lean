import CodexaCoin.Lib.Radix
import CodexaCoin.Wallet.Bech32

/-!
# Token amounts

`parseTokenAmount` and `formatTokenAmount` of `cac_wallet/lib/services/pancake_swap.dart`. The digits around the point are
put together and handed to `BigInt.parse`, which takes more than digits: a plus sign, hexadecimal digits after `0x`, and
white space around the number. Its grammar is that of the regular expression in the Dart SDK,
`^\s*([+-]?)((0x[a-f0-9]+)|(\d+)|([a-z0-9]+))\s*$` without regard to case, where the last group is refused.
-/

namespace CodexaCoin.Wallet.Token

/-! ## Texts -/

section Texts

/-- What `String.trim` removes: white space of Unicode and the byte order mark. -/
def isTrimmed (u : UInt16) : Bool :=
  (9 ≤ u && u ≤ 13) || u == 32 || u == 0x85 || u == 0xa0 || u == 0x1680 || (0x2000 ≤ u && u ≤ 0x200a) || u == 0x2028 ||
    u == 0x2029 || u == 0x202f || u == 0x205f || u == 0x3000 || u == 0xfeff

/-- `\s` of a regular expression. -/
def isSpace (u : UInt16) : Bool :=
  isTrimmed u && u != 0x85

/-- `\d`. -/
def isDigit (u : UInt16) : Bool := 48 ≤ u && u ≤ 57

/-- `[a-f0-9]` without regard to case. -/
def isHexDigit (u : UInt16) : Bool := isDigit u || (97 ≤ u && u ≤ 102) || (65 ≤ u && u ≤ 70)

def digitValue (u : UInt16) : Nat :=
  if isDigit u then u.toNat - 48 else if 97 ≤ u then u.toNat - 87 else u.toNat - 55

def strip (p : UInt16 → Bool) (s : Text) : Text := (s.dropWhile p).rdropWhile p

def trim (s : Text) : Text := strip isTrimmed s

/-- `split('.')`. -/
def splitPoint : Text → List Text
  | [] => [[]]
  | u :: s =>
    if u = 46 then [] :: splitPoint s
    else match splitPoint s with
      | [] => [[u]]
      | part :: parts => (u :: part) :: parts

/-- `padRight(width, '0')`. -/
def padRight (width : Nat) (s : Text) : Text := s ++ List.replicate (width - s.length) 48

/-- `padLeft(width, '0')`. -/
def padLeft (width : Nat) (s : Text) : Text := List.replicate (width - s.length) 48 ++ s

end Texts

/-! ## `BigInt.parse` -/

inductive FormatException where
  | amountEmpty
  | amountNegative
  | notDecimal (input : Text)
  | tooManyPlaces (decimals : Nat) (input : Text)
  | notBigInt (source : Text)
deriving DecidableEq

def text (s : String) : Text := s.toList.map unit

def decimalValue (s : Text) : Nat := Radix.value 10 (s.map digitValue)

/-- The number of the digits after `0x`. -/
def hexValue (s : Text) : Nat := Radix.value 16 (s.map digitValue)

/-- The digits of `0x[a-f0-9]+`. -/
def hexBody : Text → Option Text
  | 48 :: x :: h => if (x = 120 ∨ x = 88) ∧ h ≠ [] ∧ h.all isHexDigit then some h else none
  | _ => none

def parseMagnitude (body : Text) : Option Nat :=
  match hexBody body with
  | some h => some (hexValue h)
  | none => if body ≠ [] ∧ body.all isDigit then some (decimalValue body) else none

def parseSigned : Text → Option Int
  | 43 :: body => (parseMagnitude body).map Int.ofNat
  | 45 :: body => (parseMagnitude body).map fun n => -(n : Int)
  | body => (parseMagnitude body).map Int.ofNat

def bigIntParse (source : Text) : Except FormatException Int :=
  match parseSigned (strip isSpace source) with
  | some n => .ok n
  | none => .error (.notBigInt source)

/-! ## Amounts -/

def wholeDigits (whole : Text) : Text := if whole.isEmpty then [48] else whole

/-- The text that is handed to `BigInt.parse`. -/
def joined (decimals : Nat) (whole frac : Text) : Text := wholeDigits whole ++ padRight decimals frac

def parseTokenAmount (input : Text) (decimals : Nat) : Except FormatException Int :=
  let trimmed := trim input
  if trimmed.isEmpty then .error .amountEmpty
  else if trimmed.head? = some 45 then .error .amountNegative
  else
    let parts := splitPoint trimmed
    if parts.length > 2 then .error (.notDecimal input)
    else
      let frac := if parts.length = 2 then parts.getD 1 [] else []
      if frac.length > decimals then .error (.tooManyPlaces decimals input)
      else bigIntParse (joined decimals (parts.getD 0 []) frac)

/-- `BigInt.toString` of a non-negative number. -/
def digitsOf (n : Nat) : Text := (if n = 0 then [0] else Radix.numeral 10 n).map fun d => 48 + UInt16.ofNat d

def formatTokenAmount (amount decimals : Nat) : Text :=
  let digits := padLeft (decimals + 1) (digitsOf amount)
  let whole := digits.take (digits.length - decimals)
  let frac := (digits.drop (digits.length - decimals)).rdropWhile (· == 48)
  if frac.isEmpty then whole else whole ++ 46 :: frac

/-! ## What an amount is -/

/-- The texts of an amount and its value: digits, and possibly a point and up to `decimals` digits; not the empty
text. -/
def IsAmount (decimals : Nat) (s : Text) (n : Nat) : Prop :=
  ∃ whole frac : Text, whole.all isDigit ∧ frac.all isDigit ∧ frac.length ≤ decimals ∧
    (s = whole ∧ whole ≠ [] ∧ frac = [] ∨ s = whole ++ 46 :: frac) ∧
    n = decimalValue whole * 10 ^ decimals + decimalValue frac * 10 ^ (decimals - frac.length)

/-- An amount is read with its value, and anything else is refused. -/
def ReadExactly (input : Text) (decimals : Nat) : Prop :=
  ∀ n : Int, parseTokenAmount input decimals = .ok n ↔ ∃ m : Nat, n = m ∧ IsAmount decimals (trim input) m

/-- The literals that `BigInt.parse` takes besides plain digits: with a plus sign, hexadecimal, or before white space. -/
def LenientLiteral (s : Text) : Prop :=
  ∃ l spaces : Text, spaces.all isSpace ∧ (parseMagnitude l).isSome ∧
    (s = 43 :: (l ++ spaces) ∨ s = l ++ spaces ∧ ((hexBody l).isSome ∨ spaces ≠ []))

def Parts (s whole frac : Text) : Prop :=
  splitPoint s = [whole] ∧ frac = [] ∨ splitPoint s = [whole, frac]

/-- The digits of the input, without the point, are such a literal. -/
def Lenient (input : Text) (decimals : Nat) : Prop :=
  ∃ whole frac, Parts (trim input) whole frac ∧ frac.length ≤ decimals ∧ LenientLiteral (joined decimals whole frac)

/-! ## Units -/

section Units

variable {u : UInt16} {s l spaces : Text}

theorem isDigit_iff : isDigit u = true ↔ 48 ≤ u.toNat ∧ u.toNat ≤ 57 := by
  rw [isDigit, Bool.and_eq_true, decide_eq_true_eq, decide_eq_true_eq, UInt16.le_iff_toNat_le, UInt16.le_iff_toNat_le]
  rfl

theorem isTrimmed_of_le (h0 : 48 ≤ u.toNat) (h1 : u.toNat ≤ 120) : isTrimmed u = false := by
  have hall : ∀ k < 121, 48 ≤ k → isTrimmed (UInt16.ofNat k) = false := by decide
  have h := hall u.toNat (by omega) h0
  rwa [UInt16.ofNat_toNat] at h

theorem isSpace_of_le (h0 : 48 ≤ u.toNat) (h1 : u.toNat ≤ 120) : isSpace u = false := by
  rw [isSpace, isTrimmed_of_le h0 h1]
  rfl

theorem isHexDigit_le (h : isHexDigit u = true) : 48 ≤ u.toNat ∧ u.toNat ≤ 120 := by
  simp only [isHexDigit, isDigit, Bool.or_eq_true, Bool.and_eq_true, decide_eq_true_eq, UInt16.le_iff_toNat_le,
    UInt16.reduceToNat] at h
  omega

theorem ne_of_isDigit (h : isDigit u = true) : u ≠ 46 ∧ u ≠ 43 ∧ u ≠ 45 ∧ u ≠ 120 ∧ u ≠ 88 := by
  refine ⟨?_, ?_, ?_, ?_, ?_⟩ <;> (rintro rfl; exact absurd h (by decide))

end Units

/-! ## White space around a text -/

section Strip

variable {p : UInt16 → Bool} {s l spaces : Text}

theorem strip_append (hl : ∀ u ∈ l, p u = false) (hspaces : spaces.all p) : strip p (l ++ spaces) = l := by
  have hall := List.all_eq_true.1 hspaces
  cases l with
  | nil => rw [List.nil_append, strip, List.dropWhile_eq_nil_iff.2 hall, List.rdropWhile_nil]
  | cons u l =>
    rw [strip, List.cons_append, List.dropWhile_cons_of_neg (by simp [hl u (by simp)]), ← List.cons_append]
    have hsplit : (u :: l ++ spaces).rdropWhile p = (u :: l).rdropWhile p := by
      induction spaces using List.reverseRecOn with
      | nil => rw [List.append_nil]
      | append_singleton spaces v ih =>
        rw [← List.append_assoc, List.rdropWhile_concat_pos _ _ _ (hall v (by simp))]
        exact ih (by simpa using fun w hw => hall w (by simp [hw])) fun w hw => hall w (by simp [hw])
    rw [hsplit, List.rdropWhile_eq_self_iff]
    exact fun hne => by simp [hl _ (List.getLast_mem hne)]

theorem strip_of_forall (hl : ∀ u ∈ l, p u = false) : strip p l = l := by
  have h : strip p (l ++ []) = l := strip_append hl rfl
  rwa [List.append_nil] at h

theorem eq_strip_append (hhead : ∀ u, s.head? = some u → p u = false) :
    ∃ spaces : Text, spaces.all p ∧ s = strip p s ++ spaces := by
  have hdrop : s.dropWhile p = s := by
    cases s with
    | nil => rfl
    | cons u s => exact List.dropWhile_cons_of_neg (by simp [hhead u rfl])
  refine ⟨s.rtakeWhile p, List.all_eq_true.2 fun u hu => List.mem_rtakeWhile_imp hu, ?_⟩
  rw [strip, hdrop, List.rdropWhile_append_rtakeWhile]

theorem head_strip {u : UInt16} (h : (strip p s).head? = some u) : p u = false := by
  obtain ⟨t, ht⟩ : strip p s <+: s.dropWhile p := List.rdropWhile_prefix ..
  have hhead : (s.dropWhile p).head? = some u := by
    rw [← ht, List.head?_append, h]
    rfl
  have hnot := List.head?_dropWhile_not p s
  rw [hhead] at hnot
  simpa using hnot

end Strip

/-! ## Points -/

section Points

variable {s w r : Text}

theorem splitPoint_of_not_mem (h : 46 ∉ s) : splitPoint s = [s] := by
  induction s with
  | nil => rfl
  | cons u s ih =>
    rw [List.mem_cons, not_or] at h
    rw [splitPoint, if_neg (Ne.symm h.1), ih h.2]

theorem splitPoint_append (h : 46 ∉ w) : splitPoint (w ++ 46 :: r) = w :: splitPoint r := by
  induction w with
  | nil => rw [List.nil_append, splitPoint, if_pos rfl]
  | cons u w ih =>
    rw [List.mem_cons, not_or] at h
    rw [List.cons_append, splitPoint, if_neg (Ne.symm h.1), ih h.2]

theorem splitPoint_cases (s : Text) : 46 ∉ s ∧ splitPoint s = [s] ∨
    ∃ w r, 46 ∉ w ∧ s = w ++ 46 :: r ∧ splitPoint s = w :: splitPoint r := by
  by_cases h : 46 ∈ s
  · obtain ⟨w, r, rfl, hw⟩ := List.eq_append_cons_of_mem h
    exact .inr ⟨w, r, hw, rfl, splitPoint_append hw⟩
  · exact .inl ⟨h, splitPoint_of_not_mem h⟩

theorem splitPoint_ne_nil (s : Text) : splitPoint s ≠ [] := by
  rcases splitPoint_cases s with ⟨-, h⟩ | ⟨w, r, -, -, h⟩ <;> rw [h] <;> exact List.cons_ne_nil _ _

theorem splitPoint_eq_singleton_iff : splitPoint s = [w] ↔ 46 ∉ w ∧ s = w := by
  constructor
  · intro h
    rcases splitPoint_cases s with ⟨hs, heq⟩ | ⟨w', r, -, -, heq⟩
    · rw [heq] at h
      cases h
      exact ⟨hs, rfl⟩
    · rw [heq] at h
      exact absurd (List.cons.inj h).2 (splitPoint_ne_nil r)
  · rintro ⟨hw, rfl⟩
    exact splitPoint_of_not_mem hw

theorem parts_iff {whole frac : Text} : Parts s whole frac ↔ 46 ∉ whole ∧ 46 ∉ frac ∧
    (s = whole ∧ frac = [] ∨ s = whole ++ 46 :: frac) := by
  constructor
  · rintro (⟨h, rfl⟩ | h)
    · obtain ⟨hw, rfl⟩ := splitPoint_eq_singleton_iff.1 h
      exact ⟨hw, List.not_mem_nil, .inl ⟨rfl, rfl⟩⟩
    · rcases splitPoint_cases s with ⟨-, heq⟩ | ⟨w, r, hw, rfl, heq⟩
      · rw [heq] at h
        cases h
      · rw [heq] at h
        obtain ⟨rfl, hr⟩ := List.cons.inj h
        obtain ⟨hf, rfl⟩ := splitPoint_eq_singleton_iff.1 hr
        exact ⟨hw, hf, .inr rfl⟩
  · rintro ⟨hw, hf, ⟨rfl, rfl⟩ | rfl⟩
    · exact .inl ⟨splitPoint_of_not_mem hw, rfl⟩
    · exact .inr (by rw [splitPoint_append hw, splitPoint_of_not_mem hf])

end Points

/-! ## Which texts are numbers -/

section Numbers

variable {s l : Text} {n : Nat}

theorem parseMagnitude_spec (h : parseMagnitude l = some n) :
    (∃ u, l.head? = some u ∧ isDigit u = true) ∧ ∀ u ∈ l, isSpace u = false := by
  unfold parseMagnitude at h
  split at h
  · next hexdigits hbody =>
    unfold hexBody at hbody
    split at hbody
    · next x hs =>
      split at hbody
      · next hc =>
        refine ⟨⟨48, rfl, rfl⟩, ?_⟩
        intro u hu
        simp only [List.mem_cons] at hu
        rcases hu with rfl | rfl | hu
        · rfl
        · rcases hc.1 with rfl | rfl <;> rfl
        · have hle := isHexDigit_le (List.all_eq_true.1 hc.2.2 u hu)
          exact isSpace_of_le hle.1 hle.2
      · cases hbody
    · cases hbody
  · split at h
    · next hc =>
      obtain ⟨u, t, rfl⟩ := List.exists_cons_of_ne_nil hc.1
      have hdigits := List.all_eq_true.1 hc.2
      refine ⟨⟨u, rfl, hdigits u (by simp)⟩, fun v hv => ?_⟩
      have hrange := isDigit_iff.1 (hdigits v hv)
      exact isSpace_of_le hrange.1 (by omega)
    · cases h

theorem hexBody_of_digits (h : s.all isDigit) : hexBody s = none := by
  unfold hexBody
  split
  · next x t =>
    have hx := ne_of_isDigit (List.all_eq_true.1 h x (by simp))
    rw [if_neg]
    rintro ⟨hx' | hx', -⟩
    · exact hx.2.2.2.1 hx'
    · exact hx.2.2.2.2 hx'
  · rfl

theorem parseMagnitude_of_digits (hne : s ≠ []) (h : s.all isDigit) : parseMagnitude s = some (decimalValue s) := by
  rw [parseMagnitude, hexBody_of_digits h]
  exact if_pos ⟨hne, h⟩

theorem head_of_digits (h : s.all isDigit) : ∀ u, s.head? = some u → isSpace u = false ∧ u ≠ 45 := by
  intro u hu
  have hdigit := List.all_eq_true.1 h u (List.mem_of_mem_head? hu)
  have hrange := isDigit_iff.1 hdigit
  exact ⟨isSpace_of_le hrange.1 (by omega), (ne_of_isDigit hdigit).2.2.1⟩

/-- **Which texts `BigInt.parse` takes**, among those that begin neither with white space nor with a minus sign. -/
theorem bigIntParse_eq_ok_iff (hhead : ∀ u, s.head? = some u → isSpace u = false ∧ u ≠ 45) {n : Int} :
    bigIntParse s = .ok n ↔ ∃ (l spaces : Text) (m : Nat), spaces.all isSpace ∧ parseMagnitude l = some m ∧ n = m ∧
      (s = 43 :: (l ++ spaces) ∨ s = l ++ spaces) := by
  have hok : bigIntParse s = .ok n ↔ parseSigned (strip isSpace s) = some n := by
    unfold bigIntParse
    cases parseSigned (strip isSpace s) <;> simp
  rw [hok]
  constructor
  · intro h
    obtain ⟨spaces, hspaces, hs⟩ := eq_strip_append (p := isSpace) fun u hu => (hhead u hu).1
    generalize strip isSpace s = body at h hs
    unfold parseSigned at h
    split at h
    · next l =>
      obtain ⟨m, hm, rfl⟩ := Option.map_eq_some_iff.1 h
      exact ⟨l, spaces, m, hspaces, hm, rfl, .inl hs⟩
    · next l => exact absurd rfl (hhead 45 (by rw [hs]; rfl)).2
    · obtain ⟨m, hm, rfl⟩ := Option.map_eq_some_iff.1 h
      exact ⟨_, spaces, m, hspaces, hm, rfl, .inr hs⟩
  · rintro ⟨l, spaces, m, hspaces, hm, rfl, rfl | rfl⟩
    · rw [← List.cons_append, strip_append ?_ hspaces]
      · rw [parseSigned, hm]
        rfl
      · intro u hu
        rcases List.mem_cons.1 hu with rfl | hu
        · rfl
        · exact (parseMagnitude_spec hm).2 u hu
    · obtain ⟨⟨u, hu, hdigit⟩, hspace⟩ := parseMagnitude_spec hm
      have hne := ne_of_isDigit hdigit
      rw [strip_append hspace hspaces]
      unfold parseSigned
      split
      · cases hu
        exact absurd rfl hne.2.1
      · cases hu
        exact absurd rfl hne.2.2.1
      · rw [hm]
        rfl

theorem bigIntParse_of_digits (hne : s ≠ []) (h : s.all isDigit) : bigIntParse s = .ok (decimalValue s : Int) :=
  (bigIntParse_eq_ok_iff (head_of_digits h)).2
    ⟨s, [], decimalValue s, rfl, parseMagnitude_of_digits hne h, rfl, .inr (List.append_nil s).symm⟩

end Numbers

/-! ## Reading amounts -/

section Reading

variable {input s whole frac : Text} {decimals : Nat}

theorem all_joined :
    (joined decimals whole frac).all isDigit ↔ whole.all isDigit ∧ frac.all isDigit := by
  have hzeros : (List.replicate (decimals - frac.length) (48 : UInt16)).all isDigit = true :=
    List.all_eq_true.2 fun u hu => by rw [(List.mem_replicate.1 hu).2]; rfl
  rw [joined, padRight, List.all_append, List.all_append, hzeros, Bool.and_true, Bool.and_eq_true]
  refine and_congr_left fun _ => ?_
  unfold wholeDigits
  cases whole <;> simp [isDigit]

theorem joined_ne_nil : joined decimals whole frac ≠ [] := by
  unfold joined wholeDigits
  cases whole <;> simp

theorem decimalValue_joined (hle : frac.length ≤ decimals) : decimalValue (joined decimals whole frac) =
    decimalValue whole * 10 ^ decimals + decimalValue frac * 10 ^ (decimals - frac.length) := by
  have hwhole : decimalValue (wholeDigits whole) = decimalValue whole := by
    unfold wholeDigits
    cases whole <;> rfl
  have hzeros : Radix.value 10 ((List.replicate (decimals - frac.length) (48 : UInt16)).map digitValue) = 0 := by
    rw [List.map_replicate]
    exact Radix.value_replicate_zero _
  rw [← hwhole, joined, padRight, decimalValue, List.map_append, List.map_append, Radix.value_append, Radix.value_append,
    hzeros, List.length_append, List.length_map, List.length_map, List.length_replicate, Nat.add_zero,
    Nat.add_sub_cancel' hle]
  rfl

theorem parseTokenAmount_eq_ok_iff {n : Int} : parseTokenAmount input decimals = .ok n ↔
    ∃ whole frac, Parts (trim input) whole frac ∧ trim input ≠ [] ∧ (trim input).head? ≠ some 45 ∧
      frac.length ≤ decimals ∧ bigIntParse (joined decimals whole frac) = .ok n := by
  simp only [parseTokenAmount, List.isEmpty_iff]
  by_cases hempty : trim input = []
  · rw [if_pos hempty]
    refine ⟨fun h => (nomatch h), ?_⟩
    rintro ⟨w, f, -, hne, -⟩
    exact absurd hempty hne
  by_cases hminus : (trim input).head? = some 45
  · rw [if_neg hempty, if_pos hminus]
    refine ⟨fun h => (nomatch h), ?_⟩
    rintro ⟨w, f, -, -, hne, -⟩
    exact absurd hminus hne
  rw [if_neg hempty, if_neg hminus]
  match hparts : splitPoint (trim input) with
  | [] => exact absurd hparts (splitPoint_ne_nil _)
  | [w] =>
    rw [if_neg (by simp), if_neg (by simp), if_neg (by simp)]
    constructor
    · exact fun h => ⟨w, [], .inl ⟨hparts, rfl⟩, hempty, hminus, Nat.zero_le _, h⟩
    · rintro ⟨w', f', ⟨hw, rfl⟩ | hw, -, -, -, h⟩
      · rw [hparts] at hw
        cases hw
        exact h
      · rw [hparts] at hw
        cases hw
  | [w, f] =>
    rw [if_neg (by simp)]
    simp only [List.length_cons, List.length_nil, Nat.reduceAdd, if_true, List.getD_cons_succ, List.getD_cons_zero]
    constructor
    · intro h
      split at h
      · cases h
      · next hle => exact ⟨w, f, .inr hparts, hempty, hminus, Nat.not_lt.1 hle, h⟩
    · rintro ⟨w', f', ⟨hw, rfl⟩ | hw, -, -, hle, h⟩
      · rw [hparts] at hw
        cases hw
      · rw [hparts] at hw
        cases hw
        rw [if_neg (Nat.not_lt.2 hle)]
        exact h
  | w :: f :: g :: rest =>
    rw [if_pos (by simp)]
    refine ⟨fun h => (nomatch h), ?_⟩
    rintro ⟨w', f', ⟨hw, -⟩ | hw, -⟩
    · rw [hparts] at hw
      cases hw
    · rw [hparts] at hw
      cases hw

theorem isAmount_iff {n : Nat} : IsAmount decimals s n ↔ ∃ whole frac, Parts s whole frac ∧ s ≠ [] ∧
    frac.length ≤ decimals ∧ whole.all isDigit ∧ frac.all isDigit ∧ n = decimalValue (joined decimals whole frac) := by
  have hpoint : ∀ l : Text, l.all isDigit → 46 ∉ l :=
    fun l hl h => (ne_of_isDigit (List.all_eq_true.1 hl 46 h)).1 rfl
  constructor
  · rintro ⟨whole, frac, hw, hf, hle, hs, rfl⟩
    refine ⟨whole, frac, parts_iff.2 ⟨hpoint whole hw, hpoint frac hf, ?_⟩, ?_, hle, hw, hf,
      (decimalValue_joined hle).symm⟩
    · exact hs.imp (fun h => ⟨h.1, h.2.2⟩) id
    · rcases hs with ⟨rfl, hne, -⟩ | rfl
      · exact hne
      · simp
  · rintro ⟨whole, frac, hparts, hne, hle, hw, hf, rfl⟩
    obtain ⟨-, -, hs⟩ := parts_iff.1 hparts
    refine ⟨whole, frac, hw, hf, hle, ?_, decimalValue_joined hle⟩
    rcases hs with ⟨rfl, hfrac⟩ | hs
    · exact .inl ⟨rfl, hne, hfrac⟩
    · exact .inr hs

/-- **Every amount is read with its value.** -/
theorem parse_of_isAmount {n : Nat} (h : IsAmount decimals (trim input) n) : parseTokenAmount input decimals = .ok n := by
  obtain ⟨whole, frac, hparts, hne, hle, hw, hf, rfl⟩ := isAmount_iff.1 h
  have hdigits : (joined decimals whole frac).all isDigit := all_joined.2 ⟨hw, hf⟩
  have hminus : (trim input).head? ≠ some 45 := by
    obtain ⟨-, -, hs⟩ := parts_iff.1 hparts
    intro h45
    cases whole with
    | nil =>
      rcases hs with ⟨hs, -⟩ | hs
      · exact hne hs
      · rw [hs] at h45
        cases h45
    | cons u t =>
      have hu := ne_of_isDigit (List.all_eq_true.1 hw u (by simp))
      rcases hs with ⟨hs, -⟩ | hs <;> (rw [hs] at h45; cases h45; exact hu.2.2.1 rfl)
  refine parseTokenAmount_eq_ok_iff.2 ⟨whole, frac, hparts, hne, hminus, hle, ?_⟩
  exact bigIntParse_of_digits joined_ne_nil hdigits

theorem digits_or_lenient (hhead : ∀ u, s.head? = some u → isSpace u = false ∧ u ≠ 45) {n : Int}
    (h : bigIntParse s = .ok n) : s.all isDigit ∧ n = decimalValue s ∨ LenientLiteral s := by
  obtain ⟨l, spaces, m, hspaces, hm, rfl, hs | hs⟩ := (bigIntParse_eq_ok_iff hhead).1 h
  · exact .inr ⟨l, spaces, hspaces, by rw [hm]; rfl, .inl hs⟩
  · by_cases hplain : hexBody l = none ∧ spaces = []
    · obtain ⟨hhex, rfl⟩ := hplain
      rw [List.append_nil] at hs
      subst hs
      simp only [parseMagnitude, hhex] at hm
      obtain ⟨hc, hvalue⟩ := Option.ite_none_right_eq_some.1 hm
      cases hvalue
      exact .inl ⟨hc.2, rfl⟩
    · refine .inr ⟨l, spaces, hspaces, by rw [hm]; rfl, .inr ⟨hs, ?_⟩⟩
      rw [not_and_or] at hplain
      exact hplain.imp Option.ne_none_iff_isSome.1 id

theorem not_digits_of_lenient (h : LenientLiteral s) : ¬ s.all isDigit := by
  intro hdigits
  have hall := List.all_eq_true.1 hdigits
  obtain ⟨l, spaces, hspaces, -, rfl | ⟨rfl, hhex | hne⟩⟩ := h
  · exact (ne_of_isDigit (hall 43 (by simp))).2.1 rfl
  · rw [hexBody_of_digits (List.all_eq_true.2 fun u hu => hall u (by simp [hu]))] at hhex
    cases hhex
  · obtain ⟨u, t, rfl⟩ := List.exists_cons_of_ne_nil hne
    have hspace := List.all_eq_true.1 hspaces u (by simp)
    have hrange := isDigit_iff.1 (hall u (by simp))
    rw [isSpace_of_le hrange.1 (by omega)] at hspace
    cases hspace

theorem bigIntParse_of_lenient (hhead : ∀ u, s.head? = some u → isSpace u = false ∧ u ≠ 45) (h : LenientLiteral s) :
    ∃ n, bigIntParse s = .ok n := by
  obtain ⟨l, spaces, hspaces, hsome, hs⟩ := h
  obtain ⟨m, hm⟩ := Option.isSome_iff_exists.1 hsome
  exact ⟨m, (bigIntParse_eq_ok_iff hhead).2 ⟨l, spaces, m, hspaces, hm, rfl, hs.imp id (·.1)⟩⟩

theorem head_joined (hparts : Parts (trim input) whole frac) (hminus : (trim input).head? ≠ some 45) :
    ∀ u, (joined decimals whole frac).head? = some u → isSpace u = false ∧ u ≠ 45 := by
  intro u hu
  cases whole with
  | nil =>
    cases hu
    decide
  | cons v t =>
    cases hu
    have hv : (trim input).head? = some u := by
      rcases (parts_iff.1 hparts).2.2 with ⟨hs, -⟩ | hs <;> (rw [hs]; rfl)
    have htrim : isTrimmed u = false := head_strip hv
    refine ⟨?_, fun h => hminus (h ▸ hv)⟩
    rw [isSpace, htrim]
    rfl

theorem Parts.unique {whole' frac' : Text} (h : Parts s whole frac) (h' : Parts s whole' frac') :
    whole = whole' ∧ frac = frac' := by
  rcases h with ⟨h, rfl⟩ | h <;> rcases h' with ⟨h', rfl⟩ | h' <;> rw [h] at h' <;> cases h'
  · exact ⟨rfl, rfl⟩
  · exact ⟨rfl, rfl⟩

theorem head_of_lenient (h : LenientLiteral s) : s.head? ≠ some 45 := by
  obtain ⟨l, spaces, -, hsome, hs⟩ := h
  obtain ⟨m, hm⟩ := Option.isSome_iff_exists.1 hsome
  obtain ⟨⟨u, hu, hdigit⟩, -⟩ := parseMagnitude_spec hm
  rcases hs with rfl | ⟨rfl, -⟩
  · exact fun h => nomatch h
  · rw [List.head?_append, hu]
    rintro ⟨⟩
    exact (ne_of_isDigit hdigit).2.2.1 rfl

theorem not_lenient_of_isAmount {n : Nat} (h : IsAmount decimals (trim input) n) : ¬ Lenient input decimals := by
  rintro ⟨whole, frac, hparts, -, hlenient⟩
  obtain ⟨whole', frac', hparts', -, -, hw, hf, -⟩ := isAmount_iff.1 h
  obtain ⟨rfl, rfl⟩ := hparts.unique hparts'
  exact not_digits_of_lenient hlenient (all_joined.2 ⟨hw, hf⟩)

/-- **When an amount is read exactly**: whenever its digits are not one of the other literals. -/
theorem readExactly_iff : ReadExactly input decimals ↔ ¬ Lenient input decimals := by
  constructor
  · intro h hinput
    obtain ⟨whole, frac, hparts, hle, hlenient⟩ := hinput
    have hs := (parts_iff.1 hparts).2.2
    have hne : trim input ≠ [] := by
      intro hnil
      rw [hnil] at hs
      rcases hs with ⟨rfl, rfl⟩ | hs
      · exact not_digits_of_lenient hlenient (all_joined.2 ⟨rfl, rfl⟩)
      · exact absurd hs.symm (by simp)
    have hminus : (trim input).head? ≠ some 45 := by
      intro h45
      refine head_of_lenient hlenient ?_
      rcases hs with ⟨hs, -⟩ | hs <;> rw [hs] at h45 <;> cases whole <;> cases h45 <;> rfl
    obtain ⟨n, hn⟩ := bigIntParse_of_lenient (head_joined hparts hminus) hlenient
    obtain ⟨m, -, hamount⟩ := (h n).1 (parseTokenAmount_eq_ok_iff.2 ⟨whole, frac, hparts, hne, hminus, hle, hn⟩)
    exact not_lenient_of_isAmount hamount ⟨whole, frac, hparts, hle, hlenient⟩
  · intro hplain n
    constructor
    · intro hparse
      obtain ⟨whole, frac, hparts, hne, hminus, hle, hn⟩ := parseTokenAmount_eq_ok_iff.1 hparse
      rcases digits_or_lenient (head_joined hparts hminus) hn with ⟨hdigits, rfl⟩ | hlenient
      · obtain ⟨hw, hf⟩ := all_joined.1 hdigits
        exact ⟨_, rfl, isAmount_iff.2 ⟨whole, frac, hparts, hne, hle, hw, hf, rfl⟩⟩
      · exact absurd ⟨whole, frac, hparts, hle, hlenient⟩ hplain
    · rintro ⟨m, rfl, hamount⟩
      exact parse_of_isAmount hamount

end Reading

/-! ## Writing amounts -/

section Writing

variable (amount decimals : Nat)

theorem unit_of_digit {d : Nat} (hd : d < 10) :
    isDigit (48 + UInt16.ofNat d) = true ∧ digitValue (48 + UInt16.ofNat d) = d := by
  have hall : ∀ d < 10, isDigit (48 + UInt16.ofNat d) = true ∧ digitValue (48 + UInt16.ofNat d) = d := by decide
  exact hall d hd

theorem digitsOf_spec : (digitsOf amount).all isDigit ∧ decimalValue (digitsOf amount) = amount := by
  have hlt : ∀ d ∈ (if amount = 0 then [0] else Radix.numeral 10 amount), d < 10 := by
    intro d hd
    split at hd
    · rw [List.mem_singleton.1 hd]
      decide
    · exact Radix.lt_of_mem_numeral (by decide) hd
  have hvalue : Radix.value 10 (if amount = 0 then [0] else Radix.numeral 10 amount) = amount := by
    split
    · next h => rw [h]; rfl
    · exact Radix.value_numeral amount
  constructor
  · rw [digitsOf, List.all_map]
    exact List.all_eq_true.2 fun d hd => (unit_of_digit (hlt d hd)).1
  · rw [digitsOf, decimalValue, List.map_map]
    conv_rhs => rw [← hvalue]
    congr 1
    exact (List.map_congr_left fun d hd => (unit_of_digit (hlt d hd)).2).trans (List.map_id _)

def amountDigits : Text := padLeft (decimals + 1) (digitsOf amount)

theorem amountDigits_spec : (amountDigits amount decimals).all isDigit ∧
    decimalValue (amountDigits amount decimals) = amount ∧ decimals < (amountDigits amount decimals).length := by
  obtain ⟨hdigits, hvalue⟩ := digitsOf_spec amount
  refine ⟨?_, ?_, ?_⟩
  · rw [amountDigits, padLeft, List.all_append, hdigits, Bool.and_true]
    exact List.all_eq_true.2 fun u hu => by rw [(List.mem_replicate.1 hu).2]; rfl
  · rw [amountDigits, padLeft, decimalValue, List.map_append, List.map_replicate, Radix.value_append]
    have hzero : digitValue 48 = 0 := rfl
    rw [hzero, Radix.value_replicate_zero, Nat.zero_mul, Nat.zero_add]
    exact hvalue
  · rw [amountDigits, padLeft, List.length_append, List.length_replicate]
    omega

/-- **What `formatTokenAmount` writes**: the digits around the point, with the last digit behind it not zero. -/
theorem formatTokenAmount_spec : ∃ whole frac : Text, whole ≠ [] ∧ frac.length ≤ decimals ∧
    joined decimals whole frac = amountDigits amount decimals ∧
    (∀ u, frac.getLast? = some u → u ≠ 48) ∧
    formatTokenAmount amount decimals = (if frac = [] then whole else whole ++ 46 :: frac) := by
  obtain ⟨-, -, hlen⟩ := amountDigits_spec amount decimals
  generalize hdigits : amountDigits amount decimals = digits at hlen
  have hfull : (digits.drop (digits.length - decimals)).length = decimals := by
    rw [List.length_drop]
    omega
  have hwhole : digits.take (digits.length - decimals) ≠ [] := by
    rw [← List.length_pos_iff, List.length_take]
    omega
  generalize hfrac : (digits.drop (digits.length - decimals)).rdropWhile (· == 48) = frac
  -- what was taken off the fraction is as many zeros as fill it up again
  have hpad : padRight decimals frac = digits.drop (digits.length - decimals) := by
    have hsplit : (digits.drop (digits.length - decimals)).rdropWhile (· == 48) ++
        (digits.drop (digits.length - decimals)).rtakeWhile (· == 48) = digits.drop (digits.length - decimals) :=
      List.rdropWhile_append_rtakeWhile
    rw [hfrac] at hsplit
    have hzeros : (digits.drop (digits.length - decimals)).rtakeWhile (· == 48) =
        List.replicate (decimals - frac.length) 48 := by
      refine List.eq_replicate_iff.2 ⟨?_, fun u hu => by simpa using List.mem_rtakeWhile_imp hu⟩
      have := congrArg List.length hsplit
      rw [List.length_append, hfull] at this
      omega
    rw [padRight, ← hzeros, hsplit]
  refine ⟨digits.take (digits.length - decimals), frac, hwhole, ?_, ?_, ?_, ?_⟩
  · rw [← hfull, ← hfrac]
    exact (List.rdropWhile_prefix ..).length_le
  · rw [joined, hpad, wholeDigits, if_neg (by simpa using hwhole), List.take_append_drop]
  · intro u hu
    obtain ⟨hne, rfl⟩ := List.mem_getLast?_eq_getLast hu
    have hlast := List.rdropWhile_last_not (p := (· == 48)) (l := digits.drop (digits.length - decimals))
      (by rw [hfrac]; exact hne)
    simp only [hfrac] at hlast
    simpa using hlast
  · unfold amountDigits at hdigits
    simp only [formatTokenAmount, hdigits, hfrac, List.isEmpty_iff]

theorem isAmount_formatTokenAmount :
    trim (formatTokenAmount amount decimals) = formatTokenAmount amount decimals ∧
      IsAmount decimals (formatTokenAmount amount decimals) amount := by
  obtain ⟨whole, frac, hne, hle, hjoined, -, heq⟩ := formatTokenAmount_spec amount decimals
  obtain ⟨hdigits, hvalue, -⟩ := amountDigits_spec amount decimals
  rw [← hjoined] at hdigits hvalue
  obtain ⟨hw, hf⟩ := all_joined.1 hdigits
  have hunits : ∀ u ∈ formatTokenAmount amount decimals, isTrimmed u = false := by
    have hdigit : ∀ u, isDigit u = true → isTrimmed u = false := fun u hu => by
      have := isDigit_iff.1 hu
      exact isTrimmed_of_le this.1 (by omega)
    intro u hu
    rw [heq] at hu
    split at hu
    · exact hdigit u (List.all_eq_true.1 hw u hu)
    · rcases List.mem_append.1 hu with hu | hu
      · exact hdigit u (List.all_eq_true.1 hw u hu)
      · rcases List.mem_cons.1 hu with rfl | hu
        · rfl
        · exact hdigit u (List.all_eq_true.1 hf u hu)
  refine ⟨strip_of_forall hunits, whole, frac, hw, hf, hle, ?_, ?_⟩
  · rw [heq]
    split
    · next h => exact .inl ⟨rfl, hne, h⟩
    · exact .inr rfl
  · rw [← decimalValue_joined hle, hvalue]

/-- **What is written is read back.** -/
theorem parse_formatTokenAmount : parseTokenAmount (formatTokenAmount amount decimals) decimals = .ok amount := by
  obtain ⟨htrim, hamount⟩ := isAmount_formatTokenAmount amount decimals
  exact parse_of_isAmount (htrim.symm ▸ hamount)

theorem formatTokenAmount_trimmed (h : 46 ∈ formatTokenAmount amount decimals) :
    ∃ u, (formatTokenAmount amount decimals).getLast? = some u ∧ isDigit u = true ∧ u ≠ 48 := by
  obtain ⟨whole, frac, -, hle, hjoined, hlast, heq⟩ := formatTokenAmount_spec amount decimals
  obtain ⟨hdigits, -, -⟩ := amountDigits_spec amount decimals
  rw [← hjoined] at hdigits
  obtain ⟨hw, hf⟩ := all_joined.1 hdigits
  rw [heq] at h ⊢
  split at h
  · exact absurd rfl (ne_of_isDigit (List.all_eq_true.1 hw 46 h)).1
  · next hne =>
    rw [if_neg hne]
    obtain ⟨u, hu⟩ : ∃ u, frac.getLast? = some u := ⟨_, List.getLast?_eq_some_getLast hne⟩
    refine ⟨u, ?_, List.all_eq_true.1 hf u (List.mem_of_getLast? hu), hlast u hu⟩
    rw [List.getLast?_append, List.getLast?_cons, hu]
    rfl

end Writing

/-! ## Exactness -/

theorem parseTokenAmount_exact_iff (input : Text) (amount decimals : Nat) :
    (ReadExactly input decimals ↔ ¬ Lenient input decimals) ∧
      parseTokenAmount (formatTokenAmount amount decimals) decimals = .ok (amount : Int) ∧
      (46 ∈ formatTokenAmount amount decimals →
        ∃ u, (formatTokenAmount amount decimals).getLast? = some u ∧ isDigit u = true ∧ u ≠ 48) :=
  ⟨readExactly_iff, parse_formatTokenAmount amount decimals, formatTokenAmount_trimmed amount decimals⟩

theorem parseTokenAmount_exact_written :
    ReadExactly (text "12.50") 18 ∧
      ∃ u, (formatTokenAmount 12500 3).getLast? = some u ∧ isDigit u = true ∧ u ≠ 48 := by
  have hamount : IsAmount 18 (trim (text "12.50")) 12500000000000000000 :=
    ⟨text "12", text "50", by decide, by decide, by decide, .inr (by decide), by decide⟩
  exact ⟨(parseTokenAmount_exact_iff _ 0 18).1.2 (not_lenient_of_isAmount hamount),
    (parseTokenAmount_exact_iff [] 12500 3).2.2 (by decide)⟩

theorem parseTokenAmount_not_exact :
    (parseTokenAmount (text "+5") 0 = .ok 5 ∧ ¬ ReadExactly (text "+5") 0) ∧
    (parseTokenAmount (text "0x10") 0 = .ok 16 ∧ ¬ ReadExactly (text "0x10") 0) ∧
    (parseTokenAmount (text "0.x5") 2 = .ok 5 ∧ ¬ ReadExactly (text "0.x5") 2) ∧
    (parseTokenAmount (text "5 .") 0 = .ok 5 ∧ ¬ ReadExactly (text "5 .") 0) := by
  refine ⟨⟨by rfl, ?_⟩, ⟨by rfl, ?_⟩, ⟨by rfl, ?_⟩, ⟨by rfl, ?_⟩⟩ <;> rw [readExactly_iff, not_not]
  · exact ⟨text "+5", [], .inl ⟨by decide, rfl⟩, by decide, text "5", [], by decide, by decide, .inl (by decide)⟩
  · exact ⟨text "0x10", [], .inl ⟨by decide, rfl⟩, by decide, text "0x10", [], by decide, by decide,
      .inr ⟨by decide, .inl (by decide)⟩⟩
  · exact ⟨text "0", text "x5", .inr (by decide), by decide, text "0x5", [], by decide, by decide,
      .inr ⟨by decide, .inl (by decide)⟩⟩
  · exact ⟨text "5 ", [], .inr (by decide), by decide, text "5", text " ", by decide, by decide,
      .inr ⟨by decide, .inr (by decide)⟩⟩

end CodexaCoin.Wallet.Token
