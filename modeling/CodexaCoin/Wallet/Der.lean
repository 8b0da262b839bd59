import CodexaCoin.Lib.Radix
import CodexaCoin.Script.Interpreter
import CodexaCoin.Wallet.Transaction

/-!
# The encoding of signatures

Both wallets write `r` and `s` as DER integers; the node checks the bytes with `IsValidSignatureEncoding` and reads them
with `ecdsa_signature_parse_der_lax` of `pubkey.cpp`.
-/

namespace CodexaCoin.Wallet

/-! ## Bytes from hex digits -/

section Hex

/-- `toString(16)` and `toRadixString(16)`, as digits. -/
def radix16 (v : Nat) : List Nat := if v = 0 then [0] else Radix.numeral 16 v

def padEven (hex : List Nat) : List Nat := if hex.length % 2 ≠ 0 then 0 :: hex else hex

def hexPairs : List Nat → List Nat
  | [] => []
  | [_] => []
  | a :: b :: rest => (16 * a + b) :: hexPairs rest

variable {l : List Nat}

theorem length_hexPairs (l : List Nat) : (hexPairs l).length = l.length / 2 := by
  fun_induction hexPairs l with
  | case1 => rfl
  | case2 a => rw [List.length_singleton]; rfl
  | case3 a b rest ih => simp only [List.length_cons, ih]; omega

theorem value_hexPairs (h : l.length % 2 = 0) : Radix.value 256 (hexPairs l) = Radix.value 16 l := by
  fun_induction hexPairs l with
  | case1 => rfl
  | case2 a => cases h
  | case3 a b rest ih =>
    have heven : rest.length % 2 = 0 := by simp only [List.length_cons] at h; omega
    have hpow : 256 ^ (rest.length / 2) = 16 ^ rest.length := by
      rw [show 256 = 16 ^ 2 by decide, ← Nat.pow_mul, Nat.mul_div_cancel' (Nat.dvd_of_mod_eq_zero heven)]
    rw [Radix.value_cons, Radix.value_cons, Radix.value_cons, ih heven, length_hexPairs, hpow, List.length_cons,
      Nat.pow_succ]
    ring

theorem hexPairs_lt (h : ∀ d ∈ l, d < 16) : ∀ d ∈ hexPairs l, d < 256 := by
  fun_induction hexPairs l with
  | case1 => exact fun d hd => nomatch hd
  | case2 a => exact fun d hd => nomatch hd
  | case3 a b rest ih =>
    have ha := h a (by simp)
    have hb := h b (by simp)
    intro d hd
    rcases List.mem_cons.1 hd with rfl | hd
    · omega
    · exact ih (fun d hd => h d (by simp [hd])) d hd

theorem head_hexPairs_padEven (hne : l ≠ []) (h : l.head? ≠ some 0) : (hexPairs (padEven l)).head? ≠ some 0 := by
  unfold padEven
  match l, hne, h with
  | [a], _, h =>
    simp only [List.head?_cons, ne_eq, Option.some.injEq] at h
    simp [hexPairs, h]
  | a :: b :: rest, _, h =>
    simp only [List.head?_cons, ne_eq, Option.some.injEq] at h
    split
    · simp [hexPairs, h]
    · simp [hexPairs, h]

/-- **The bytes of a number are the pairs of its hex digits.** -/
theorem bigIntToBytes_eq (v : Nat) : bigIntToBytes v = (hexPairs (padEven (radix16 v))).map UInt8.ofNat := by
  by_cases hv : v = 0
  · subst hv
    decide
  · have hpos : Radix.numeral 16 v ≠ [] := by
      intro h
      have := Radix.value_numeral (b := 16) v
      rw [h] at this
      exact hv this.symm
    have heven : (padEven (Radix.numeral 16 v)).length % 2 = 0 := by
      unfold padEven
      split
      · rw [List.length_cons]; omega
      · omega
    have hlt : ∀ d ∈ padEven (Radix.numeral 16 v), d < 16 := by
      intro d hd
      unfold padEven at hd
      split at hd
      · rcases List.mem_cons.1 hd with rfl | hd
        · decide
        · exact Radix.lt_of_mem_numeral (by decide) hd
      · exact Radix.lt_of_mem_numeral (by decide) hd
    have hvalue : Radix.value 16 (padEven (Radix.numeral 16 v)) = v := by
      unfold padEven
      split
      · rw [Radix.value_cons, Nat.zero_mul, Nat.zero_add, Radix.value_numeral]
      · exact Radix.value_numeral v
    have hpairs := Radix.numeral_value (by decide) (hexPairs_lt hlt)
      (head_hexPairs_padEven hpos (Radix.head_numeral_ne_zero v))
    rw [value_hexPairs heven, hvalue] at hpairs
    rw [bigIntToBytes, if_neg hv, radix16, if_neg hv, ← hpairs]
    rfl

end Hex

namespace Der

/-! ## Integers -/

def ofBytes (bs : List UInt8) : Nat := Radix.value 256 (bs.map UInt8.toNat)

/-- The bytes of `encodeInt` after the tag and the length. -/
def content (v : Nat) : List UInt8 :=
  if (bigIntToBytes v).head?.any (0x80 ≤ ·) then 0 :: bigIntToBytes v else bigIntToBytes v

theorem encodeInt_eq (v : Nat) : encodeInt v = 0x02 :: UInt8.ofNat (content v).length :: content v := rfl

/-- The shortest form of a non-negative number: no sign bit, and a leading zero byte only to keep it free. -/
structure Minimal (bs : List UInt8) : Prop where
  ne_nil : bs ≠ []
  head_lt : ∀ b, bs[0]? = some b → b.toNat < 0x80
  second_ge : ∀ b, bs[0]? = some 0 → bs[1]? = some b → 0x80 ≤ b.toNat

section Content

variable {v k : Nat}

theorem ofBytes_cons (b : UInt8) (bs : List UInt8) : ofBytes (b :: bs) = b.toNat * 256 ^ bs.length + ofBytes bs := by
  rw [ofBytes, List.map_cons, Radix.value_cons, List.length_map]
  rfl

theorem ofBytes_bigIntToBytes (v : Nat) : ofBytes (bigIntToBytes v) = v := by
  unfold bigIntToBytes
  split
  · next h => rw [h]; rfl
  · have hmap : ((Nat.digits 256 v).reverse.map UInt8.ofNat).map UInt8.toNat = Radix.numeral 256 v := by
      rw [List.map_map]
      refine (List.map_congr_left fun d hd => ?_).trans (List.map_id _)
      exact UInt8.toNat_ofNat_of_lt' (Radix.lt_of_mem_numeral (by decide) hd)
    rw [ofBytes, hmap, Radix.value_numeral]

theorem bigIntToBytes_ne_nil (v : Nat) : bigIntToBytes v ≠ [] := by
  intro h
  have hv := ofBytes_bigIntToBytes v
  rw [h] at hv
  have h0 : v = 0 := hv.symm
  subst h0
  exact absurd h (by decide)

theorem head_bigIntToBytes (hv : v ≠ 0) : (bigIntToBytes v)[0]? ≠ some 0 := by
  rw [bigIntToBytes, if_neg hv, ← List.head?_eq_getElem?, List.head?_map]
  intro h
  obtain ⟨d, hd, hzero⟩ := Option.map_eq_some_iff.1 h
  have hlt : d < 256 := Radix.lt_of_mem_numeral (by decide) (List.mem_of_mem_head? hd)
  have hd0 : d = 0 := by
    have := congrArg UInt8.toNat hzero
    rwa [UInt8.toNat_ofNat_of_lt' hlt] at this
  rw [hd0] at hd
  exact Radix.head_numeral_ne_zero v hd

theorem content_cases (v : Nat) : ∃ h t, bigIntToBytes v = h :: t ∧ (v ≠ 0 → h.toNat ≠ 0) ∧
    (0x80 ≤ h.toNat ∧ content v = 0 :: h :: t ∨ h.toNat < 0x80 ∧ content v = h :: t) := by
  have hhead := @head_bigIntToBytes v
  obtain ⟨h, t, hbytes⟩ := List.exists_cons_of_ne_nil (bigIntToBytes_ne_nil v)
  rw [hbytes] at hhead
  refine ⟨h, t, hbytes, fun hv h0 => hhead hv (congrArg some (UInt8.toNat_inj.1 h0)), ?_⟩
  unfold content
  rw [hbytes]
  split
  · next hc =>
    rw [List.head?_cons, Option.any_some, decide_eq_true_eq, UInt8.le_iff_toNat_le] at hc
    exact .inl ⟨hc, rfl⟩
  · next hc =>
    rw [List.head?_cons, Option.any_some, decide_eq_true_eq, UInt8.le_iff_toNat_le, Nat.not_le] at hc
    exact .inr ⟨hc, rfl⟩

/-- **What stands between the headers is the shortest form.** -/
theorem content_minimal (v : Nat) : Minimal (content v) := by
  obtain ⟨h, t, hbytes, hpos, ⟨hge, hcontent⟩ | ⟨hlt, hcontent⟩⟩ := content_cases v
  · rw [hcontent]
    refine ⟨List.cons_ne_nil _ _, ?_, ?_⟩
    · rintro b ⟨⟩
      decide
    · rintro b - ⟨⟩
      exact hge
  · rw [hcontent]
    refine ⟨List.cons_ne_nil _ _, ?_, ?_⟩
    · rintro b ⟨⟩
      exact hlt
    · -- only zero itself begins with a zero byte, and it has no other
      rintro b ⟨⟩ hb
      have hv : v = 0 := by
        by_contra hv
        exact hpos hv rfl
      subst hv
      cases hbytes
      cases hb

@[simp] theorem ofBytes_content (v : Nat) : ofBytes (content v) = v := by
  unfold content
  split
  · rw [ofBytes_cons, ofBytes_bigIntToBytes]
    simp
  · exact ofBytes_bigIntToBytes v

/-- **The length of an integer**, the byte that keeps the sign bit free included. -/
theorem length_content_le {n : Nat} (h : v < 2 ^ n) (hn : n < 8 * k) : (content v).length ≤ k := by
  by_cases hv : v = 0
  · subst hv
    exact Nat.one_le_iff_ne_zero.2 (by omega)
  obtain ⟨b, t, hbytes, hpos, hcases⟩ := content_cases v
  have hvalue := ofBytes_bigIntToBytes v
  rw [hbytes, ofBytes_cons, show 256 = 2 ^ 8 by decide, ← Nat.pow_mul] at hvalue
  rcases hcases with ⟨hge, hcontent⟩ | ⟨-, hcontent⟩
  · have hlow : 2 ^ (7 + 8 * t.length) ≤ v := by
      rw [Nat.pow_add]
      have := Nat.mul_le_mul_right (2 ^ (8 * t.length)) hge
      omega
    have := (Nat.pow_lt_pow_iff_right (by decide)).1 (Nat.lt_of_le_of_lt hlow h)
    rw [hcontent, List.length_cons, List.length_cons]
    omega
  · have hlow : 2 ^ (8 * t.length) ≤ v := by
      have := Nat.le_mul_of_pos_left (2 ^ (8 * t.length)) (Nat.pos_of_ne_zero (hpos hv))
      omega
    have := (Nat.pow_lt_pow_iff_right (by decide)).1 (Nat.lt_of_le_of_lt hlow h)
    rw [hcontent, List.length_cons]
    omega

end Content

/-! ## The check of the node -/

section Check

variable {a b : List UInt8}

def byteAt (bs : List UInt8) (i : Nat) : Nat := ((bs[i]?).map UInt8.toNat).getD 0

theorem byteAt_append_left {i : Nat} (h : i < a.length) (b : List UInt8) : byteAt (a ++ b) i = byteAt a i := by
  rw [byteAt, List.getElem?_append_left h]
  rfl

theorem byteAt_append_right (a b : List UInt8) (i : Nat) : byteAt (a ++ b) (a.length + i) = byteAt b i := by
  rw [byteAt, List.getElem?_append_right (Nat.le_add_right _ _), Nat.add_sub_cancel_left]
  rfl

theorem Minimal.byteAt_zero_lt (ha : Minimal a) : byteAt a 0 < 0x80 := by
  obtain ⟨b, t, rfl⟩ := List.exists_cons_of_ne_nil ha.ne_nil
  exact ha.head_lt b rfl

theorem Minimal.le_byteAt_one (ha : Minimal a) (hlen : 1 < a.length) (h : byteAt a 0 = 0) : 0x80 ≤ byteAt a 1 := by
  match a, hlen with
  | b :: c :: t, _ => exact ha.second_ge c (congrArg some (UInt8.toNat_inj.1 h)) rfl

theorem isValidSignatureEncoding_iff (sig : List UInt8) : isValidSignatureEncoding sig = true ↔
    9 ≤ sig.length ∧ sig.length ≤ 73 ∧ byteAt sig 0 = 0x30 ∧ byteAt sig 1 = sig.length - 3 ∧
    5 + byteAt sig 3 < sig.length ∧ byteAt sig 3 + byteAt sig (5 + byteAt sig 3) + 7 = sig.length ∧
    byteAt sig 2 = 0x02 ∧ byteAt sig 3 ≠ 0 ∧ byteAt sig 4 < 0x80 ∧
    ¬ (byteAt sig 3 > 1 ∧ byteAt sig 4 = 0 ∧ byteAt sig 5 < 0x80) ∧
    byteAt sig (byteAt sig 3 + 4) = 0x02 ∧ byteAt sig (5 + byteAt sig 3) ≠ 0 ∧
    byteAt sig (byteAt sig 3 + 6) < 0x80 ∧
    ¬ (byteAt sig (5 + byteAt sig 3) > 1 ∧ byteAt sig (byteAt sig 3 + 6) = 0 ∧
      byteAt sig (byteAt sig 3 + 7) < 0x80) := by
  simp only [isValidSignatureEncoding, byteAt, Bool.and_eq_true, Bool.not_eq_true', Bool.and_eq_false_iff,
    decide_eq_true_eq, decide_eq_false_iff_not, if_true, not_and_or, and_assoc, or_assoc]

/-- A signature with its hash type, from the bytes of its integers. -/
def signatureBytes (a b : List UInt8) (hashType : UInt8) : List UInt8 :=
  0x30 :: UInt8.ofNat (a.length + 2 + (b.length + 2)) :: 0x02 :: UInt8.ofNat a.length ::
    (a ++ 0x02 :: UInt8.ofNat b.length :: (b ++ [hashType]))

theorem length_signatureBytes (a b : List UInt8) (hashType : UInt8) :
    (signatureBytes a b hashType).length = a.length + b.length + 7 := by
  simp only [signatureBytes, List.length_cons, List.length_append, List.length_nil]
  omega

theorem byteAt_signatureBytes_left {i : Nat} (h : i < a.length) (b : List UInt8) (hashType : UInt8) :
    byteAt (signatureBytes a b hashType) (i + 4) = byteAt a i :=
  byteAt_append_left h _

theorem byteAt_signatureBytes_right {i : Nat} (h : i < b.length) (a : List UInt8) (hashType : UInt8) :
    byteAt (signatureBytes a b hashType) (a.length + (i + 6)) = byteAt b i :=
  (byteAt_append_right a _ (i + 2)).trans (byteAt_append_left h [hashType])

/-- **Two integers in the shortest form pass `IsValidSignatureEncoding`.** -/
theorem isValidSignatureEncoding_of_minimal (ha : Minimal a) (hb : Minimal b) (hlen : a.length + b.length ≤ 66)
    (hashType : UInt8) : isValidSignatureEncoding (signatureBytes a b hashType) = true := by
  have hapos := List.length_pos_iff.2 ha.ne_nil
  have hbpos := List.length_pos_iff.2 hb.ne_nil
  have hlength := length_signatureBytes a b hashType
  -- the headers
  have htotal : byteAt (signatureBytes a b hashType) 1 = a.length + b.length + 4 :=
    (UInt8.toNat_ofNat_of_lt' (show a.length + 2 + (b.length + 2) < 256 by omega)).trans (by omega)
  have hlenR : byteAt (signatureBytes a b hashType) 3 = a.length :=
    UInt8.toNat_ofNat_of_lt' (show a.length < 256 by omega)
  have hlenS : byteAt (signatureBytes a b hashType) (5 + a.length) = b.length := by
    rw [Nat.add_comm]
    exact (byteAt_append_right a _ 1).trans (UInt8.toNat_ofNat_of_lt' (show b.length < 256 by omega))
  have htagS : byteAt (signatureBytes a b hashType) (a.length + 4) = 0x02 := byteAt_append_right a _ 0
  -- the first two bytes of the integers
  have hr0 := byteAt_signatureBytes_left hapos b hashType
  have hs0 := byteAt_signatureBytes_right hbpos a hashType
  have hr : ¬ (a.length > 1 ∧ byteAt (signatureBytes a b hashType) 4 = 0 ∧
      byteAt (signatureBytes a b hashType) 5 < 0x80) := by
    rintro ⟨hgt, hzero, hlt⟩
    have hge := ha.le_byteAt_one hgt (hr0.symm.trans hzero)
    rw [← byteAt_signatureBytes_left hgt b hashType] at hge
    exact absurd hlt (Nat.not_lt.2 hge)
  have hs : ¬ (b.length > 1 ∧ byteAt (signatureBytes a b hashType) (a.length + 6) = 0 ∧
      byteAt (signatureBytes a b hashType) (a.length + 7) < 0x80) := by
    rintro ⟨hgt, hzero, hlt⟩
    have hge := hb.le_byteAt_one hgt (hs0.symm.trans hzero)
    rw [← byteAt_signatureBytes_right hgt a hashType] at hge
    exact absurd hlt (Nat.not_lt.2 hge)
  rw [isValidSignatureEncoding_iff, hlenR, hlenS, hlength]
  refine ⟨by omega, by omega, rfl, by omega, by omega, by omega, rfl, by omega, ?_, hr, htagS, by omega, ?_, hs⟩
  · exact hr0 ▸ ha.byteAt_zero_lt
  · exact hs0 ▸ hb.byteAt_zero_lt

end Check

/-! ## The reader of the node -/

section Reader

/-- An integer length of `ecdsa_signature_parse_der_lax`; a long form may have leading zeros. -/
def parseLength : List UInt8 → Option (Nat × List UInt8)
  | [] => none
  | lenbyte :: rest =>
    if lenbyte.toNat < 0x80 then some (lenbyte.toNat, rest)
    else
      let count := lenbyte.toNat - 0x80
      if count > rest.length then none
      else
        let bytes := (rest.take count).dropWhile (· == 0)
        if bytes.length ≥ 4 then none else some (ofBytes bytes, rest.drop count)

def parseInteger : List UInt8 → Option (List UInt8 × List UInt8)
  | [] => none
  | tag :: rest =>
    if tag ≠ 0x02 then none
    else (parseLength rest).bind fun (len, rest) =>
      if len > rest.length then none else some (rest.take len, rest.drop len)

/-- What follows the header of the sequence, whose length is not used. -/
def parseSequence : List UInt8 → Option (List UInt8)
  | tag :: lenbyte :: rest =>
    if tag ≠ 0x30 then none
    else if lenbyte.toNat < 0x80 then some rest
    else if lenbyte.toNat - 0x80 > rest.length then none
    else some (rest.drop (lenbyte.toNat - 0x80))
  | _ => none

/-- `secp256k1_ecdsa_signature_parse_compact` of two numbers of at most 32 bytes; numbers that are too large give the
signature that is never valid. -/
def parseCompact (r s : List UInt8) : Nat × Nat :=
  if r.length > 32 ∨ s.length > 32 then (0, 0)
  else if ofBytes r < secp256k1N ∧ ofBytes s < secp256k1N then (ofBytes r, ofBytes s)
  else (0, 0)

def ecdsaSignatureParseDerLax (input : List UInt8) : Option (Nat × Nat) :=
  (parseSequence input).bind fun rest =>
    (parseInteger rest).bind fun (r, rest) =>
      (parseInteger rest).bind fun (s, _) =>
        some (parseCompact (r.dropWhile (· == 0)) (s.dropWhile (· == 0)))

variable {a b : List UInt8}

theorem ofBytes_dropWhile (bs : List UInt8) : ofBytes (bs.dropWhile (· == 0)) = ofBytes bs := by
  induction bs with
  | nil => rfl
  | cons b bs ih =>
    by_cases hb : b = 0
    · subst hb
      rw [List.dropWhile_cons_of_pos (by decide), ih, ofBytes_cons]
      simp
    · rw [List.dropWhile_cons_of_neg (by simpa using hb)]

theorem length_dropWhile_le {k : Nat} (h : ofBytes a < 256 ^ k) : (a.dropWhile (· == 0)).length ≤ k := by
  rw [← ofBytes_dropWhile] at h
  cases hd : a.dropWhile (· == 0) with
  | nil => exact Nat.zero_le _
  | cons b t =>
    have hb : b ≠ 0 := by
      have := List.head?_dropWhile_not (· == 0) a
      rw [hd] at this
      simpa using this
    rw [hd, ofBytes_cons] at h
    have hpos : 0 < b.toNat := Nat.pos_of_ne_zero fun h0 => hb (UInt8.toNat_inj.1 h0)
    have hlow := Nat.le_mul_of_pos_left (256 ^ t.length) hpos
    have := (Nat.pow_lt_pow_iff_right (by decide)).1 (Nat.lt_of_le_of_lt hlow (by omega : _ < 256 ^ k))
    rw [List.length_cons]
    omega

theorem parseInteger_append (ha : a.length < 0x80) (rest : List UInt8) :
    parseInteger (0x02 :: UInt8.ofNat a.length :: (a ++ rest)) = some (a, rest) := by
  have hlen : (UInt8.ofNat a.length).toNat = a.length := UInt8.toNat_ofNat_of_lt' (show a.length < 256 by omega)
  simp [parseInteger, parseLength, hlen, ha]

theorem parseCompact_dropWhile (ha : ofBytes a < secp256k1N) (hb : ofBytes b < secp256k1N) :
    parseCompact (a.dropWhile (· == 0)) (b.dropWhile (· == 0)) = (ofBytes a, ofBytes b) := by
  have hn : secp256k1N < 256 ^ 32 := by decide
  have ha' := length_dropWhile_le (ha.trans hn)
  have hb' := length_dropWhile_le (hb.trans hn)
  rw [parseCompact, if_neg (by omega), ofBytes_dropWhile, ofBytes_dropWhile, if_pos ⟨ha, hb⟩]

/-- **The reader finds the two integers**, whatever follows them. -/
theorem parseDerLax_eq (hlen : a.length + b.length + 4 < 0x80) (ha : ofBytes a < secp256k1N)
    (hb : ofBytes b < secp256k1N) (rest : List UInt8) :
    ecdsaSignatureParseDerLax (0x30 :: UInt8.ofNat (a.length + 2 + (b.length + 2)) :: 0x02 :: UInt8.ofNat a.length ::
      (a ++ 0x02 :: UInt8.ofNat b.length :: (b ++ rest))) = some (ofBytes a, ofBytes b) := by
  have htotal : (UInt8.ofNat (a.length + 2 + (b.length + 2))).toNat = a.length + b.length + 4 :=
    (UInt8.toNat_ofNat_of_lt' (show a.length + 2 + (b.length + 2) < 256 by omega)).trans (by omega)
  rw [ecdsaSignatureParseDerLax, parseSequence, if_neg (by decide), htotal, if_pos hlen, Option.bind_some,
    parseInteger_append (by omega)]
  simp only [Option.bind_some]
  rw [parseInteger_append (by omega), Option.bind_some, parseCompact_dropWhile ha hb]

end Reader

end Der

/-! ## Both wallets -/

section Wallets

open Der

theorem derEncode_append (r s : Nat) (rest : List UInt8) :
    derEncode r s ++ rest = 0x30 :: UInt8.ofNat ((content r).length + 2 + ((content s).length + 2)) :: 0x02 ::
      UInt8.ofNat (content r).length :: (content r ++ 0x02 :: UInt8.ofNat (content s).length :: (content s ++ rest)) := by
  simp only [derEncode, encodeInt_eq, List.length_cons, List.cons_append, List.append_assoc, List.nil_append]

theorem lowS_le (sig : ECSignature) : (Mobile.lowS sig).s ≤ secp256k1N / 2 := by
  unfold Mobile.lowS
  split
  · have : secp256k1N ≤ 2 * (secp256k1N / 2) + 1 := by decide
    dsimp only
    omega
  · omega

theorem signatureEncoding_canonical (sig : ECSignature) (hashType : UInt8) :
    (∀ web : ECSignature, web.r = sig.r → web.s = (Mobile.lowS sig).s →
      Web.derEncodeSignature web = Mobile.derEncodeSignature sig) ∧
    isValidSignatureEncoding (Mobile.derEncodeSignature sig ++ [hashType]) = true ∧
    (Mobile.derEncodeSignature sig ++ [hashType]).length ≤ 72 ∧
    ecdsaSignatureParseDerLax (Mobile.derEncodeSignature sig) = some (sig.r, (Mobile.lowS sig).s) := by
  have hr : sig.r < 2 ^ 256 := Nat.lt_of_lt_of_le sig.r_lt (by decide)
  have hs : (Mobile.lowS sig).s < 2 ^ 255 := Nat.lt_of_le_of_lt (lowS_le sig) (by decide)
  have hrlen : (content sig.r).length ≤ 33 := length_content_le hr (by decide)
  have hslen : (content (Mobile.lowS sig).s).length ≤ 32 := length_content_le hs (by decide)
  have hmobile : Mobile.derEncodeSignature sig = derEncode sig.r (Mobile.lowS sig).s := by
    rw [Mobile.derEncodeSignature_eq, Web.derEncodeSignature, Mobile.lowS]
    split <;> rfl
  have hbytes : Mobile.derEncodeSignature sig ++ [hashType] =
      signatureBytes (content sig.r) (content (Mobile.lowS sig).s) hashType := by
    rw [hmobile]
    exact derEncode_append _ _ [hashType]
  refine ⟨fun web hwr hws => ?_, ?_, ?_, ?_⟩
  · rw [hmobile, Web.derEncodeSignature, hwr, hws]
  · rw [hbytes]
    exact isValidSignatureEncoding_of_minimal (content_minimal _) (content_minimal _) (by omega) hashType
  · rw [hbytes, length_signatureBytes]
    omega
  · have hparse := parseDerLax_eq (a := content sig.r) (b := content (Mobile.lowS sig).s) (by omega)
      (by rw [ofBytes_content]; exact sig.r_lt) (by rw [ofBytes_content]; exact (Mobile.lowS sig).s_lt) []
    rw [← derEncode_append, List.append_nil, ofBytes_content, ofBytes_content] at hparse
    rw [hmobile, hparse]

theorem signatureEncoding_canonical_highS :
    Web.derEncodeSignature ⟨2 ^ 255, 1, by decide, by decide⟩ =
      Mobile.derEncodeSignature ⟨2 ^ 255, secp256k1N - 1, by decide, by decide⟩ :=
  (signatureEncoding_canonical ⟨2 ^ 255, secp256k1N - 1, by decide, by decide⟩ 0x01).1 _ rfl (by decide)

end Wallets

end CodexaCoin.Wallet
