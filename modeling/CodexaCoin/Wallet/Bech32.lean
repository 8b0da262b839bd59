import CodexaCoin.Lib.Check
import CodexaCoin.Lib.ShiftRegister

/-!
# Bech32 in the wallets

`bech32Polymod`, `bech32Encode`, `bech32Decode` and `convertBits` of `web-wallet/crypto.js`, with `_convertBits` of
`cac_wallet/lib/crypto/address.dart`. Texts are lists of UTF-16 code units, as in both languages.
-/

namespace CodexaCoin.Wallet

open Check Radix

/-! ## Texts -/

abbrev Text := List UInt16

def unit (c : Char) : UInt16 := UInt16.ofNat c.toNat

/-- The lower case of a letter. Only the letters of ASCII have one that occurs in a prefix or in an alphabet here. -/
def lowerUnit (u : UInt16) : UInt16 := if 65 ≤ u ∧ u ≤ 90 then u + 32 else u

def toLowerCase (s : Text) : Text := s.map lowerUnit

theorem toNat_lowerUnit (u : UInt16) :
    (lowerUnit u).toNat = if 65 ≤ u.toNat ∧ u.toNat ≤ 90 then u.toNat + 32 else u.toNat := by
  have hcond : (65 ≤ u ∧ u ≤ 90) ↔ (65 ≤ u.toNat ∧ u.toNat ≤ 90) := by
    rw [UInt16.le_iff_toNat_le, UInt16.le_iff_toNat_le]
    rfl
  unfold lowerUnit
  rw [if_congr hcond rfl rfl]
  split
  · rw [UInt16.toNat_add]
    exact Nat.mod_eq_of_lt (show u.toNat + 32 < 2 ^ 16 by omega)
  · rfl

/-- What `for (const c of s)` goes through: a pair of surrogates is one step. -/
def codePoints : Text → List Text
  | [] => []
  | [u] => [[u]]
  | u :: v :: s =>
    if 0xd800 ≤ u ∧ u < 0xdc00 ∧ 0xdc00 ≤ v ∧ v < 0xe000 then [u, v] :: codePoints s else [u] :: codePoints (v :: s)

/-- `alphabet.indexOf(c)` of a code point. -/
def indexOf (alphabet : Text) : Text → Int
  | [u] => if u ∈ alphabet then alphabet.idxOf u else -1
  | _ => -1

/-- Where `slice` begins or ends: negative positions count from the end. -/
def slicePos (length : Nat) (n : Int) : Nat := if n < 0 then (length + n).toNat else min n.toNat length

/-- `slice(start, stop)`. -/
def slice {α : Type} (l : List α) (start stop : Int) : List α :=
  (l.drop (slicePos l.length start)).take (slicePos l.length stop - slicePos l.length start)

/-- `lastIndexOf(u)`. -/
def lastIndexOf (s : Text) (u : UInt16) : Int := if u ∈ s then s.length - 1 - s.reverse.idxOf u else -1

section Alphabets

variable {alphabet : Text}

variable (alphabet) in
def char (d : Nat) : UInt16 := alphabet.getD d 0

theorem codePoints_eq_map {s : Text} (h : ∀ u ∈ s, u < 0xd800) : codePoints s = s.map ([·]) := by
  fun_induction codePoints s with
  | case1 => rfl
  | case2 u => rfl
  | case3 u v s hpair ih =>
    have hu := h u List.mem_cons_self
    exact absurd hpair.1 (by rw [UInt16.not_le]; exact hu)
  | case4 u v s hpair ih =>
    rw [ih fun x hx => h x (List.mem_cons_of_mem _ hx)]
    rfl

theorem char_idxOf {u : UInt16} (h : u ∈ alphabet) : char alphabet (alphabet.idxOf u) = u := by
  rw [char, List.getD_eq_getElem _ _ (List.idxOf_lt_length_iff.2 h)]
  exact List.getElem_idxOf _

theorem indexOf_char (hnodup : alphabet.Nodup) {d : Nat}
    (h : d < alphabet.length) : indexOf alphabet [char alphabet d] = d := by
  have hget : char alphabet d = alphabet[d] := List.getD_eq_getElem _ _ h
  rw [indexOf, hget, if_pos (List.getElem_mem h), hnodup.idxOf_getElem]

theorem eq_char_of_indexOf {c : Text} {d : Nat} (h : indexOf alphabet c = d) :
    d < alphabet.length ∧ c = [char alphabet d] := by
  unfold indexOf at h
  split at h
  · rename_i u
    split at h
    · rename_i hmem
      have hd : alphabet.idxOf u = d := by exact_mod_cast h
      have hlt := List.idxOf_lt_length_iff.2 hmem
      rw [hd] at hlt
      refine ⟨hlt, ?_⟩
      rw [char, List.getD_eq_getElem _ _ hlt]
      simp [← hd]
    · omega
  · omega

/-- **The numbers of a text and the text determine each other.** -/
theorem map_indexOf_eq_iff (hnodup : alphabet.Nodup) (hsmall : ∀ u ∈ alphabet, u < 0xd800) {s : Text} {l : List Nat} :
    (codePoints s).map (indexOf alphabet) = l.map Int.ofNat ↔ (∀ d ∈ l, d < alphabet.length) ∧
      s = l.map (char alphabet) := by
  constructor
  · intro h
    fun_induction codePoints s generalizing l with
    | case1 =>
      obtain rfl := List.map_eq_nil_iff.1 h.symm
      simp
    | case2 u =>
      obtain ⟨d, rfl, hd⟩ := List.map_eq_singleton_iff.1 h.symm
      obtain ⟨hlt, hu⟩ := eq_char_of_indexOf hd.symm
      simpa [hlt] using hu
    | case3 u v s hpair ih =>
      obtain ⟨d, l, rfl, hd, hl⟩ := List.map_eq_cons_iff.1 h.symm
      have := (eq_char_of_indexOf hd.symm).2
      simp at this
    | case4 u v s hpair ih =>
      obtain ⟨d, l, rfl, hd, hl⟩ := List.map_eq_cons_iff.1 h.symm
      obtain ⟨hlt, hu⟩ := eq_char_of_indexOf hd.symm
      obtain ⟨hall, hs⟩ := ih hl.symm
      refine ⟨List.forall_mem_cons.2 ⟨hlt, hall⟩, ?_⟩
      rw [List.map_cons, hs]
      simpa using hu
  · rintro ⟨hall, rfl⟩
    have hunits : ∀ u ∈ l.map (char alphabet), u < 0xd800 := by
      intro u hu
      obtain ⟨d, hd, rfl⟩ := List.mem_map.1 hu
      rw [char, List.getD_eq_getElem _ _ (hall d hd)]
      exact hsmall _ (List.getElem_mem _)
    rw [codePoints_eq_map hunits, List.map_map, List.map_map]
    exact List.map_congr_left fun d hd => indexOf_char hnodup (hall d hd)

end Alphabets

/-! ## Regrouping bits -/

structure Bits where
  acc : Nat := 0
  bits : Nat := 0
  ret : List Nat := []

/-- The inner loop of `convertBits`. -/
def emit (toBits : Nat) : (fuel : Nat) → Bits → Bits
  | 0, s => s
  | fuel + 1, s =>
    if toBits ≤ s.bits then
      emit toBits fuel { s with
        bits := s.bits - toBits
        ret := s.ret ++ [(s.acc >>> (s.bits - toBits)) &&& (2 ^ toBits - 1)] }
    else s

/-- A round of the outer loop. Shifts keep `w` bits: 32 in the web wallet, 64 in the mobile one. There `acc` may become
negative, which the masks hide. -/
def takeIn (w fromBits toBits : Nat) (s : Bits) (value : Int) : Except String Bits :=
  if value < 0 ∨ value.toNat >>> fromBits ≠ 0 then .error "Invalid data for bit conversion"
  else .ok (emit toBits (s.bits + fromBits)
    { s with acc := (s.acc <<< fromBits) % 2 ^ w ||| value.toNat, bits := s.bits + fromBits })

def convertBits (w : Nat) (data : List Int) (fromBits toBits : Nat) (pad : Bool) : Except String (List Nat) := do
  let s ← data.foldlM (takeIn w fromBits toBits) {}
  let last := (s.acc <<< (toBits - s.bits)) % 2 ^ w &&& (2 ^ toBits - 1)
  if pad then
    .ok (if 0 < s.bits then s.ret ++ [last] else s.ret)
  else if fromBits ≤ s.bits ∨ last ≠ 0 then .error "Invalid padding in bit conversion"
  else .ok s.ret

/-- What the loop has done with the values so far: the groups and the pending bits denote the same number. -/
structure Bits.Holds (fromBits toBits : Nat) (data : List Nat) (s : Bits) : Prop where
  bits_lt : s.bits < toBits
  ret_lt : ∀ d ∈ s.ret, d < 2 ^ toBits
  length_eq : s.ret.length * toBits + s.bits = data.length * fromBits
  value_eq : value (2 ^ toBits) s.ret * 2 ^ s.bits + s.acc % 2 ^ s.bits = value (2 ^ fromBits) data

section Convert

variable {w fromBits toBits : Nat}

theorem emit_holds (hto : 0 < toBits) {data : List Nat} {fuel : Nat} {s : Bits} (hfuel : s.bits ≤ fuel)
    (hret : ∀ d ∈ s.ret, d < 2 ^ toBits) (hlen : s.ret.length * toBits + s.bits = data.length * fromBits)
    (hvalue : value (2 ^ toBits) s.ret * 2 ^ s.bits + s.acc % 2 ^ s.bits = value (2 ^ fromBits) data) :
    (emit toBits fuel s).Holds fromBits toBits data := by
  induction fuel generalizing s with
  | zero => exact ⟨by simp only [emit]; omega, hret, hlen, hvalue⟩
  | succ fuel ih =>
    rw [emit]
    split
    · rename_i hle
      obtain ⟨b, hb⟩ : ∃ b, s.bits = b + toBits := ⟨s.bits - toBits, by omega⟩
      have hgroup : (s.acc >>> b) &&& (2 ^ toBits - 1) = s.acc / 2 ^ b % 2 ^ toBits := by
        rw [Nat.and_two_pow_sub_one_eq_mod, Nat.shiftRight_eq_div_pow]
      rw [hb] at hlen hvalue hfuel
      rw [hb, Nat.add_sub_cancel, hgroup]
      refine ih (by show b ≤ fuel; omega) ?_ ?_ ?_
      · intro d hd
        rcases List.mem_append.1 hd with hd | hd
        · exact hret d hd
        · rw [List.mem_singleton.1 hd]
          exact Nat.mod_lt _ (Nat.two_pow_pos _)
      · rw [List.length_append, List.length_singleton, Nat.add_mul, Nat.one_mul]
        show _ + b = _
        omega
      · show value _ (s.ret ++ _) * 2 ^ b + s.acc % 2 ^ b = _
        rw [← hvalue, value_append, Nat.pow_add, Nat.mod_mul]
        simp only [List.length_singleton, Nat.pow_one, value_cons, List.length_nil, Nat.pow_zero, Nat.mul_one, value_nil,
          Nat.add_zero]
        ring
    · exact ⟨by omega, hret, hlen, hvalue⟩

theorem acc_mod {acc bits v : Nat} (hw : bits + fromBits ≤ w) (hv : v < 2 ^ fromBits) :
    ((acc <<< fromBits) % 2 ^ w ||| v) % 2 ^ (bits + fromBits) = acc % 2 ^ bits * 2 ^ fromBits + v := by
  have hshift : (acc <<< fromBits) % 2 ^ w = (acc % 2 ^ (w - fromBits)) <<< fromBits := by
    rw [Nat.shiftLeft_eq, Nat.shiftLeft_eq, ← Nat.mul_mod_mul_right, ← Nat.pow_add, Nat.sub_add_cancel (by omega)]
  have hsplit : (acc % 2 ^ (w - fromBits) * 2 ^ fromBits + v) / 2 ^ fromBits = acc % 2 ^ (w - fromBits) := by
    rw [Nat.mul_comm, Nat.mul_add_div (Nat.two_pow_pos _), Nat.div_eq_of_lt hv, Nat.add_zero]
  have hlow : (acc % 2 ^ (w - fromBits) * 2 ^ fromBits + v) % 2 ^ fromBits = v := by
    rw [Nat.mul_comm, Nat.mul_add_mod, Nat.mod_eq_of_lt hv]
  have hmod : acc % 2 ^ (w - fromBits) % 2 ^ bits = acc % 2 ^ bits :=
    Nat.mod_mod_of_dvd _ (Nat.pow_dvd_pow 2 (by omega))
  rw [hshift, ← Nat.shiftLeft_add_eq_or_of_lt hv, Nat.shiftLeft_eq, Nat.add_comm bits, Nat.pow_add, Nat.mod_mul, hlow,
    hsplit, hmod]
  ring

/-- A value that a group can hold. -/
def InRange (fromBits : Nat) (v : Int) : Prop := 0 ≤ v ∧ v.toNat < 2 ^ fromBits

theorem takeIn_of_inRange {s : Bits} {v : Int} (h : InRange fromBits v) :
    takeIn w fromBits toBits s v = .ok (emit toBits (s.bits + fromBits)
      { s with acc := (s.acc <<< fromBits) % 2 ^ w ||| v.toNat, bits := s.bits + fromBits }) := by
  rw [takeIn, if_neg]
  rw [Nat.shiftRight_eq_div_pow, Nat.div_eq_of_lt h.2]
  exact fun hor => hor.elim (fun hneg => by have := h.1; omega) fun hne => hne rfl

theorem inRange_of_takeIn {s s' : Bits} {v : Int} (h : takeIn w fromBits toBits s v = .ok s') : InRange fromBits v := by
  unfold takeIn at h
  split at h
  · cases h
  · rename_i hno
    rw [not_or, not_not, Nat.shiftRight_eq_div_pow, Nat.div_eq_zero_iff] at hno
    have hpos := Nat.two_pow_pos fromBits
    exact ⟨by omega, by omega⟩

theorem takeIn_holds (hto : 0 < toBits) (hw : toBits + fromBits ≤ w) {data : List Nat} {s s' : Bits} {v : Int}
    (hs : s.Holds fromBits toBits data) (h : takeIn w fromBits toBits s v = .ok s') :
    s'.Holds fromBits toBits (data ++ [v.toNat]) := by
  have hv := inRange_of_takeIn h
  have hbits := hs.bits_lt
  rw [takeIn_of_inRange hv] at h
  cases h
  refine emit_holds hto (Nat.le_refl _) hs.ret_lt ?_ ?_
  · show s.ret.length * toBits + (s.bits + fromBits) = _
    rw [← Nat.add_assoc, hs.length_eq, List.length_append, List.length_singleton, Nat.add_mul, Nat.one_mul]
  · show value _ s.ret * 2 ^ (s.bits + fromBits) + _ = _
    rw [acc_mod (by omega) hv.2, value_append, ← hs.value_eq, Nat.pow_add]
    simp only [List.length_singleton, Nat.pow_one, value_cons, List.length_nil, Nat.pow_zero, Nat.mul_one, value_nil,
      Nat.add_zero]
    ring

/-- **The whole loop.** -/
theorem foldlM_takeIn_holds (hto : 0 < toBits) (hw : toBits + fromBits ≤ w) {data : List Int} {s : Bits}
    (h : data.foldlM (takeIn w fromBits toBits) {} = .ok s) :
    (∀ v ∈ data, InRange fromBits v) ∧ s.Holds fromBits toBits (data.map Int.toNat) := by
  refine foldlM_induction (fun done s => (∀ v ∈ done, InRange fromBits v) ∧
    s.Holds fromBits toBits (done.map Int.toNat)) h
    ⟨by simp, ⟨hto, by simp, by simp, by simp [Nat.mod_one]⟩⟩ ?_
  rintro done s v s' ⟨hrange, hs⟩ hstep
  refine ⟨fun u hu => ?_, ?_⟩
  · rcases List.mem_append.1 hu with hu | hu
    · exact hrange u hu
    · rw [List.mem_singleton.1 hu]
      exact inRange_of_takeIn hstep
  · rw [List.map_append]
    exact takeIn_holds hto hw hs hstep

theorem foldlM_takeIn_ok {data : List Int} (h : ∀ v ∈ data, InRange fromBits v) (s : Bits) :
    ∃ s', data.foldlM (takeIn w fromBits toBits) s = .ok s' := by
  induction data generalizing s with
  | nil => exact ⟨s, rfl⟩
  | cons v data ih =>
    rw [List.foldlM_cons, takeIn_of_inRange (h v List.mem_cons_self), ok_bind]
    exact ih (fun u hu => h u (List.mem_cons_of_mem _ hu)) _

/-- Twenty bytes and the thirty-two groups of five bits that hold the same number. -/
structure Regrouped (bytes groups : List Nat) : Prop where
  length_bytes : bytes.length = 20
  bytes_lt : ∀ d ∈ bytes, d < 2 ^ 8
  length_groups : groups.length = 32
  groups_lt : ∀ d ∈ groups, d < 2 ^ 5
  value_eq : value (2 ^ 8) bytes = value (2 ^ 5) groups

theorem Regrouped.groups_unique {bytes groups groups' : List Nat} (h : Regrouped bytes groups)
    (h' : Regrouped bytes groups') : groups = groups' :=
  eq_of_value_eq (by decide) (h.length_groups.trans h'.length_groups.symm) h.groups_lt h'.groups_lt
    (h.value_eq.symm.trans h'.value_eq)

theorem map_toNat_ofNat (l : List Nat) : (l.map Int.ofNat).map Int.toNat = l := by
  rw [List.map_map]
  exact List.map_id _

theorem inRange_ofNat {l : List Nat} {k : Nat} (h : ∀ d ∈ l, d < 2 ^ k) : ∀ v ∈ l.map Int.ofNat, InRange k v := by
  intro v hv
  obtain ⟨d, hd, rfl⟩ := List.mem_map.1 hv
  exact ⟨Int.natCast_nonneg d, h d hd⟩

/-- **Bytes to groups.** -/
theorem convertBits_groups (hw : 16 ≤ w) {bytes : List Nat} (hlen : bytes.length = 20) (hb : ∀ d ∈ bytes, d < 2 ^ 8) :
    ∃ groups, convertBits w (bytes.map Int.ofNat) 8 5 true = .ok groups ∧ Regrouped bytes groups := by
  obtain ⟨s, hs⟩ : ∃ s, (bytes.map Int.ofNat).foldlM (takeIn w 8 5) {} = .ok s := foldlM_takeIn_ok (inRange_ofNat hb) {}
  have hholds := (foldlM_takeIn_holds (by decide) (by omega) hs).2
  rw [map_toNat_ofNat] at hholds
  have hbits := hholds.bits_lt
  have hlength := hholds.length_eq
  have hzero : s.bits = 0 := by omega
  refine ⟨s.ret, ?_, hlen, hb, by omega, hholds.ret_lt, ?_⟩
  · rw [convertBits, hs, ok_bind, if_pos rfl, if_neg (by omega)]
  · have := hholds.value_eq
    rw [hzero] at this
    simpa [Nat.mod_one] using this.symm

/-- **Groups to bytes**: only thirty-two groups give twenty bytes without an error. -/
theorem convertBits_bytes (hw : 16 ≤ w) {data : List Int} {bytes : List Nat} :
    (convertBits w data 5 8 false = .ok bytes ∧ bytes.length = 20) ↔
      ∃ groups, data = groups.map Int.ofNat ∧ Regrouped bytes groups := by
  constructor
  · rintro ⟨h, hlen⟩
    rw [convertBits] at h
    obtain ⟨s, hs, h⟩ := bind_eq_ok.1 h
    obtain ⟨hrange, hholds⟩ := foldlM_takeIn_holds (by decide) (by omega) hs
    rw [if_neg (by simp)] at h
    split at h
    · cases h
    · cases h
      rename_i hpad
      rw [not_or] at hpad
      have hlength := hholds.length_eq
      rw [List.length_map] at hlength
      have hzero : s.bits = 0 := by omega
      refine ⟨data.map Int.toNat, ?_, hlen, hholds.ret_lt, by rw [List.length_map]; omega, ?_, ?_⟩
      · rw [List.map_map]
        refine ((List.map_congr_left fun v hv => ?_).trans (List.map_id _)).symm
        exact Int.toNat_of_nonneg (hrange v hv).1
      · intro d hd
        obtain ⟨v, hv, rfl⟩ := List.mem_map.1 hd
        exact (hrange v hv).2
      · have := hholds.value_eq
        rw [hzero] at this
        simpa [Nat.mod_one] using this
  · rintro ⟨groups, rfl, hr⟩
    obtain ⟨s, hs⟩ : ∃ s, (groups.map Int.ofNat).foldlM (takeIn w 5 8) {} = .ok s :=
      foldlM_takeIn_ok (inRange_ofNat hr.groups_lt) {}
    have hholds := (foldlM_takeIn_holds (by decide) (by omega) hs).2
    rw [map_toNat_ofNat] at hholds
    have hbits := hholds.bits_lt
    have hlength := hholds.length_eq
    have hgroups := hr.length_groups
    have hzero : s.bits = 0 := by omega
    have hvalue := hholds.value_eq
    rw [hzero] at hvalue
    have hret : s.ret = bytes :=
      eq_of_value_eq (b := 2 ^ 8) (by decide) (by rw [hr.length_bytes]; omega) hholds.ret_lt hr.bytes_lt
        (by rw [hr.value_eq]; simpa [Nat.mod_one] using hvalue)
    have hlast : (s.acc <<< (8 - s.bits)) % 2 ^ w &&& (2 ^ 8 - 1) = 0 := by
      rw [Nat.and_two_pow_sub_one_eq_mod, Nat.mod_mod_of_dvd _ (Nat.pow_dvd_pow 2 (by omega)), hzero, Nat.shiftLeft_eq,
        Nat.sub_zero, Nat.mul_mod_left]
    refine ⟨?_, hr.length_bytes⟩
    rw [convertBits, hs, ok_bind, if_neg (by simp), if_neg (by rw [hlast, hzero]; decide), hret]

end Convert

/-! ## The checksum -/

def bech32Charset : Text :=
  ['q', 'p', 'z', 'r', 'y', '9', 'x', '8', 'g', 'f', '2', 't', 'v', 'd', 'w', '0',
   's', '3', 'j', 'n', '5', '4', 'k', 'h', 'c', 'e', '6', 'm', 'u', 'a', '7', 'l'].map unit

/-- `GEN`. -/
def bech32Generators : List Nat := [0x3b6a57b2, 0x26508e6d, 0x1ea119fa, 0x3d4233dd, 0x2a1462b3]

/-- A round of `bech32Polymod`. -/
def polymodStep (chk v : Nat) : Nat :=
  let top := chk >>> 25
  bech32Generators.zipIdx.foldl (fun chk g => if (top >>> g.2) &&& 1 = 1 then chk ^^^ g.1 else chk)
    (((chk &&& 0x1ffffff) <<< 5) ^^^ v)

def bech32Polymod (values : List Nat) : Nat := values.foldl polymodStep 1

def bech32HrpExpand (hrp : Text) : List Nat :=
  (hrp.map fun c => c.toNat >>> 5) ++ [0] ++ (hrp.map fun c => c.toNat &&& 31)

def bech32CreateChecksum (hrp : Text) (data : List Nat) : List Nat :=
  let mod := bech32Polymod (bech32HrpExpand hrp ++ data ++ [0, 0, 0, 0, 0, 0]) ^^^ 1
  (List.range 6).map fun p => (mod >>> (5 * (5 - p))) &&& 31

def bech32Encode (hrp : Text) (data : List Nat) : Text :=
  hrp ++ unit '1' :: (data ++ bech32CreateChecksum hrp data).map (char bech32Charset)

section Checksum

theorem polymodStep_eq (chk v : Nat) : polymodStep chk v = ShiftRegister.step bech32Generators 25 5 chk v := by
  have hbit : ∀ top i : Nat, ((top >>> i) &&& 1 = 1) = (top.testBit i = true) := by
    intro top i
    rw [Nat.and_one_is_mod, Nat.shiftRight_eq_div_pow, Nat.testBit_eq_decide_div_mod_eq, decide_eq_true_eq]
  have hmask : chk &&& 0x1ffffff = chk % 2 ^ 25 := Nat.and_two_pow_sub_one_eq_mod chk 25
  simp only [polymodStep, hbit, hmask]
  exact ShiftRegister.foldl_eq_xor_taps _ _

theorem bech32Polymod_eq (values : List Nat) : bech32Polymod values = ShiftRegister.run bech32Generators 25 5 1 values :=
  congrArg (fun f => values.foldl f 1) (funext fun chk => funext fun v => polymodStep_eq chk v)

theorem value_bech32CreateChecksum {hrp : Text} {data : List Nat}
    (h : ∀ v ∈ bech32HrpExpand hrp ++ data, v < 2 ^ 30) :
    value (2 ^ 5) (bech32CreateChecksum hrp data) =
      bech32Polymod (bech32HrpExpand hrp ++ data ++ [0, 0, 0, 0, 0, 0]) ^^^ 1 := by
  have hlt : bech32Polymod (bech32HrpExpand hrp ++ data ++ [0, 0, 0, 0, 0, 0]) ^^^ 1 < 2 ^ 30 := by
    refine Nat.xor_lt_two_pow ?_ (by decide)
    rw [bech32Polymod_eq]
    refine ShiftRegister.run_lt (by decide) (fun v hv => ?_) (by decide)
    rcases List.mem_append.1 hv with hv | hv
    · exact h v hv
    · rw [show v = 0 by simpa using hv]
      decide
  unfold bech32CreateChecksum
  generalize bech32Polymod (bech32HrpExpand hrp ++ data ++ [0, 0, 0, 0, 0, 0]) ^^^ 1 = mod at hlt ⊢
  have hdigit : ∀ i, (mod >>> i) &&& 31 = mod / 2 ^ i % 32 := fun i => by
    rw [Nat.shiftRight_eq_div_pow]
    exact Nat.and_two_pow_sub_one_eq_mod _ 5
  simp only [hdigit]
  show (((((0 * 32 + mod / 2 ^ 25 % 32) * 32 + mod / 2 ^ 20 % 32) * 32 + mod / 2 ^ 15 % 32) * 32 +
    mod / 2 ^ 10 % 32) * 32 + mod / 2 ^ 5 % 32) * 32 + mod / 2 ^ 0 % 32 = mod
  omega

theorem length_bech32CreateChecksum (hrp : Text) (data : List Nat) : (bech32CreateChecksum hrp data).length = 6 := by
  simp [bech32CreateChecksum]

theorem bech32CreateChecksum_lt {hrp : Text} {data : List Nat} : ∀ v ∈ bech32CreateChecksum hrp data, v < 2 ^ 5 := by
  intro v hv
  obtain ⟨p, -, rfl⟩ := List.mem_map.1 hv
  exact Nat.lt_of_le_of_lt Nat.and_le_right (by decide)

/-- **The checksum is the only one that the register accepts.** -/
theorem polymod_eq_one_iff {hrp : Text} {data checksum : List Nat} (h : ∀ v ∈ bech32HrpExpand hrp ++ data, v < 2 ^ 30)
    (hlen : checksum.length = 6) (hlt : ∀ v ∈ checksum, v < 2 ^ 5) :
    bech32Polymod (bech32HrpExpand hrp ++ data ++ checksum) = 1 ↔ checksum = bech32CreateChecksum hrp data := by
  have happend : ∀ tail : List Nat, bech32Polymod (bech32HrpExpand hrp ++ data ++ tail) =
      ShiftRegister.run bech32Generators 25 5 (bech32Polymod (bech32HrpExpand hrp ++ data)) tail := by
    intro tail
    rw [bech32Polymod_eq, bech32Polymod_eq, ShiftRegister.run, List.foldl_append]
    rfl
  rw [happend, ShiftRegister.run_eq_iff (by decide) _ _ hlt (by rw [hlen]), hlen]
  have hvalue := value_bech32CreateChecksum h
  rw [happend] at hvalue
  rw [show List.replicate 6 0 = [0, 0, 0, 0, 0, 0] from rfl, ← hvalue]
  constructor
  · exact eq_of_value_eq (by decide) (hlen.trans (length_bech32CreateChecksum hrp data).symm) hlt bech32CreateChecksum_lt
  · rintro rfl
    rfl

end Checksum

/-! ## Decoding -/

/-- `bech32Decode` of the web wallet: the last six characters are cut off unread. -/
def bech32Decode (bech : Text) : Text × List Int :=
  let pos := lastIndexOf bech (unit '1')
  (slice bech 0 pos, (codePoints (slice bech (pos + 1) (-6))).map (indexOf bech32Charset))

def isLower (u : UInt16) : Bool := 97 ≤ u && u ≤ 122

def isUpper (u : UInt16) : Bool := 65 ≤ u && u ≤ 90

/-- Decoding as BIP173 has it, without its limit on the length: the mobile wallet passes the length of the address as the
limit. -/
def Bip173.decode (s : Text) : Option (Text × List Nat) :=
  if s.any (fun u => u < 33 || 126 < u) || s.any isLower && s.any isUpper then none
  else
    let bech := toLowerCase s
    let pos := lastIndexOf bech (unit '1')
    if pos < 1 ∨ bech.length < pos + 7 then none
    else
      let hrp := bech.take pos.toNat
      let rest := bech.drop (pos.toNat + 1)
      let data := rest.map (bech32Charset.idxOf ·)
      if rest.any (!bech32Charset.contains ·) || bech32Polymod (bech32HrpExpand hrp ++ data) != 1 then none
      else some (hrp, data.take (data.length - 6))

section Decoding

theorem bech32Charset_nodup : bech32Charset.Nodup := by decide

theorem forall_of_all {p : UInt16 → Prop} [DecidablePred p] {s : Text} (h : (s.all fun u => decide (p u)) = true) :
    ∀ u ∈ s, p u :=
  fun u hu => of_decide_eq_true (List.all_eq_true.1 h u hu)

theorem bech32Charset_small : ∀ u ∈ bech32Charset, u < 0xd800 := forall_of_all (by decide)

theorem exists_last {s : Text} {u : UInt16} (h : u ∈ s) : ∃ a b, s = a ++ u :: b ∧ u ∉ b := by
  obtain ⟨b, a, hs, hb⟩ := List.eq_append_cons_of_mem (List.mem_reverse.2 h)
  refine ⟨a.reverse, b.reverse, ?_, by simpa using hb⟩
  rw [← List.reverse_reverse s, hs]
  simp

theorem lastIndexOf_append {a b : Text} {u : UInt16} (hb : u ∉ b) : lastIndexOf (a ++ u :: b) u = a.length := by
  have hidx : (a ++ u :: b).reverse.idxOf u = b.length := by
    rw [List.reverse_append, List.reverse_cons, List.append_assoc, List.idxOf_append_of_notMem (by simpa using hb)]
    simp
  rw [lastIndexOf, if_pos (by simp), hidx, List.length_append, List.length_cons]
  omega

theorem bech32Decode_append {a b : Text} (hb : unit '1' ∉ b) :
    bech32Decode (a ++ unit '1' :: b) = (a, (codePoints (b.take (b.length - 6))).map (indexOf bech32Charset)) := by
  have hlen : (a ++ unit '1' :: b).length = a.length + 1 + b.length := by
    rw [List.length_append, List.length_cons]
    omega
  have hhrp : slice (a ++ unit '1' :: b) 0 a.length = a := by
    have hstop : slicePos (a ++ unit '1' :: b).length a.length = a.length := by
      rw [slicePos, if_neg (by omega), hlen]
      omega
    rw [slice, hstop]
    simp [slicePos]
  have hdata : slice (a ++ unit '1' :: b) (a.length + 1) (-6) = b.take (b.length - 6) := by
    have hstart : slicePos (a ++ unit '1' :: b).length (a.length + 1) = a.length + 1 := by
      rw [slicePos, if_neg (by omega), hlen]
      omega
    have hstop : slicePos (a ++ unit '1' :: b).length (-6) = a.length + 1 + b.length - 6 := by
      rw [slicePos, if_pos (by decide), hlen]
      omega
    have hdrop : (a ++ unit '1' :: b).drop (a.length + 1) = b := by
      rw [← List.drop_drop, List.drop_left]
      rfl
    rw [slice, hstart, hstop, hdrop]
    congr 1
    omega
  rw [bech32Decode]
  simp only [lastIndexOf_append hb, hhrp, hdata]

theorem one_notMem_chars {l : List Nat} (h : ∀ d ∈ l, d < 2 ^ 5) : unit '1' ∉ l.map (char bech32Charset) := by
  have hall : ∀ d < 2 ^ 5, char bech32Charset d ≠ unit '1' := by decide
  intro hmem
  obtain ⟨d, hd, heq⟩ := List.mem_map.1 hmem
  exact hall d (h d hd) heq

def upperUnit (u : UInt16) : UInt16 := if isLower u then u - 32 else u

def toUpperCase (s : Text) : Text := s.map upperUnit

theorem isLower_iff {u : UInt16} : isLower u = true ↔ 97 ≤ u.toNat ∧ u.toNat ≤ 122 := by
  rw [isLower, Bool.and_eq_true, decide_eq_true_iff, decide_eq_true_iff, UInt16.le_iff_toNat_le, UInt16.le_iff_toNat_le]
  rfl

theorem isUpper_iff {u : UInt16} : isUpper u = true ↔ 65 ≤ u.toNat ∧ u.toNat ≤ 90 := by
  rw [isUpper, Bool.and_eq_true, decide_eq_true_iff, decide_eq_true_iff, UInt16.le_iff_toNat_le, UInt16.le_iff_toNat_le]
  rfl

theorem toNat_upperUnit (u : UInt16) :
    (upperUnit u).toNat = if 97 ≤ u.toNat ∧ u.toNat ≤ 122 then u.toNat - 32 else u.toNat := by
  unfold upperUnit
  rw [if_congr isLower_iff rfl rfl]
  split
  · rw [UInt16.toNat_sub_of_le]
    · rfl
    · rw [UInt16.le_iff_toNat_le]
      show 32 ≤ u.toNat
      omega
  · rfl

theorem lowerUnit_of_not_upper {u : UInt16} (h : isUpper u = false) : lowerUnit u = u := by
  rw [Bool.eq_false_iff, ne_eq, isUpper_iff] at h
  rw [← UInt16.toNat_inj, toNat_lowerUnit, if_neg h]

theorem lowerUnit_upperUnit {u : UInt16} (h : isUpper u = false) : lowerUnit (upperUnit u) = u := by
  rw [Bool.eq_false_iff, ne_eq, isUpper_iff] at h
  rw [← UInt16.toNat_inj, toNat_lowerUnit, toNat_upperUnit]
  split_ifs <;> omega

theorem upperUnit_lowerUnit {u : UInt16} (h : isLower u = false) : upperUnit (lowerUnit u) = u := by
  rw [Bool.eq_false_iff, ne_eq, isLower_iff] at h
  rw [← UInt16.toNat_inj, toNat_upperUnit, toNat_lowerUnit]
  split_ifs <;> omega

theorem isLower_upperUnit (u : UInt16) : isLower (upperUnit u) = false := by
  rw [Bool.eq_false_iff, ne_eq, isLower_iff, toNat_upperUnit]
  split <;> omega

def Bip173.Plain (s : Text) : Prop := (∀ u ∈ s, 33 ≤ u ∧ u ≤ 126) ∧
    ((∀ u ∈ s, isLower u = false) ∨ ∀ u ∈ s, isUpper u = false)

theorem Bip173.plain_iff (s : Text) :
    (s.any (fun u => u < 33 || 126 < u) || s.any isLower && s.any isUpper) = false ↔ Plain s := by
  simp only [Bool.or_eq_false_iff, Bool.and_eq_false_iff, List.any_eq_false, Plain, Bool.or_eq_true, decide_eq_true_eq,
    not_or, UInt16.not_lt, Bool.not_eq_true]

theorem hrpExpand_lt {hrp : Text} {data : List Nat} (h : ∀ d ∈ data, d < 2 ^ 5) :
    ∀ v ∈ bech32HrpExpand hrp ++ data, v < 2 ^ 30 := by
  intro v hv
  simp only [bech32HrpExpand, List.mem_append, List.mem_map, List.mem_singleton] at hv
  rcases hv with ((⟨c, -, rfl⟩ | rfl) | ⟨c, -, rfl⟩) | hv
  · have hc := c.toNat_lt
    rw [Nat.shiftRight_eq_div_pow]
    omega
  · decide
  · exact Nat.lt_of_le_of_lt Nat.and_le_right (by decide)
  · have := h v hv
    omega

theorem idxOf_char {d : Nat} (h : d < 2 ^ 5) :
    char bech32Charset d ∈ bech32Charset ∧ bech32Charset.idxOf (char bech32Charset d) = d := by
  have hd : d < bech32Charset.length := h
  have hget : char bech32Charset d = bech32Charset[d] := List.getD_eq_getElem _ _ hd
  rw [hget]
  exact ⟨List.getElem_mem hd, bech32Charset_nodup.idxOf_getElem d hd⟩

theorem Bip173.decode_of_append {s a b : Text} (hplain : Plain s) (hs : toLowerCase s = a ++ unit '1' :: b)
    (hb : unit '1' ∉ b) :
    decode s =
      if a = [] ∨ b.length < 6 then none
      else if b.any (!bech32Charset.contains ·) || bech32Polymod
        (bech32HrpExpand a ++ b.map (bech32Charset.idxOf ·)) != 1 then none
      else some (a, (b.map (bech32Charset.idxOf ·)).take (b.length - 6)) := by
  have hdrop : (a ++ unit '1' :: b).drop (a.length + 1) = b := by
    rw [← List.drop_drop, List.drop_left]
    rfl
  have hcond : ((a.length : Int) < 1 ∨ ((a ++ unit '1' :: b).length : Int) < a.length + 7) ↔ (a = [] ∨ b.length < 6) := by
    rw [← List.length_eq_zero_iff, List.length_append, List.length_cons]
    omega
  simp only [decode, (plain_iff s).2 hplain, Bool.false_eq_true, if_false, hs, lastIndexOf_append hb, hcond,
    Int.toNat_natCast, List.take_left, hdrop, List.length_map]

/-- **BIP173 accepts exactly the encodings**, in letters of either case. -/
theorem Bip173.decode_eq_some_iff {s hrp : Text} {data : List Nat} :
    decode s = some (hrp, data) ↔
      Plain s ∧ hrp ≠ [] ∧ (∀ d ∈ data, d < 2 ^ 5) ∧ toLowerCase s = bech32Encode hrp data := by
  constructor
  · intro h
    have hplain : Plain s := by
      refine (plain_iff s).1 (Bool.eq_false_iff.2 fun hbad => ?_)
      simp [decode, hbad] at h
    have hone : unit '1' ∈ toLowerCase s := by
      by_contra hno
      have hpos : lastIndexOf (toLowerCase s) (unit '1') = -1 := if_neg hno
      simp [decode, (plain_iff s).2 hplain, hpos] at h
    obtain ⟨a, b, hs, hb⟩ := exists_last hone
    rw [decode_of_append hplain hs hb] at h
    split at h
    · cases h
    · rename_i hlen
      split at h
      · cases h
      · rename_i hvalid
        cases h
        rw [not_or] at hlen
        rw [Bool.or_eq_true, not_or, bne_iff_ne, not_not] at hvalid
        have hmem : ∀ u ∈ b, u ∈ bech32Charset := by
          intro u hu
          by_contra hno
          exact hvalid.1 (List.any_eq_true.2 ⟨u, hu, by simpa using hno⟩)
        have hlt : ∀ d ∈ b.map (bech32Charset.idxOf ·), d < 2 ^ 5 := by
          intro d hd
          obtain ⟨u, hu, rfl⟩ := List.mem_map.1 hd
          exact List.idxOf_lt_length_iff.2 (hmem u hu)
        have hchars : (b.map (bech32Charset.idxOf ·)).map (char bech32Charset) = b := by
          rw [List.map_map]
          exact (List.map_congr_left fun u hu => char_idxOf (hmem u hu)).trans (List.map_id _)
        generalize hvals : b.map (bech32Charset.idxOf ·) = values at hvalid hlt hchars
        have hvalues : values.length = b.length := by rw [← hvals, List.length_map]
        have hsplit := List.take_append_drop (b.length - 6) values
        have hdata : ∀ d ∈ values.take (b.length - 6), d < 2 ^ 5 := fun d hd => hlt d (List.mem_of_mem_take hd)
        have hchecksum : values.drop (b.length - 6) = bech32CreateChecksum hrp (values.take (b.length - 6)) :=
          (polymod_eq_one_iff (hrpExpand_lt hdata) (by rw [List.length_drop, hvalues]; omega)
            fun d hd => hlt d (List.mem_of_mem_drop hd)).1 (by rw [List.append_assoc, hsplit]; exact hvalid.2)
        refine ⟨hplain, hlen.1, hdata, ?_⟩
        rw [bech32Encode, ← hchecksum, hsplit, hchars, hs]
  · rintro ⟨hplain, hne, hdata, hs⟩
    have hall : ∀ d ∈ data ++ bech32CreateChecksum hrp data, d < 2 ^ 5 := fun d hd =>
      (List.mem_append.1 hd).elim (hdata d) (bech32CreateChecksum_lt d)
    have hvals : ((data ++ bech32CreateChecksum hrp data).map (char bech32Charset)).map (bech32Charset.idxOf ·) =
        data ++ bech32CreateChecksum hrp data := by
      rw [List.map_map]
      exact (List.map_congr_left fun d hd => (idxOf_char (hall d hd)).2).trans (List.map_id _)
    have hpoly := (polymod_eq_one_iff (hrpExpand_lt hdata)
      (length_bech32CreateChecksum hrp data) bech32CreateChecksum_lt).2 rfl
    have hlen := length_bech32CreateChecksum hrp data
    have hmem : ((data ++ bech32CreateChecksum hrp data).map (char bech32Charset)).any (!bech32Charset.contains ·) =
        false := by
      refine List.any_eq_false.2 fun u hu => ?_
      obtain ⟨d, hd, rfl⟩ := List.mem_map.1 hu
      simpa using (idxOf_char (hall d hd)).1
    rw [decode_of_append hplain hs (one_notMem_chars hall), hvals, ← List.append_assoc, hpoly, hmem, List.length_map,
      List.length_append, hlen, if_neg (by simp [hne]), if_neg (by simp), Nat.add_sub_cancel, List.take_left]

end Decoding

end CodexaCoin.Wallet
