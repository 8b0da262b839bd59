import CodexaCoin.Wallet.Transaction
import CodexaCoin.Wallet.Bech32

/-!
# Addresses of the wallets

`p2pkhAddress`, `p2shAddress`, `p2wpkhAddress` and `decodeAddress` of `web-wallet/crypto.js` and
`cac_wallet/lib/crypto/address.dart`. The packages that the mobile wallet uses are given by what they implement, BIP173
and Base58Check.
-/

namespace CodexaCoin.Wallet

open Check Radix

/-! ## Networks and types -/

inductive Network where
  | mainnet
  | testnet
deriving DecidableEq, Repr

namespace Network

def p2pkhVersion : Network → UInt8
  | mainnet => 0x1c
  | testnet => 0x6f

def p2shVersion : Network → UInt8
  | mainnet => 0x3f
  | testnet => 0xc4

def name : Network → String
  | mainnet => "CodexaCoin Mainnet"
  | testnet => "CodexaCoin Testnet"

def bech32Hrp : Network → Text
  | mainnet => ['c', 'a', 'c'].map unit
  | testnet => ['t', 'c', 'a', 'c'].map unit

def bech32Prefix (network : Network) : Text := network.bech32Hrp ++ [unit '1']

end Network

inductive AddressType where
  | p2pkh
  | p2sh
  | p2wpkh
deriving DecidableEq, Repr

/-- What `decodeAddress` returns. -/
abbrev DecodedAddress := AddressType × List UInt8

abbrev Sha256 := List UInt8 → { digest : List UInt8 // digest.length = 32 }

/-- The first four bytes of `doubleSha256`. -/
def checksum (sha256 : Sha256) (payload : List UInt8) : List UInt8 := (sha256 (sha256 payload).1).1.take 4

/-! ## Base58Check -/

/-- `B58_ALPHABET`. -/
def base58Alphabet : Text :=
  ['1', '2', '3', '4', '5', '6', '7', '8', '9', 'A', 'B', 'C', 'D', 'E', 'F', 'G', 'H', 'J', 'K', 'L', 'M', 'N', 'P', 'Q',
   'R', 'S', 'T', 'U', 'V', 'W', 'X', 'Y', 'Z', 'a', 'b', 'c', 'd', 'e', 'f', 'g', 'h', 'i', 'j', 'k', 'm', 'n', 'o', 'p',
   'q', 'r', 's', 't', 'u', 'v', 'w', 'x', 'y', 'z'].map unit

def checked (sha256 : Sha256) (payload : List UInt8) : List UInt8 := payload ++ checksum sha256 payload

def base58checkEncode (sha256 : Sha256) (payload : List UInt8) : Text :=
  let full := (checked sha256 payload).map UInt8.toNat
  List.replicate (zeros full) (unit '1') ++ (numeral 58 (value 256 full)).map (char base58Alphabet)

/-- A round of the loop over the characters in `base58checkDecode`. -/
def takeBase58 (num : Nat) (ch : Text) : Except String Nat :=
  if indexOf base58Alphabet ch < 0 then .error "Invalid base58 character"
  else .ok (num * 58 + (indexOf base58Alphabet ch).toNat)

def base58checkDecode (sha256 : Sha256) (str : Text) : Except String (List UInt8) := do
  let num ← (codePoints str).foldlM takeBase58 0
  let bytes := (numeral 256 num).map UInt8.ofNat
  let full := List.replicate (str.takeWhile (· == unit '1')).length 0 ++ bytes
  let payload := slice full 0 (full.length - 4)
  let sum := slice full (full.length - 4) full.length
  if (checksum sha256 payload).zipIdx.all fun (b, i) => sum[i]? == some b then .ok payload
  else .error "Bad checksum"

def Base58Check.decode (sha256 : Sha256) (str : Text) : Option (List UInt8) :=
  if str.all (base58Alphabet.contains ·) then
    let full := (rebase 58 256 (str.map (base58Alphabet.idxOf ·))).map UInt8.ofNat
    let payload := full.take (full.length - 4)
    if full = checked sha256 payload then some payload else none
  else none

section Base58

variable {sha256 : Sha256}

theorem base58Alphabet_nodup : base58Alphabet.Nodup := by decide

theorem base58Alphabet_small : ∀ u ∈ base58Alphabet, u < 0xd800 := forall_of_all (by decide)

theorem length_base58Alphabet : base58Alphabet.length = 58 := rfl

theorem char_base58_zero : char base58Alphabet 0 = unit '1' := rfl

theorem length_checksum (payload : List UInt8) : (checksum sha256 payload).length = 4 := by
  rw [checksum, List.length_take, (sha256 _).2]
  rfl

theorem length_checked (payload : List UInt8) : (checked sha256 payload).length = payload.length + 4 := by
  rw [checked, List.length_append, length_checksum]

theorem base58checkEncode_eq (payload : List UInt8) :
    base58checkEncode sha256 payload =
      (rebase 256 58 ((checked sha256 payload).map UInt8.toNat)).map (char base58Alphabet) := by
  simp only [base58checkEncode, rebase, List.map_append, List.map_replicate, char_base58_zero]

theorem foldlM_takeBase58 {cs : List Text} {n m : Nat} :
    cs.foldlM takeBase58 n = .ok m ↔
      ∃ l : List Nat, cs.map (indexOf base58Alphabet) = l.map Int.ofNat ∧ l.foldl (fun n d => n * 58 + d) n = m := by
  induction cs generalizing n with
  | nil =>
    constructor
    · intro h
      cases h
      exact ⟨[], rfl, rfl⟩
    · rintro ⟨l, hl, rfl⟩
      obtain rfl := List.map_eq_nil_iff.1 hl.symm
      rfl
  | cons c cs ih =>
    rw [List.foldlM_cons, bind_eq_ok]
    constructor
    · rintro ⟨n', hc, hcs⟩
      obtain ⟨l, hl, hm⟩ := ih.1 hcs
      unfold takeBase58 at hc
      split at hc
      · cases hc
      · cases hc
        refine ⟨(indexOf base58Alphabet c).toNat :: l, ?_, hm⟩
        rw [List.map_cons, List.map_cons, hl]
        congr 1
        exact (Int.toNat_of_nonneg (by omega)).symm
    · rintro ⟨l, hl, hm⟩
      obtain ⟨d, l, rfl, hd, hl⟩ := List.map_eq_cons_iff.1 hl.symm
      refine ⟨n * 58 + d, ?_, ih.2 ⟨l, hl.symm, hm⟩⟩
      rw [takeBase58, ← hd, if_neg (by simp)]
      rfl

theorem foldlM_takeBase58_codePoints {str : Text} {m : Nat} :
    (codePoints str).foldlM takeBase58 0 = .ok m ↔
      ∃ l : List Nat, (∀ d ∈ l, d < 58) ∧ str = l.map (char base58Alphabet) ∧ value 58 l = m := by
  rw [foldlM_takeBase58]
  refine exists_congr fun l => ?_
  rw [map_indexOf_eq_iff base58Alphabet_nodup base58Alphabet_small, length_base58Alphabet, and_assoc]
  rfl

theorem takeWhile_chars {l : List Nat} (h : ∀ d ∈ l, d < 58) :
    ((l.map (char base58Alphabet)).takeWhile (· == unit '1')).length = zeros l := by
  have hone : ∀ d < 58, (char base58Alphabet d == unit '1') = (d == 0) := by decide
  unfold zeros
  induction l with
  | nil => rfl
  | cons d l ih =>
    rw [List.map_cons, List.takeWhile_cons, List.takeWhile_cons, hone d (h d List.mem_cons_self)]
    split
    · rw [List.length_cons, List.length_cons, ih fun x hx => h x (List.mem_cons_of_mem _ hx)]
    · rfl

theorem map_toNat_ofNat_bytes {l : List Nat} (h : ∀ d ∈ l, d < 256) : (l.map UInt8.ofNat).map UInt8.toNat = l := by
  rw [List.map_map]
  refine (List.map_congr_left fun d hd => ?_).trans (List.map_id _)
  exact UInt8.toNat_ofNat_of_lt' (h d hd)

theorem map_ofNat_toNat_bytes (l : List UInt8) : (l.map UInt8.toNat).map UInt8.ofNat = l := by
  rw [List.map_map]
  refine (List.map_congr_left fun b _ => ?_).trans (List.map_id _)
  exact UInt8.ofNat_toNat

theorem map_toNat_lt (l : List UInt8) : ∀ d ∈ l.map UInt8.toNat, d < 256 := by
  intro d hd
  obtain ⟨b, -, rfl⟩ := List.mem_map.1 hd
  exact b.toNat_lt

theorem base58_chars {l : List Nat} (h : ∀ d ∈ l, d < 58) :
    (l.map (char base58Alphabet)).map (base58Alphabet.idxOf ·) = l := by
  have hinj : ∀ d < 58, base58Alphabet.idxOf (char base58Alphabet d) = d := by decide
  rw [List.map_map]
  exact (List.map_congr_left fun d hd => hinj d (h d hd)).trans (List.map_id _)

theorem eq_base58checkEncode_iff {l : List Nat} (h : ∀ d ∈ l, d < 58) (payload : List UInt8) :
    l.map (char base58Alphabet) = base58checkEncode sha256 payload ↔
      (rebase 58 256 l).map UInt8.ofNat = checked sha256 payload := by
  rw [base58checkEncode_eq]
  constructor
  · intro heq
    have hl : l = rebase 256 58 ((checked sha256 payload).map UInt8.toNat) := by
      rw [← base58_chars h, heq, base58_chars fun d hd => lt_of_mem_rebase (by decide) hd]
    rw [hl, rebase_rebase (by decide) (map_toNat_lt _), map_ofNat_toNat_bytes]
  · intro heq
    rw [← heq, map_toNat_ofNat_bytes fun d hd => lt_of_mem_rebase (by decide) hd, rebase_rebase (by decide) h]

theorem all_zipIdx_iff {sum expected : List UInt8} (hlen : sum.length ≤ expected.length) :
    (expected.zipIdx.all fun (b, i) => sum[i]? == some b) = true ↔ sum = expected := by
  constructor
  · intro h
    refine List.ext_getElem? fun i => ?_
    by_cases hi : i < expected.length
    · have := List.all_eq_true.1 h (expected[i], i) (by simp [List.mem_zipIdx_iff_getElem?, hi])
      rw [List.getElem?_eq_getElem hi]
      simpa using this
    · rw [List.getElem?_eq_none (by omega), List.getElem?_eq_none (by omega)]
  · rintro rfl
    refine List.all_eq_true.2 fun p hp => ?_
    simpa using List.mem_zipIdx_iff_getElem?.1 hp

theorem slice_checked_iff {full payload : List UInt8} :
    (((checksum sha256 (slice full 0 (full.length - 4))).zipIdx.all fun (b, i) =>
        (slice full (full.length - 4) full.length)[i]? == some b) = true ∧ slice full 0 (full.length - 4) = payload) ↔
      full = checked sha256 payload := by
  have hlen : (checksum sha256 (slice full 0 (full.length - 4))).length = 4 := length_checksum _
  have hshort : (slice full (full.length - 4) full.length).length ≤ 4 := by
    rw [slice, slicePos, slicePos]
    simp only [List.length_take, List.length_drop]
    split <;> split <;> omega
  rw [all_zipIdx_iff (by omega)]
  by_cases hfull : 4 ≤ full.length
  · have hpos : slicePos full.length ((full.length : Int) - 4) = full.length - 4 := by
      rw [slicePos, if_neg (by omega)]
      omega
    have hstop : slicePos full.length (full.length : Int) = full.length := by
      rw [slicePos, if_neg (by omega)]
      omega
    have hpayload : slice full 0 ((full.length : Int) - 4) = full.take (full.length - 4) := by
      rw [slice, hpos]
      simp [slicePos]
    have hsum : slice full ((full.length : Int) - 4) full.length = full.drop (full.length - 4) := by
      rw [slice, hpos, hstop]
      exact List.take_of_length_le (by rw [List.length_drop])
    rw [hpayload, hsum, checked]
    constructor
    · rintro ⟨hsum, rfl⟩
      rw [← hsum, List.take_append_drop]
    · intro h
      have hn : full.length - 4 = payload.length := by
        rw [h, List.length_append, length_checksum, Nat.add_sub_cancel]
      rw [hn, h, List.take_left, List.drop_left]
      exact ⟨rfl, rfl⟩
  · constructor
    · rintro ⟨hsum, -⟩
      have := congrArg List.length hsum
      rw [hlen, slice, slicePos, slicePos, List.length_take, List.length_drop] at this
      omega
    · intro h
      have := congrArg List.length h
      rw [length_checked] at this
      omega

theorem accepts_iff (accepts : Text → Prop) {payload : List UInt8}
    (htext : ∀ str, accepts str → ∃ l : List Nat, (∀ d ∈ l, d < 58) ∧ str = l.map (char base58Alphabet))
    (hdigits : ∀ l : List Nat, (∀ d ∈ l, d < 58) →
      (accepts (l.map (char base58Alphabet)) ↔ (rebase 58 256 l).map UInt8.ofNat = checked sha256 payload)) (str : Text) :
    accepts str ↔ str = base58checkEncode sha256 payload := by
  constructor
  · intro h
    obtain ⟨l, hl, rfl⟩ := htext str h
    exact (eq_base58checkEncode_iff hl payload).2 ((hdigits l hl).1 h)
  · rintro rfl
    have hl : ∀ d ∈ rebase 256 58 ((checked sha256 payload).map UInt8.toNat), d < 58 :=
      fun d hd => lt_of_mem_rebase (by decide) hd
    have heq : base58checkEncode sha256 payload = _ := base58checkEncode_eq payload
    rw [heq, hdigits _ hl, ← eq_base58checkEncode_iff hl, heq]

/-- **The web wallet's `base58checkDecode` accepts exactly the encodings.** -/
theorem base58checkDecode_eq_ok_iff {str : Text} {payload : List UInt8} :
    base58checkDecode sha256 str = .ok payload ↔ str = base58checkEncode sha256 payload := by
  refine accepts_iff (fun str => base58checkDecode sha256 str = .ok payload) (fun str h => ?_) (fun l hl => ?_) str
  · obtain ⟨num, hnum, -⟩ := bind_eq_ok.1 h
    obtain ⟨l, hl, hstr, -⟩ := foldlM_takeBase58_codePoints.1 hnum
    exact ⟨l, hl, hstr⟩
  · have hnum := foldlM_takeBase58_codePoints.2 ⟨l, hl, rfl, rfl⟩
    have hfull : List.replicate (zeros l) 0 ++ (numeral 256 (value 58 l)).map UInt8.ofNat =
        (rebase 58 256 l).map UInt8.ofNat := by
      rw [rebase, List.map_append, List.map_replicate]
      rfl
    rw [base58checkDecode, hnum, ok_bind, takeWhile_chars hl]
    dsimp only
    rw [hfull, ← slice_checked_iff]
    split
    · rename_i hsum
      exact ⟨fun h => ⟨hsum, Except.ok.inj h⟩, fun h => congrArg Except.ok h.2⟩
    · rename_i hsum
      exact ⟨fun h => (by cases h), fun h => absurd h.1 hsum⟩

/-- **Base58Check accepts exactly the encodings.** -/
theorem Base58Check.decode_eq_some_iff {str : Text} {payload : List UInt8} :
    Base58Check.decode sha256 str = some payload ↔ str = base58checkEncode sha256 payload := by
  refine accepts_iff (fun str => Base58Check.decode sha256 str = some payload) (fun str h => ?_) (fun l hl => ?_) str
  · unfold Base58Check.decode at h
    split at h
    · rename_i hall
      have hmem : ∀ u ∈ str, u ∈ base58Alphabet := fun u hu => List.contains_iff_mem.1 (List.all_eq_true.1 hall u hu)
      refine ⟨str.map (base58Alphabet.idxOf ·), fun d hd => ?_, ?_⟩
      · obtain ⟨u, hu, rfl⟩ := List.mem_map.1 hd
        exact List.idxOf_lt_length_iff.2 (hmem u hu)
      · rw [List.map_map]
        exact ((List.map_congr_left fun u hu => char_idxOf (hmem u hu)).trans (List.map_id _)).symm
    · cases h
  · have hall : (l.map (char base58Alphabet)).all (base58Alphabet.contains ·) = true := by
      have hmem : ∀ d < 58, char base58Alphabet d ∈ base58Alphabet := by decide
      refine List.all_eq_true.2 fun u hu => ?_
      obtain ⟨d, hd, rfl⟩ := List.mem_map.1 hu
      exact List.contains_iff_mem.2 (hmem d (hl d hd))
    rw [Base58Check.decode, if_pos hall, base58_chars hl]
    generalize (rebase 58 256 l).map UInt8.ofNat = full
    dsimp only
    have hpayload : full = checked sha256 payload → full.take (full.length - 4) = payload := by
      rintro rfl
      rw [length_checked, Nat.add_sub_cancel, checked, List.take_left]
    split
    · rename_i hfull
      constructor
      · intro h
        cases h
        exact hfull
      · exact fun h => congrArg some (hpayload h)
    · rename_i hfull
      exact ⟨fun h => (nomatch h), fun h => absurd ((hpayload h).symm ▸ h) hfull⟩

end Base58

/-! ## Addresses -/

def p2pkhAddress (sha256 : Sha256) (pubkeyHash20 : Hash20) (network : Network) : Text :=
  base58checkEncode sha256 (network.p2pkhVersion :: pubkeyHash20.1)

def p2shAddress (sha256 : Sha256) (scriptHash20 : Hash20) (network : Network) : Text :=
  base58checkEncode sha256 (network.p2shVersion :: scriptHash20.1)

/-- The bytes of a hash as `convertBits` takes them. -/
def hashValues (hash : List UInt8) : List Int := (hash.map UInt8.toNat).map Int.ofNat

def p2wpkhAddress (w : Nat) (pubkeyHash20 : Hash20) (network : Network) : Except String Text := do
  let program ← convertBits w (hashValues pubkeyHash20.1) 8 5 true
  .ok (bech32Encode network.bech32Hrp (0 :: program))

/-- The end of both `decodeAddress` functions: the version byte tells the type. -/
def decodeVersion (network : Network) (mismatch : UInt8 → String) (decoded : List UInt8) : Except String DecodedAddress :=
  if decoded.length ≠ 21 then .error "Invalid Base58Check address length"
  else match decoded with
    | [] => .error "Invalid Base58Check address length"
    | version :: payload =>
      if version = network.p2pkhVersion then .ok (.p2pkh, payload)
      else if version = network.p2shVersion then .ok (.p2sh, payload)
      else .error (mismatch version)

def Web.decodeAddress (sha256 : Sha256) (address : Text) (network : Network) : Except String DecodedAddress := do
  if network.bech32Prefix.isPrefixOf (toLowerCase address) then
    let decoded := bech32Decode address
    if decoded.1 ≠ network.bech32Hrp then .error "Address is for a different network"
    else
      let program ← convertBits 32 (decoded.2.drop 1) 5 8 false
      if decoded.2.head? ≠ some 0 ∨ program.length ≠ 20 then .error "Unsupported witness version/program length"
      else .ok (.p2wpkh, program.map UInt8.ofNat)
  else
    let decoded ← base58checkDecode sha256 address
    decodeVersion network
      (fun version => "Address version byte " ++ toString version ++ " does not match this network") decoded

def Mobile.decodeAddress (sha256 : Sha256) (address : Text) (network : Network) : Except String DecodedAddress := do
  if network.bech32Prefix.isPrefixOf (toLowerCase address) then
    match Bip173.decode address with
    | none => .error "Bech32Codec"
    | some (hrp, data) =>
      if hrp ≠ network.bech32Hrp then .error "Address is for a different network"
      else match data with
        | [] => .error "RangeError"
        | witnessVersion :: rest =>
          let program ← convertBits 64 (rest.map Int.ofNat) 5 8 false
          if witnessVersion ≠ 0 ∨ program.length ≠ 20 then .error "Unsupported witness version/program length"
          else .ok (.p2wpkh, program.map UInt8.ofNat)
  else
    match Base58Check.decode sha256 address with
    | none => .error "bs58check"
    | some decoded =>
      decodeVersion network
        (fun version => "Address version byte " ++ toString version ++ " does not match " ++ network.name) decoded

/-! ## Addresses of witness programs -/

def groups (hash : Hash20) : List Nat := (convertBits 32 (hashValues hash.1) 8 5 true).toOption.getD []

def segwitAddress (network : Network) (hash : Hash20) : Text := bech32Encode network.bech32Hrp (0 :: groups hash)

def segwitBody (network : Network) (hash : Hash20) : Text :=
  network.bech32Prefix ++ (0 :: groups hash).map (char bech32Charset)

def segwitChecksum (network : Network) (hash : Hash20) : Text :=
  (bech32CreateChecksum network.bech32Hrp (0 :: groups hash)).map (char bech32Charset)

section Segwit

variable {sha256 : Sha256} {network : Network} {hash : Hash20} {s : Text} {w : Nat} {r : DecodedAddress}

theorem regrouped_groups (hash : Hash20) : Regrouped (hash.1.map UInt8.toNat) (groups hash) := by
  obtain ⟨g, hg, hr⟩ := convertBits_groups (w := 32) (by decide) ((List.length_map _).trans hash.2) (map_toNat_lt hash.1)
  rw [groups, hashValues, hg]
  exact hr

theorem convertBits_hash (hw : 16 ≤ w) (hash : Hash20) :
    convertBits w (hashValues hash.1) 8 5 true = .ok (groups hash) := by
  obtain ⟨g, hg, hr⟩ := convertBits_groups hw ((List.length_map _).trans hash.2) (map_toNat_lt hash.1)
  rw [hashValues, hg, hr.groups_unique (regrouped_groups hash)]

theorem p2wpkhAddress_eq (hw : 16 ≤ w) (hash : Hash20) (network : Network) :
    p2wpkhAddress w hash network = .ok (segwitAddress network hash) := by
  rw [p2wpkhAddress, convertBits_hash hw]
  rfl

theorem segwitAddress_eq (network : Network) (hash : Hash20) :
    segwitAddress network hash = segwitBody network hash ++ segwitChecksum network hash := by
  simp [segwitAddress, bech32Encode, segwitBody, segwitChecksum, Network.bech32Prefix]

theorem convertBits_program (hw : 16 ≤ w) {data : List Int} {program : List Nat} :
    (convertBits w data 5 8 false = .ok program ∧ program.length = 20) ↔
      ∃ hash : Hash20, data = (groups hash).map Int.ofNat ∧ program = hash.1.map UInt8.toNat := by
  rw [convertBits_bytes hw]
  constructor
  · rintro ⟨g, rfl, hr⟩
    refine ⟨⟨program.map UInt8.ofNat, (List.length_map _).trans hr.length_bytes⟩, ?_,
      (map_toNat_ofNat_bytes hr.bytes_lt).symm⟩
    have hh := regrouped_groups ⟨program.map UInt8.ofNat, (List.length_map _).trans hr.length_bytes⟩
    rw [show (program.map UInt8.ofNat).map UInt8.toNat = program from map_toNat_ofNat_bytes hr.bytes_lt] at hh
    exact congrArg (List.map Int.ofNat) (hr.groups_unique hh)
  · rintro ⟨hash, rfl, rfl⟩
    exact ⟨_, rfl, regrouped_groups hash⟩

theorem groups_lt (hash : Hash20) : ∀ d ∈ (0 :: groups hash), d < 2 ^ 5 := by
  intro d hd
  rcases List.mem_cons.1 hd with rfl | hd
  · decide
  · exact (regrouped_groups hash).groups_lt d hd

theorem length_segwitData (hash : Hash20) : ((0 :: groups hash).map (char bech32Charset)).length = 33 := by
  rw [List.length_map, List.length_cons, (regrouped_groups hash).length_groups]

theorem one_mem_of_isPrefixOf (h : network.bech32Prefix.isPrefixOf (toLowerCase s) = true) : unit '1' ∈ s := by
  have hone : ∀ u : UInt16, lowerUnit u = unit '1' → u = unit '1' := by
    intro u hu
    have hnat := toNat_lowerUnit u
    rw [hu, show (unit '1').toNat = 49 from rfl] at hnat
    refine UInt16.toNat_inj.1 ?_
    rw [show (unit '1').toNat = 49 from rfl]
    split at hnat <;> omega
  have hprefix := List.isPrefixOf_iff_prefix.1 h
  have hmem : unit '1' ∈ toLowerCase s := hprefix.subset (by simp [Network.bech32Prefix])
  obtain ⟨u, hu, heq⟩ := List.mem_map.1 hmem
  exact hone u heq ▸ hu

/-- **What the web wallet accepts among the texts that begin like a bech32 address**: bodies of addresses with any six
characters after them, only not a `1`. -/
theorem Web.decodeAddress_segwit_iff (h : network.bech32Prefix.isPrefixOf (toLowerCase s) = true) :
    Web.decodeAddress sha256 s network = .ok r ↔
      ∃ hash tail, s = segwitBody network hash ++ tail ∧ tail.length = 6 ∧ unit '1' ∉ tail ∧ r = (.p2wpkh, hash.1) := by
  rw [Web.decodeAddress, if_pos h]
  constructor
  · intro hr
    obtain ⟨a, b, rfl, hb⟩ := exists_last (one_mem_of_isPrefixOf h)
    rw [bech32Decode_append hb] at hr
    dsimp only at hr
    split at hr
    · cases hr
    · rename_i hhrp
      obtain rfl := not_not.1 hhrp
      obtain ⟨program, hprogram, hr⟩ := bind_eq_ok.1 hr
      split at hr
      · cases hr
      · rename_i hversion
        cases hr
        rw [not_or, not_not, not_not] at hversion
        obtain ⟨hash, hdata, rfl⟩ := (convertBits_program (by decide)).1 ⟨hprogram, hversion.2⟩
        have hcodes : (codePoints (b.take (b.length - 6))).map (indexOf bech32Charset) =
            (0 :: groups hash).map Int.ofNat := by
          rw [List.map_cons, ← hdata, List.drop_one]
          exact (List.cons_head?_tail (by rw [hversion.1]; rfl)).symm
        have hbody := ((map_indexOf_eq_iff bech32Charset_nodup bech32Charset_small).1 hcodes).2
        have hlen := congrArg List.length hbody
        rw [length_segwitData, List.length_take] at hlen
        refine ⟨hash, b.drop (b.length - 6), ?_,
          by rw [List.length_drop]; omega, fun hmem => hb (List.mem_of_mem_drop hmem), ?_⟩
        · rw [segwitBody, ← hbody, Network.bech32Prefix, List.append_assoc, List.append_assoc, List.take_append_drop]
          rfl
        · rw [map_ofNat_toNat_bytes]
  · rintro ⟨hash, tail, rfl, htail, hone, rfl⟩
    have hsplit : segwitBody network hash ++ tail =
        network.bech32Hrp ++ unit '1' :: ((0 :: groups hash).map (char bech32Charset) ++ tail) := by
      simp [segwitBody, Network.bech32Prefix]
    have hnone : unit '1' ∉ (0 :: groups hash).map (char bech32Charset) ++ tail := by
      rw [List.mem_append, not_or]
      exact ⟨one_notMem_chars (groups_lt hash), hone⟩
    have hcodes := (map_indexOf_eq_iff bech32Charset_nodup bech32Charset_small).2 ⟨groups_lt hash, rfl⟩
    have hprogram := ((convertBits_program (by decide)).2 ⟨hash, rfl, rfl⟩ : convertBits 32 _ 5 8 false = _ ∧ _)
    rw [hsplit, bech32Decode_append hnone, List.length_append, htail, Nat.add_sub_cancel, List.take_left, hcodes]
    simp only [ne_eq, not_true_eq_false, if_false, List.map_cons, List.drop_succ_cons, List.drop_zero, hprogram.1,
      ok_bind, List.head?_cons, hprogram.2, map_ofNat_toNat_bytes]
    rfl

/-- **What the mobile wallet accepts there**: addresses, in letters of either case. -/
theorem Mobile.decodeAddress_segwit_iff (h : network.bech32Prefix.isPrefixOf (toLowerCase s) = true)
    :
    Mobile.decodeAddress sha256 s network = .ok r ↔
      ∃ hash, Bip173.Plain s ∧ toLowerCase s = segwitAddress network hash ∧ r = (.p2wpkh, hash.1) := by
  rw [Mobile.decodeAddress, if_pos h]
  constructor
  · intro hr
    split at hr
    · cases hr
    · rename_i hrp data hdecode
      split at hr
      · cases hr
      · rename_i hhrp
        obtain rfl := not_not.1 hhrp
        obtain ⟨hplain, -, -, hs⟩ := Bip173.decode_eq_some_iff.1 hdecode
        cases data with
        | nil => cases hr
        | cons witnessVersion rest =>
          obtain ⟨program, hprogram, hr⟩ := bind_eq_ok.1 hr
          split at hr
          · cases hr
          · rename_i hversion
            cases hr
            rw [not_or, not_not, not_not] at hversion
            obtain ⟨hash, hrest, rfl⟩ := (convertBits_program (by decide)).1 ⟨hprogram, hversion.2⟩
            have hrest : rest = groups hash := List.map_injective_iff.2 (fun _ _ => Int.ofNat.inj) hrest
            refine ⟨hash, hplain, ?_, by rw [map_ofNat_toNat_bytes]⟩
            rw [hs, hversion.1, hrest]
            rfl
  · rintro ⟨hash, hplain, hs, rfl⟩
    have hne : network.bech32Hrp ≠ [] := by cases network <;> decide
    have hdecode := Bip173.decode_eq_some_iff.2 ⟨hplain, hne, groups_lt hash, hs⟩
    have hprogram := ((convertBits_program (by decide)).2 ⟨hash, rfl, rfl⟩ : convertBits 64 _ 5 8 false = _ ∧ _)
    simp only [hdecode, ne_eq, not_true_eq_false, if_false, hprogram.1, ok_bind, hprogram.2, map_ofNat_toNat_bytes]
    rfl

end Segwit

/-! ## Addresses of the other types -/

section Base58Addresses

variable {sha256 : Sha256} {network : Network} {s : Text} {mismatch : UInt8 → String} {r : DecodedAddress}
  {version : UInt8}

theorem decodeVersion_eq_ok_iff {decoded : List UInt8} :
    decodeVersion network mismatch decoded = .ok r ↔ ∃ hash : Hash20,
      (decoded = network.p2pkhVersion :: hash.1 ∧ r = (.p2pkh, hash.1)) ∨
      (decoded = network.p2shVersion :: hash.1 ∧ r = (.p2sh, hash.1)) := by
  unfold decodeVersion
  constructor
  · intro h
    split at h
    · cases h
    · rename_i hlen
      cases decoded with
      | nil => cases h
      | cons version payload =>
        have hpayload : payload.length = 20 := by simpa using hlen
        dsimp only at h
        split at h
        · rename_i hv
          cases h
          exact ⟨⟨payload, hpayload⟩, .inl ⟨by rw [hv], rfl⟩⟩
        · split at h
          · rename_i hv
            cases h
            exact ⟨⟨payload, hpayload⟩, .inr ⟨by rw [hv], rfl⟩⟩
          · cases h
  · have hne : network.p2shVersion ≠ network.p2pkhVersion := by cases network <;> decide
    rintro ⟨hash, ⟨rfl, rfl⟩ | ⟨rfl, rfl⟩⟩
    · rw [if_neg (by simp [hash.2])]
      exact if_pos rfl
    · rw [if_neg (by simp [hash.2])]
      exact (if_neg hne).trans (if_pos rfl)

theorem exists_decodeVersion_iff :
    (∃ decoded, s = base58checkEncode sha256 decoded ∧ decodeVersion network mismatch decoded = .ok r) ↔ ∃ hash : Hash20,
      (s = p2pkhAddress sha256 hash network ∧ r = (.p2pkh, hash.1)) ∨
      (s = p2shAddress sha256 hash network ∧ r = (.p2sh, hash.1)) := by
  constructor
  · rintro ⟨decoded, rfl, h⟩
    obtain ⟨hash, ⟨rfl, rfl⟩ | ⟨rfl, rfl⟩⟩ := decodeVersion_eq_ok_iff.1 h
    · exact ⟨hash, .inl ⟨rfl, rfl⟩⟩
    · exact ⟨hash, .inr ⟨rfl, rfl⟩⟩
  · rintro ⟨hash, ⟨rfl, rfl⟩ | ⟨rfl, rfl⟩⟩
    · exact ⟨_, rfl, decodeVersion_eq_ok_iff.2 ⟨hash, .inl ⟨rfl, rfl⟩⟩⟩
    · exact ⟨_, rfl, decodeVersion_eq_ok_iff.2 ⟨hash, .inr ⟨rfl, rfl⟩⟩⟩

/-- **The other texts**: only encodings of a version byte and twenty bytes are accepted. -/
theorem Web.decodeAddress_base58_iff (h : network.bech32Prefix.isPrefixOf (toLowerCase s) = false) :
    Web.decodeAddress sha256 s network = .ok r ↔ ∃ hash : Hash20,
      (s = p2pkhAddress sha256 hash network ∧ r = (.p2pkh, hash.1)) ∨
      (s = p2shAddress sha256 hash network ∧ r = (.p2sh, hash.1)) := by
  rw [Web.decodeAddress, if_neg (by simp [h]), bind_eq_ok, ← exists_decodeVersion_iff]
  exact exists_congr fun decoded => and_congr_left' base58checkDecode_eq_ok_iff

theorem Mobile.decodeAddress_base58_iff (h : network.bech32Prefix.isPrefixOf (toLowerCase s) = false)
    :
    Mobile.decodeAddress sha256 s network = .ok r ↔ ∃ hash : Hash20,
      (s = p2pkhAddress sha256 hash network ∧ r = (.p2pkh, hash.1)) ∨
      (s = p2shAddress sha256 hash network ∧ r = (.p2sh, hash.1)) := by
  rw [Mobile.decodeAddress, if_neg (by simp [h]), ← exists_decodeVersion_iff]
  constructor
  · intro hr
    split at hr
    · cases hr
    · rename_i decoded hdecoded
      exact ⟨decoded, Base58Check.decode_eq_some_iff.1 hdecoded, hr⟩
  · rintro ⟨decoded, hs, hr⟩
    rw [Base58Check.decode_eq_some_iff.2 hs]
    exact hr

theorem head_base58checkEncode (hash : Hash20) {k : Nat} (hv : version ≠ 0)
    (h0 : 58 ^ k ≤ version.toNat * 256 ^ 24) (h1 : (version.toNat + 1) * 256 ^ 24 ≤ 58 ^ (k + 1)) :
    ∃ d, version.toNat * 256 ^ 24 / 58 ^ k ≤ d ∧ d ≤ ((version.toNat + 1) * 256 ^ 24 - 1) / 58 ^ k ∧
      (base58checkEncode sha256 (version :: hash.1)).head? = some (char base58Alphabet d) := by
  have hfull : (checked sha256 (version :: hash.1)).map UInt8.toNat =
      version.toNat :: (hash.1 ++ checksum sha256 (version :: hash.1)).map UInt8.toNat := rfl
  have hlen : ((hash.1 ++ checksum sha256 (version :: hash.1)).map UInt8.toNat).length = 24 := by
    rw [List.length_map, List.length_append, hash.2, length_checksum]
  have hrest := value_lt (by decide) (map_toNat_lt (hash.1 ++ checksum sha256 (version :: hash.1)))
  have hzeros : zeros ((checked sha256 (version :: hash.1)).map UInt8.toNat) = 0 := by
    have hne : version.toNat ≠ 0 := fun h => hv (UInt8.toNat_inj.1 h)
    rw [hfull, zeros, List.takeWhile_cons_of_neg (by simpa using hne)]
    rfl
  rw [hlen] at hrest
  have hvalue := value_cons (b := 256) version.toNat ((hash.1 ++ checksum sha256 (version :: hash.1)).map UInt8.toNat)
  rw [hlen, ← hfull] at hvalue
  have hlow : version.toNat * 256 ^ 24 ≤ value 256 ((checked sha256 (version :: hash.1)).map UInt8.toNat) :=
    hvalue ▸ Nat.le_add_right _ _
  have hhigh : value 256 ((checked sha256 (version :: hash.1)).map UInt8.toNat) < (version.toNat + 1) * 256 ^ 24 := by
    rw [hvalue, Nat.add_mul, Nat.one_mul]
    exact Nat.add_lt_add_left hrest _
  have hnumeral := length_numeral (by decide) (h0.trans hlow) (hhigh.trans_le h1)
  have htake := take_numeral (b := 58) (by decide) 1 (hnumeral.trans (Nat.add_comm k 1))
  obtain ⟨d, l, hdl⟩ := List.exists_cons_of_length_eq_add_one hnumeral
  rw [hdl] at htake
  have hd : d = value 256 ((checked sha256 (version :: hash.1)).map UInt8.toNat) / 58 ^ k := by
    rw [← htake]
    simp [value]
  refine ⟨d, ?_, ?_, ?_⟩
  · exact hd ▸ Nat.div_le_div_right hlow
  · exact hd ▸ Nat.div_le_div_right (Nat.le_sub_one_of_lt hhigh)
  · rw [base58checkEncode, hzeros, hdl]
    rfl

theorem isPrefixOf_of_head {u : UInt16} (hs : s.head? = some u) (h : network.bech32Hrp.head? ≠ some (lowerUnit u)) :
    network.bech32Prefix.isPrefixOf (toLowerCase s) = false := by
  obtain ⟨l, rfl⟩ : ∃ l, s = u :: l := by
    cases s with
    | nil => cases hs
    | cons v l => cases hs; exact ⟨l, rfl⟩
  rw [Bool.eq_false_iff, ne_eq, List.isPrefixOf_iff_prefix]
  rintro ⟨t, ht⟩
  cases network <;> exact h (by rw [← List.cons.inj ht |>.1]; rfl)

theorem not_prefix_of_version (hash : Hash20) (k : Nat) (hv : version ≠ 0)
    (h0 : 58 ^ k ≤ version.toNat * 256 ^ 24) (h1 : (version.toNat + 1) * 256 ^ 24 ≤ 58 ^ (k + 1))
    (hd : ∀ d ≤ ((version.toNat + 1) * 256 ^ 24 - 1) / 58 ^ k, version.toNat * 256 ^ 24 / 58 ^ k ≤ d →
      network.bech32Hrp.head? ≠ some (lowerUnit (char base58Alphabet d))) :
    network.bech32Prefix.isPrefixOf (toLowerCase (base58checkEncode sha256 (version :: hash.1))) = false := by
  obtain ⟨d, hlo, hhi, hhead⟩ := head_base58checkEncode hash hv h0 h1
  exact isPrefixOf_of_head hhead (hd d hhi hlo)

theorem not_isPrefixOf_p2shAddress (hash : Hash20) (network : Network) :
    network.bech32Prefix.isPrefixOf (toLowerCase (p2shAddress sha256 hash network)) = false := by
  cases network with
  | mainnet => exact not_prefix_of_version hash 33 (by decide) (by decide) (by decide) (by decide)
  | testnet => exact not_prefix_of_version hash 34 (by decide) (by decide) (by decide) (by decide)

theorem not_isPrefixOf_p2pkhAddress_testnet (hash : Hash20) :
    Network.testnet.bech32Prefix.isPrefixOf (toLowerCase (p2pkhAddress sha256 hash .testnet)) = false :=
  not_prefix_of_version hash 33 (by decide) (by decide) (by decide) (by decide)

end Base58Addresses

/-! ## Letters of bech32 addresses -/

section Letters

variable {network : Network} {hash : Hash20} {s : Text}

theorem segwitAddress_letters (network : Network) (hash : Hash20) :
    ∀ u ∈ segwitAddress network hash, (33 ≤ u ∧ u ≤ 126) ∧ isUpper u = false := by
  have hhrp : ∀ u ∈ network.bech32Hrp, (33 ≤ u ∧ u ≤ 126) ∧ isUpper u = false :=
    forall_of_all (by cases network <;> decide)
  have hchar : ∀ d < 2 ^ 5, (33 ≤ char bech32Charset d ∧ char bech32Charset d ≤ 126) ∧
      isUpper (char bech32Charset d) = false := by decide
  intro u hu
  rcases List.mem_append.1 hu with hu | hu
  · exact hhrp u hu
  · rcases List.mem_cons.1 hu with rfl | hu
    · decide
    · obtain ⟨d, hd, rfl⟩ := List.mem_map.1 hu
      exact hchar d ((List.mem_append.1 hd).elim (groups_lt hash d) (bech32CreateChecksum_lt d))

theorem toLowerCase_eq_self (h : ∀ u ∈ s, isUpper u = false) : toLowerCase s = s :=
  (List.map_congr_left fun u hu => lowerUnit_of_not_upper (h u hu)).trans (List.map_id _)

theorem toLowerCase_segwitAddress (network : Network) (hash : Hash20) :
    toLowerCase (segwitAddress network hash) = segwitAddress network hash :=
  toLowerCase_eq_self fun u hu => (segwitAddress_letters network hash u hu).2

theorem plain_segwitAddress (network : Network) (hash : Hash20) : Bip173.Plain (segwitAddress network hash) :=
  ⟨fun u hu => (segwitAddress_letters network hash u hu).1, .inr fun u hu => (segwitAddress_letters network hash u hu).2⟩

theorem toLowerCase_toUpperCase_segwitAddress (network : Network) (hash : Hash20) :
    toLowerCase (toUpperCase (segwitAddress network hash)) = segwitAddress network hash := by
  rw [toLowerCase, toUpperCase, List.map_map]
  exact (List.map_congr_left fun u hu => lowerUnit_upperUnit (segwitAddress_letters network hash u hu).2).trans
    (List.map_id _)

theorem plain_toUpperCase_segwitAddress (network : Network) (hash : Hash20) :
    Bip173.Plain (toUpperCase (segwitAddress network hash)) := by
  refine ⟨fun v hv => ?_, .inl fun v hv => ?_⟩ <;> obtain ⟨u, hu, rfl⟩ := List.mem_map.1 hv
  · obtain ⟨⟨h0, h1⟩, -⟩ := segwitAddress_letters network hash u hu
    rw [UInt16.le_iff_toNat_le] at h0 h1
    have h0 : 33 ≤ u.toNat := h0
    have h1 : u.toNat ≤ 126 := h1
    have hnat := toNat_upperUnit u
    rw [UInt16.le_iff_toNat_le, UInt16.le_iff_toNat_le, hnat]
    show 33 ≤ _ ∧ _ ≤ 126
    split_ifs <;> omega
  · exact isLower_upperUnit u

theorem eq_or_eq_of_plain (hplain : Bip173.Plain s) (hs : toLowerCase s = segwitAddress network hash) :
    s = segwitAddress network hash ∨ s = toUpperCase (segwitAddress network hash) := by
  rcases hplain.2 with hnone | hnone
  · refine .inr ?_
    rw [← hs, toUpperCase, toLowerCase, List.map_map]
    exact ((List.map_congr_left fun u hu => upperUnit_lowerUnit (hnone u hu)).trans (List.map_id _)).symm
  · exact .inl (hs ▸ (toLowerCase_eq_self hnone).symm)

theorem isPrefixOf_segwitAddress (network : Network) (hash : Hash20) :
    network.bech32Prefix.isPrefixOf (segwitAddress network hash) = true := by
  rw [segwitAddress_eq, segwitBody, List.append_assoc]
  exact List.isPrefixOf_iff_prefix.2 (List.prefix_append _ _)

theorem isPrefixOf_segwitBody (network : Network) (hash : Hash20) (tail : Text) :
    network.bech32Prefix.isPrefixOf (toLowerCase (segwitBody network hash ++ tail)) = true := by
  have hbegins : toLowerCase network.bech32Prefix = network.bech32Prefix := by cases network <;> decide
  rw [segwitBody, toLowerCase, List.map_append, List.map_append, ← toLowerCase, hbegins, List.append_assoc]
  exact List.isPrefixOf_iff_prefix.2 (List.prefix_append _ _)

theorem exists_lower_segwitBody (network : Network)
    (hash : Hash20) : ∃ u ∈ segwitBody network hash, isLower u = true := by
  refine ⟨unit 'c', List.mem_append_left _ ?_, by decide⟩
  cases network <;> decide

end Letters

/-! ## Exact decoding -/

def addressOf (sha256 : Sha256) (network : Network) (hash : Hash20) : AddressType → Except String Text
  | .p2pkh => .ok (p2pkhAddress sha256 hash network)
  | .p2sh => .ok (p2shAddress sha256 hash network)
  | .p2wpkh => p2wpkhAddress 32 hash network

/-- Both wallets decode the addresses of the hash to the hash and its type. -/
def RoundTrips (sha256 : Sha256) (network : Network) (hash : Hash20) : Prop :=
  ∀ type, ∃ address, addressOf sha256 network hash type = .ok address ∧
    Web.decodeAddress sha256 address network = .ok (type, hash.1) ∧
    Mobile.decodeAddress sha256 address network = .ok (type, hash.1)

/-- What the web wallet accepts is, up to letter case, the address of what it returns, and the mobile wallet accepts the
same. -/
def DecodesExactly (sha256 : Sha256) (network : Network) (s : Text) : Prop :=
  (∀ r, Web.decodeAddress sha256 s network = .ok r → ∃ (hash : Hash20) (address : Text), r.2 = hash.1 ∧
    addressOf sha256 network hash r.1 = .ok address ∧ toLowerCase s = toLowerCase address) ∧
  (∀ r, Web.decodeAddress sha256 s network = .ok r ↔ Mobile.decodeAddress sha256 s network = .ok r)

section Exact

variable {sha256 : Sha256} {network : Network} {hash : Hash20} {s : Text}

theorem decodeAddress_segwitAddress (sha256 : Sha256) (network : Network) (hash : Hash20) :
    Web.decodeAddress sha256 (segwitAddress network hash) network = .ok (.p2wpkh, hash.1) ∧
    Mobile.decodeAddress sha256 (segwitAddress network hash) network = .ok (.p2wpkh, hash.1) := by
  have hbegins : network.bech32Prefix.isPrefixOf (toLowerCase (segwitAddress network hash)) = true := by
    rw [toLowerCase_segwitAddress]
    exact isPrefixOf_segwitAddress network hash
  refine ⟨(Web.decodeAddress_segwit_iff hbegins).2 ⟨hash, segwitChecksum network hash, segwitAddress_eq network hash,
    ?_, ?_, rfl⟩,
    (Mobile.decodeAddress_segwit_iff hbegins).2 ⟨hash, plain_segwitAddress network hash,
      toLowerCase_segwitAddress network hash, rfl⟩⟩
  · rw [segwitChecksum, List.length_map, length_bech32CreateChecksum]
  · exact one_notMem_chars bech32CreateChecksum_lt

/-- **Addresses come back**, unless a P2PKH address of the main network begins with `cac1` in some case: then it is taken
for a bech32 address. -/
theorem roundTrips_iff : RoundTrips sha256 network hash ↔
    (network = .mainnet → network.bech32Prefix.isPrefixOf (toLowerCase (p2pkhAddress sha256 hash network)) = false) := by
  constructor
  · rintro h rfl
    obtain ⟨address, haddress, hweb, -⟩ := h .p2pkh
    cases haddress
    refine Bool.eq_false_iff.2 fun hbegins => ?_
    obtain ⟨_, _, _, _, _, hr⟩ := (Web.decodeAddress_segwit_iff hbegins).1 hweb
    cases hr
  · intro h type
    cases type with
    | p2pkh =>
      have hbegins : network.bech32Prefix.isPrefixOf (toLowerCase (p2pkhAddress sha256 hash network)) = false := by
        cases network with
        | mainnet => exact h rfl
        | testnet => exact not_isPrefixOf_p2pkhAddress_testnet hash
      exact ⟨_, rfl, (Web.decodeAddress_base58_iff hbegins).2 ⟨hash, .inl ⟨rfl, rfl⟩⟩,
        (Mobile.decodeAddress_base58_iff hbegins).2 ⟨hash, .inl ⟨rfl, rfl⟩⟩⟩
    | p2sh =>
      have hbegins : network.bech32Prefix.isPrefixOf (toLowerCase (p2shAddress sha256 hash network)) = false :=
        not_isPrefixOf_p2shAddress hash network
      exact ⟨_, rfl, (Web.decodeAddress_base58_iff hbegins).2 ⟨hash, .inr ⟨rfl, rfl⟩⟩,
        (Mobile.decodeAddress_base58_iff hbegins).2 ⟨hash, .inr ⟨rfl, rfl⟩⟩⟩
    | p2wpkh => exact ⟨_, p2wpkhAddress_eq (by decide) hash network, decodeAddress_segwitAddress sha256 network hash⟩

/-- **Decoding is exact except for two kinds of texts**: the body of a bech32 address with other characters in the place
of its checksum, and bech32 addresses in capital letters. -/
theorem decodesExactly_iff : DecodesExactly sha256 network s ↔
    (∀ hash tail, s = segwitBody network hash ++ tail → tail.length = 6 → unit '1' ∉ tail →
      tail = segwitChecksum network hash) ∧
    (∀ hash, s ≠ toUpperCase (segwitAddress network hash)) := by
  constructor
  · rintro ⟨-, hsame⟩
    constructor
    · rintro hash tail rfl hlen hone
      have hbegins := isPrefixOf_segwitBody network hash tail
      have hweb : Web.decodeAddress sha256 _ network = .ok _ :=
        (Web.decodeAddress_segwit_iff hbegins).2 ⟨hash, tail, rfl, hlen, hone, rfl⟩
      obtain ⟨hash', hplain, hs, hr⟩ := (Mobile.decodeAddress_segwit_iff hbegins).1 ((hsame _).1 hweb)
      obtain rfl : hash = hash' := Subtype.ext (Prod.mk.inj hr).2
      -- The body has a small letter, so there are no capitals.
      obtain ⟨u, hu, hlower⟩ := exists_lower_segwitBody network hash
      have hsmall : ∀ v ∈ segwitBody network hash ++ tail, isUpper v = false := by
        rcases hplain.2 with hnone | hnone
        · exact absurd hlower (by rw [hnone u (List.mem_append_left _ hu)]; decide)
        · exact hnone
      rw [toLowerCase_eq_self hsmall, segwitAddress_eq] at hs
      exact List.append_cancel_left hs
    · rintro hash rfl
      have hlower := toLowerCase_toUpperCase_segwitAddress network hash
      have hbegins : network.bech32Prefix.isPrefixOf (toLowerCase (toUpperCase (segwitAddress network hash))) = true := by
        rw [hlower]
        exact isPrefixOf_segwitAddress network hash
      have hmobile : Mobile.decodeAddress sha256 _ network = .ok _ :=
        (Mobile.decodeAddress_segwit_iff hbegins).2 ⟨hash, plain_toUpperCase_segwitAddress network hash, hlower, rfl⟩
      obtain ⟨hash', tail, hs, -⟩ := (Web.decodeAddress_segwit_iff hbegins).1 ((hsame _).2 hmobile)
      obtain ⟨u, hu, hlower⟩ := exists_lower_segwitBody network hash'
      have hmem : u ∈ toUpperCase (segwitAddress network hash) := hs ▸ List.mem_append_left _ hu
      obtain ⟨v, -, rfl⟩ := List.mem_map.1 hmem
      rw [isLower_upperUnit] at hlower
      cases hlower
  · rintro ⟨hchecksum, hcapitals⟩
    cases hbegins : network.bech32Prefix.isPrefixOf (toLowerCase s) with
    | false =>
      have hweb : ∀ {r}, Web.decodeAddress sha256 s network = .ok r ↔ _ := fun {r} => Web.decodeAddress_base58_iff hbegins
      refine ⟨fun r hr => ?_, fun r => hweb.trans (Mobile.decodeAddress_base58_iff hbegins).symm⟩
      obtain ⟨hash, ⟨hs, rfl⟩ | ⟨hs, rfl⟩⟩ := hweb.1 hr
      · exact ⟨hash, _, rfl, rfl, by rw [hs]⟩
      · exact ⟨hash, _, rfl, rfl, by rw [hs]⟩
    | true =>
      have hweb : ∀ {r}, Web.decodeAddress sha256 s network = .ok r →
          ∃ hash, s = segwitAddress network hash ∧ r = (.p2wpkh, hash.1) := by
        intro r hr
        obtain ⟨hash, tail, hs, hlen, hone, hr⟩ := (Web.decodeAddress_segwit_iff hbegins).1 hr
        exact ⟨hash, by rw [segwitAddress_eq, ← hchecksum hash tail hs hlen hone, hs], hr⟩
      refine ⟨fun r hr => ?_, fun r => ⟨fun hr => ?_, fun hr => ?_⟩⟩
      · obtain ⟨hash, rfl, rfl⟩ := hweb hr
        exact ⟨hash, _, rfl, p2wpkhAddress_eq (by decide) hash network, rfl⟩
      · obtain ⟨hash, rfl, rfl⟩ := hweb hr
        exact (decodeAddress_segwitAddress sha256 network hash).2
      · obtain ⟨hash, hplain, hs, rfl⟩ := (Mobile.decodeAddress_segwit_iff hbegins).1 hr
        rcases eq_or_eq_of_plain hplain hs with rfl | hs
        · exact (decodeAddress_segwitAddress sha256 network hash).1
        · exact absurd hs (hcapitals hash)

end Exact

/-- **When decoding addresses is exact.** -/
theorem decodeAddress_exact_iff (sha256 : Sha256) (network : Network) :
    (∀ hash, RoundTrips sha256 network hash ↔
      (network = .mainnet → network.bech32Prefix.isPrefixOf (toLowerCase (p2pkhAddress sha256 hash network)) = false)) ∧
    (∀ s, DecodesExactly sha256 network s ↔
      (∀ hash tail, s = segwitBody network hash ++ tail → tail.length = 6 → unit '1' ∉ tail →
        tail = segwitChecksum network hash) ∧
      (∀ hash, s ≠ toUpperCase (segwitAddress network hash))) :=
  ⟨fun _ => roundTrips_iff, fun _ => decodesExactly_iff⟩

def zeroDigest : Sha256 := fun _ => ⟨List.replicate 32 0, rfl⟩

/-- A hash whose P2PKH address begins with `Cac1`. -/
def cac1Hash : Hash20 := ⟨[198, 251] ++ List.replicate 18 0, rfl⟩

theorem length_zeroHash : (List.replicate 20 (0 : UInt8)).length = 20 := rfl

def zeroHash : Hash20 := ⟨List.replicate 20 0, length_zeroHash⟩

/-- The body of the address of `zeroHash`, and six times `q` in place of the checksum. -/
def wrongChecksum : Text := ['c', 'a', 'c', '1'].map unit ++ List.replicate 39 (unit 'q')

/-- **Three texts that are not decoded exactly**: the web wallet accepts a wrong checksum; it rejects an address in
capital letters that the mobile wallet accepts; and neither wallet accepts the P2PKH address `Cac1…` of a hash. -/
theorem decodeAddress_not_exact :
    (Web.decodeAddress zeroDigest wrongChecksum .mainnet = .ok (.p2wpkh, zeroHash.1) ∧
      wrongChecksum ≠ segwitAddress .mainnet zeroHash ∧
      (Mobile.decodeAddress zeroDigest wrongChecksum .mainnet).toOption = none) ∧
    ((Web.decodeAddress zeroDigest (toUpperCase (segwitAddress .mainnet zeroHash)) .mainnet).toOption = none ∧
      Mobile.decodeAddress zeroDigest (toUpperCase (segwitAddress .mainnet zeroHash)) .mainnet =
        .ok (.p2wpkh, zeroHash.1)) ∧
    ((p2pkhAddress zeroDigest cac1Hash .mainnet).take 4 = ['C', 'a', 'c', '1'].map unit ∧
      (Web.decodeAddress zeroDigest (p2pkhAddress zeroDigest cac1Hash .mainnet) .mainnet).toOption = none ∧
      (Mobile.decodeAddress zeroDigest (p2pkhAddress zeroDigest cac1Hash .mainnet) .mainnet).toOption = none) := by
  decide +kernel

end CodexaCoin.Wallet
