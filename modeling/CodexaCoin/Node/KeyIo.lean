import CodexaCoin.Wallet.Address

/-!
# Addresses of the node

`DecodeBase58` and `DecodeBase58Check` of `base58.cpp` and `DecodeDestination` of `key_io.cpp`. The chains have the
version bytes and the bech32 prefixes of the wallets' networks.
-/

namespace CodexaCoin.Node

open Wallet Radix

/-! ## Base58 -/

def isSpace (u : UInt16) : Bool := u == 0x20 || (9 ≤ u && u ≤ 13)

/-- A round of the loop over the characters in `DecodeBase58`. The digits of `b256` are the ones in use, the least
significant first. -/
def takeBase58 (zeroes maxRetLen : Nat) (b256 : List Nat) (u : UInt16) : Option (List Nat) :=
  if base58Alphabet.contains u then
    let b256 := mulAdd 256 58 b256 (base58Alphabet.idxOf u)
    if maxRetLen < b256.length + zeroes then none else some b256
  else none

def decodeBase58 (psz : Text) (maxRetLen : Nat) : Option (List UInt8) :=
  let psz := psz.dropWhile isSpace
  let zeroes := (psz.takeWhile (· == unit '1')).length
  if maxRetLen < zeroes then none
  else
    let psz := psz.dropWhile (· == unit '1')
    match (psz.takeWhile (!isSpace ·)).foldlM (takeBase58 zeroes maxRetLen) [] with
    | none => none
    | some b256 =>
      if (psz.dropWhile (!isSpace ·)).all isSpace then
        some (List.replicate zeroes 0 ++ b256.reverse.map UInt8.ofNat)
      else none

def decodeBase58Check (sha256 : Sha256) (str : Text) (maxRet : Nat) : Option (List UInt8) :=
  if str.contains 0 then none
  else match decodeBase58 str (maxRet + 4) with
    | none => none
    | some data =>
      if data.length < 4 then none
      else if checksum sha256 (data.take (data.length - 4)) ≠ data.drop (data.length - 4) then none
      else some (data.take (data.length - 4))

section Base58

variable {sha256 : Sha256}

theorem dropWhile_isSpace {s : Text} (h : ∀ u ∈ s, isSpace u = false) : s.dropWhile isSpace = s := by
  cases s with
  | nil => rfl
  | cons u s => exact List.dropWhile_cons_of_neg (by simp [h u List.mem_cons_self])

theorem foldlM_takeBase58 {l : List Nat} (hl : ∀ d ∈ l, d < 58) {zeroes maxRetLen : Nat}
    (hlen : (Nat.digits 256 (value 58 l)).length + zeroes ≤ maxRetLen) :
    (l.map (char base58Alphabet)).foldlM (takeBase58 zeroes maxRetLen) [] = some (Nat.digits 256 (value 58 l)) := by
  have hmem : ∀ d < 58, base58Alphabet.contains (char base58Alphabet d) = true := by decide
  have hidx : ∀ d < 58, base58Alphabet.idxOf (char base58Alphabet d) = d := by decide
  -- from the right, because the length of the digits bounds that of the digits before
  induction l using List.reverseRecOn with
  | nil => simp
  | append_singleton l d ih =>
    have hd := hl d (List.mem_append_right _ List.mem_cons_self)
    have hvalue : value 58 (l ++ [d]) = 58 * value 58 l + d := by
      rw [value_append, value_cons]
      simp [Nat.mul_comm]
    have hle : value 58 l ≤ value 58 (l ++ [d]) := by omega
    have hshort := Nat.le_length_digits_le 256 _ _ hle
    rw [List.map_append, List.foldlM_append, ih (fun x hx => hl x (List.mem_append_left _ hx)) (by omega)]
    rw [hvalue] at hlen ⊢
    simp only [Option.bind_eq_bind, Option.bind_some, List.map_cons, List.map_nil, List.foldlM_cons, List.foldlM_nil,
      takeBase58, hmem d hd, hidx d hd, if_true, mulAdd_digits (show 1 < 256 by decide) (show 0 < 58 by decide)]
    rw [if_neg (by omega)]
    rfl

/-- **The node reads the text of bytes as these bytes**, if they are not too many. -/
theorem decodeBase58_rebase {full : List Nat} (hfull : ∀ d ∈ full, d < 256) {maxRetLen : Nat}
    (hlen : full.length ≤ maxRetLen) :
    decodeBase58 ((rebase 256 58 full).map (char base58Alphabet)) maxRetLen = some (full.map UInt8.ofNat) := by
  have hspace : ∀ d < 58, isSpace (char base58Alphabet d) = false := by decide
  have hone : ∀ d < 58, (char base58Alphabet d == unit '1') = (d == 0) := by decide
  have hlt : ∀ d ∈ rebase 256 58 full, d < 58 := fun d hd => lt_of_mem_rebase (by decide) hd
  have hdigit : ∀ d ∈ numeral 58 (value 256 full), d < 58 := fun d hd => lt_of_mem_numeral (by decide) hd
  have hsplit := eq_replicate_append (show 1 < 256 by decide) hfull
  have hzeros : zeros (rebase 256 58 full) = zeros full := zeros_replicate_append _ _
  have hdrop : ((rebase 256 58 full).map (char base58Alphabet)).dropWhile (· == unit '1') =
      (numeral 58 (value 256 full)).map (char base58Alphabet) := by
    have hhead : (numeral 58 (value 256 full)).head? ≠ some 0 := head_numeral_ne_zero _
    rw [rebase, List.map_append, List.map_replicate, List.dropWhile_append_of_pos (by simp [char_base58_zero])]
    cases hn : numeral 58 (value 256 full) with
    | nil => rfl
    | cons d l =>
      rw [hn] at hhead hdigit
      refine List.dropWhile_cons_of_neg ?_
      rw [hone d (hdigit d List.mem_cons_self)]
      simpa using hhead
  have hplain : ∀ u ∈ (numeral 58 (value 256 full)).map (char base58Alphabet), (!isSpace u) = true := by
    intro u hu
    obtain ⟨d, hd, rfl⟩ := List.mem_map.1 hu
    rw [hspace d (hdigit d hd)]
    rfl
  have hcount : (Nat.digits 256 (value 256 full)).length + zeros full ≤ maxRetLen := by
    have := congrArg List.length hsplit
    rw [List.length_append, List.length_replicate, numeral, List.length_reverse] at this
    omega
  have hvalue : value 58 (numeral 58 (value 256 full)) = value 256 full := value_numeral _
  have hloop : ((numeral 58 (value 256 full)).map (char base58Alphabet)).foldlM (takeBase58 (zeros full) maxRetLen) [] =
      some (Nat.digits 256 (value 58 (numeral 58 (value 256 full)))) := foldlM_takeBase58 hdigit (by rwa [hvalue])
  have htake : ((numeral 58 (value 256 full)).map (char base58Alphabet)).takeWhile (!isSpace ·) =
      (numeral 58 (value 256 full)).map (char base58Alphabet) := by
    rw [← List.append_nil (List.map _ _), List.takeWhile_append_of_pos hplain]
    rfl
  have hrest : ((numeral 58 (value 256 full)).map (char base58Alphabet)).dropWhile (!isSpace ·) = [] := by
    rw [← List.append_nil (List.map _ _), List.dropWhile_append_of_pos hplain]
    rfl
  unfold decodeBase58
  rw [dropWhile_isSpace (fun u hu => by
    obtain ⟨d, hd, rfl⟩ := List.mem_map.1 hu
    exact hspace d (hlt d hd))]
  dsimp only
  rw [takeWhile_chars hlt, hzeros, if_neg (by omega), hdrop, htake, hrest, hloop,
    hvalue]
  simp only [List.all_nil, if_true]
  conv_rhs => rw [hsplit]
  rw [List.map_append, List.map_replicate, numeral]
  rfl

/-- **The node reads the encodings that the wallets write.** -/
theorem decodeBase58Check_base58checkEncode (payload : List UInt8) {maxRet : Nat} (h : payload.length ≤ maxRet) :
    decodeBase58Check sha256 (base58checkEncode sha256 payload) maxRet = some payload := by
  have hnul : (base58checkEncode sha256 payload).contains 0 = false := by
    have hchar : ∀ d < 58, char base58Alphabet d ≠ 0 := by decide
    rw [Bool.eq_false_iff, ne_eq, List.contains_iff_mem, base58checkEncode_eq]
    intro h
    obtain ⟨d, hd, hzero⟩ := List.mem_map.1 h
    exact hchar d (lt_of_mem_rebase (by decide) hd) hzero
  have hread : decodeBase58 (base58checkEncode sha256 payload) (maxRet + 4) = some (checked sha256 payload) := by
    rw [base58checkEncode_eq, decodeBase58_rebase (map_toNat_lt _), map_ofNat_toNat_bytes]
    rw [List.length_map, length_checked]
    omega
  rw [decodeBase58Check, hnul, if_neg (by decide), hread]
  have hcut : (checked sha256 payload).length - 4 = payload.length := by rw [length_checked, Nat.add_sub_cancel]
  dsimp only
  rw [hcut, length_checked, if_neg (by omega), checked, List.take_left, List.drop_left, if_neg (by simp)]

end Base58

/-! ## Destinations -/

inductive Destination where
  | noDestination
  | pkHash (hash : List UInt8)
  | scriptHash (hash : List UInt8)
  | witness (program : List UInt8)
deriving DecidableEq, Repr

/-- The test for a bech32 address in `DecodeDestination`: only the letters of the prefix are compared, without the `1`. -/
def isBech32 (str : Text) (network : Wallet.Network) : Bool :=
  toLowerCase (str.take network.bech32Hrp.length) == network.bech32Hrp

/-- `DecodeDestination`. What the bech32 branch finds is given by `segwit`: a witness program or nothing. -/
def decodeDestination (sha256 : Sha256) (segwit : Text → Option (List UInt8)) (str : Text) (network : Wallet.Network) :
    Destination :=
  if isBech32 str network then
    match segwit str with
    | none => .noDestination
    | some program => .witness program
  else match decodeBase58Check sha256 str 21 with
    | none => .noDestination
    | some data =>
      if data.length = 20 + 1 ∧ data.head? = some network.p2pkhVersion then .pkHash (data.drop 1)
      else if data.length = 20 + 1 ∧ data.head? = some network.p2shVersion then .scriptHash (data.drop 1)
      else .noDestination

section Destinations

variable {sha256 : Sha256} {segwit : Text → Option (List UInt8)} {network : Wallet.Network}

theorem isBech32_eq (str : Text) (network : Wallet.Network) :
    isBech32 str network = network.bech32Hrp.isPrefixOf (toLowerCase str) := by
  rw [Bool.eq_iff_iff, isBech32, List.isPrefixOf_iff_prefix, List.prefix_iff_eq_take, toLowerCase, toLowerCase,
    List.map_take, beq_iff_eq, eq_comm]

theorem isBech32_of_bech32Prefix {str : Text} (h : network.bech32Prefix.isPrefixOf (toLowerCase str) = true) :
    isBech32 str network = true := by
  rw [isBech32_eq, List.isPrefixOf_iff_prefix]
  exact (List.prefix_append _ _).trans (List.isPrefixOf_iff_prefix.1 h)

theorem isBech32_p2pkhAddress_testnet (hash : Hash20) : isBech32 (p2pkhAddress sha256 hash .testnet) .testnet =
    false := by
  have hfirst : ∀ d ≤ ((Wallet.Network.testnet.p2pkhVersion.toNat + 1) * 256 ^ 24 - 1) / 58 ^ 33,
      Wallet.Network.testnet.p2pkhVersion.toNat * 256 ^ 24 / 58 ^ 33 ≤ d →
        lowerUnit (char base58Alphabet d) ≠ unit 't' := by decide
  obtain ⟨d, hlo, hhi, hhead⟩ : ∃ d, Wallet.Network.testnet.p2pkhVersion.toNat * 256 ^ 24 / 58 ^ 33 ≤ d ∧
      d ≤ ((Wallet.Network.testnet.p2pkhVersion.toNat + 1) * 256 ^ 24 - 1) / 58 ^ 33 ∧
      (p2pkhAddress sha256 hash .testnet).head? = some (char base58Alphabet d) :=
    head_base58checkEncode hash (by decide) (by decide) (by decide)
  cases hs : p2pkhAddress sha256 hash .testnet with
  | nil => rfl
  | cons u s =>
    rw [hs] at hhead
    cases hhead
    rw [isBech32_eq, Bool.eq_false_iff, ne_eq, List.isPrefixOf_iff_prefix]
    rintro ⟨t, ht⟩
    exact hfirst d hhi hlo (List.cons.inj ht).1.symm

/-- **How the node reads the address of a key**: not at all if it begins with the letters of the bech32 prefix. -/
theorem decodeDestination_p2pkhAddress (hash : Hash20) (h : isBech32 (p2pkhAddress sha256 hash network) network = false) :
    decodeDestination sha256 segwit (p2pkhAddress sha256 hash network) network = .pkHash hash.1 := by
  have hlen : (network.p2pkhVersion :: hash.1).length = 20 + 1 := by rw [List.length_cons, hash.2]
  have hread : decodeBase58Check sha256 (base58checkEncode sha256 (network.p2pkhVersion :: hash.1)) 21 =
      some (network.p2pkhVersion :: hash.1) := decodeBase58Check_base58checkEncode _ hlen.le
  rw [decodeDestination, h, if_neg (by decide), p2pkhAddress, hread]
  dsimp only
  rw [if_pos ⟨hlen, rfl⟩, List.drop_one, List.tail_cons]

end Destinations

end CodexaCoin.Node
