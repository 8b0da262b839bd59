import CodexaCoin.Node.KeyIo

/-!
# Signed messages

`verifyMessage` of `web-wallet/message.js` and `cac_wallet/lib/crypto/message.dart`, and `MessageVerify` of
`util/message.cpp` with `CPubKey::RecoverCompact`. Curves and hashes are those of the libraries; a signature is given by
the bytes of its base64 text.
-/

namespace CodexaCoin.Wallet

open Check Radix

/-! ## Libraries -/

def secp256k1P : Nat := 0xfffffffffffffffffffffffffffffffffffffffffffffffffffffffefffffc2f

/-- A number in the range of `r` and `s`. -/
def IsScalar (k : Nat) : Prop := 1 ≤ k ∧ k < secp256k1N

instance (k : Nat) : Decidable (IsScalar k) := inferInstanceAs (Decidable (_ ∧ _))

def modInverse (a n : Nat) : Except String Nat :=
  if a.gcd n = 1 then .ok (a.gcdA n % n).toNat else .error "Not coprime"

/-- What the code takes from the libraries. A point that does not exist is `none`, also where the library throws. -/
structure Primitives (Point : Type) where
  sha256 : Sha256
  hash160 : List UInt8 → Hash20
  /-- The bytes of a public key, compressed or not. -/
  serialize : Point → Bool → List UInt8
  /-- `secp256k1_ecdsa_recoverable_signature_parse_compact` and `secp256k1_ecdsa_recover`, by the recovery id, `r`, `s`
  and the hash. -/
  secpRecover : Nat → Nat → Nat → List UInt8 → Option Point
  /-- `fromCompact`, `addRecoveryBit` and `recoverPublicKey` of the web wallet's library. -/
  nobleRecover : Nat → Nat → Nat → List UInt8 → Option Point
  /-- The curve of the mobile wallet's library. -/
  decompressPoint : Nat → Nat → Option Point
  isInfinity : Point → Bool
  mul : Point → Nat → Option Point
  sub : Point → Point → Option Point
  generator : Point

variable {Point : Type}

def Mobile.recoverPublicKey (P : Primitives Point) (r s z recid : Nat) : Except String (Option Point) := do
  let xOverflow := recid >>> 1
  let isYOdd := recid &&& 1
  let x := r + xOverflow * secp256k1N
  if x ≥ secp256k1P then .ok none
  else match P.decompressPoint isYOdd x with
    | none => .ok none
    | some R =>
      if P.isInfinity R then .ok none
      else
        let rInv ← modInverse r secp256k1N
        match P.mul R s, P.mul P.generator (z % secp256k1N) with
        | some sR, some zG =>
          match P.sub sR zG with
          | none => .ok none
          | some diff => .ok (P.mul diff rInv)
        | _, _ => .ok none

/-- The point that a computation gives, if it does not throw. -/
def found : Except String (Option Point) → Option Point
  | .ok point => point
  | .error _ => none

/-- The formula of the mobile wallet has no value: `x` is not below the modulus of the field or not on the curve, `r`
has no inverse, or an operation of the curve fails. -/
def NoPoint (P : Primitives Point) (r s z recid : Nat) : Prop :=
  r + (recid >>> 1) * secp256k1N < secp256k1P →
    ∀ R, P.decompressPoint (recid &&& 1) (r + (recid >>> 1) * secp256k1N) = some R → P.isInfinity R = false →
      r.gcd secp256k1N = 1 →
      ∀ sR, P.mul R s = some sR → ∀ zG, P.mul P.generator (z % secp256k1N) = some zG →
        ∀ diff, P.sub sR zG = some diff → P.mul diff (r.gcdA secp256k1N % secp256k1N).toNat = none

theorem found_recoverPublicKey_eq_none_iff {P : Primitives Point} {r s z recid : Nat} :
    found (Mobile.recoverPublicKey P r s z recid) = none ↔ NoPoint P r s z recid := by
  unfold Mobile.recoverPublicKey NoPoint modInverse
  dsimp only
  generalize r + (recid >>> 1) * secp256k1N = x, recid &&& 1 = isYOdd
  by_cases hx : x < secp256k1P
  · rw [if_neg (Nat.not_le.2 hx)]
    cases hR : P.decompressPoint isYOdd x with
    | none => simp [found]
    | some R =>
      cases hinf : P.isInfinity R with
      | true => simp [hinf, found]
      | false =>
        by_cases hr : r.gcd secp256k1N = 1
        · cases hsR : P.mul R s with
          | none => simp [hx, hinf, hr, hsR, found]
          | some sR =>
            cases hzG : P.mul P.generator (z % secp256k1N) with
            | none => simp [hx, hinf, hr, hsR, found]
            | some zG => cases hdiff : P.sub sR zG <;> simp [hx, hinf, hr, hsR, hdiff, found]
        · simp [hinf, hr, found]
  · rw [if_pos (Nat.not_lt.1 hx)]
    simp [hx, found]

def bytesToBigInt (bytes : List UInt8) : Nat := value 256 (bytes.map UInt8.toNat)

/-- The libraries recover the same point from `r` and `s` in their range; those of the node and of the web wallet reject
the others. -/
structure Libraries (Point : Type) extends Primitives Point where
  isScalar_of_secpRecover : ∀ recid r s hash, secpRecover recid r s hash ≠ none → IsScalar r ∧ IsScalar s
  isScalar_of_nobleRecover : ∀ recid r s hash, nobleRecover recid r s hash ≠ none → IsScalar r ∧ IsScalar s
  nobleRecover_eq : ∀ recid r s hash, IsScalar r → IsScalar s → nobleRecover recid r s hash = secpRecover recid r s hash
  recoverPublicKey_eq : ∀ recid r s hash, IsScalar r → IsScalar s →
    found (Mobile.recoverPublicKey toPrimitives r s (bytesToBigInt hash) recid) = secpRecover recid r s hash

/-! ## Hashes of messages -/

def messageMagic : List UInt8 := "CodexaCoin Signed Message:\n".toList.map fun c => UInt8.ofNat c.toNat

/-- `_varInt` of `message.dart`: every count of more than two bytes takes four. -/
def Mobile.messageVarInt (n : Nat) : List UInt8 :=
  if n < 0xfd then [UInt8.ofNat n]
  else if n ≤ 0xffff then 0xfd :: serLE 2 n
  else 0xfe :: serLE 4 n

/-- The hash of the magic text and a message, each with its length in front. -/
def hashWith (sha256 : Sha256) (lengthBytes : Nat → List UInt8) (message : List UInt8) : List UInt8 :=
  let preimage := lengthBytes messageMagic.length ++ messageMagic ++ (lengthBytes message.length ++ message)
  (sha256 (sha256 preimage).1).1

def Web.messageHash (sha256 : Sha256) (message : List UInt8) : List UInt8 := hashWith sha256 varInt message

def Mobile.messageHash (sha256 : Sha256) (message : List UInt8) : List UInt8 :=
  hashWith sha256 Mobile.messageVarInt message

/-! ## Verification -/

def header (sigBytes : List UInt8) : Nat := (sigBytes.headD 0).toNat

/-- The number `r` of a signature. -/
def sigR (sigBytes : List UInt8) : Nat := bytesToBigInt ((sigBytes.drop 1).take 32)

/-- The number `s` of a signature. -/
def sigS (sigBytes : List UInt8) : Nat := bytesToBigInt ((sigBytes.drop 33).take 32)

/-- What both wallets do with the decoded address and the bytes of the signature, given how to recover a point from the
recovery id, `r` and `s`. -/
def verifyWith (P : Primitives Point) (decoded : DecodedAddress) (signature : Option (List UInt8))
    (recover : Nat → Nat → Nat → Except String (Option Point)) : Except String Bool := do
  if decoded.1 ≠ .p2pkh then .error "Only P2PKH addresses support message signing/verification"
  else match signature with
    | none => .error "Malformed signature (not valid base64)"
    | some sigBytes =>
      if sigBytes.length ≠ 65 then .error "Malformed signature (wrong length)"
      else if header sigBytes < 27 ∨ header sigBytes > 42 then .error "Malformed signature (bad header byte)"
      else
        let pubkey ← recover ((header sigBytes - 27) &&& 3) (sigR sigBytes) (sigS sigBytes)
        match pubkey with
        | none => .ok false
        | some pubkey => .ok ((P.hash160 (P.serialize pubkey true)).1 == decoded.2)

def Web.verifyMessage (P : Primitives Point) (address : Text) (signature : Option (List UInt8)) (message : List UInt8)
    (network : Network) : Except String Bool := do
  let decoded ← Web.decodeAddress P.sha256 address network
  let hash := Web.messageHash P.sha256 message
  verifyWith P decoded signature fun recovery r s => .ok (P.nobleRecover recovery r s hash)

def Mobile.verifyMessage (P : Primitives Point) (address : Text) (signature : Option (List UInt8)) (message : List UInt8)
    (network : Network) : Except String Bool := do
  let decoded ← Mobile.decodeAddress P.sha256 address network
  let z := bytesToBigInt (Mobile.messageHash P.sha256 message)
  verifyWith P decoded signature fun recid r s => Mobile.recoverPublicKey P r s z recid

end CodexaCoin.Wallet

namespace CodexaCoin.Node

open Wallet

variable {Point : Type}

def messageHash (sha256 : Sha256) (message : List UInt8) : List UInt8 :=
  hashWith sha256 writeCompactSize message

/-- The header byte less 27, as an `int`. -/
def headerBits (vchSig : List UInt8) : BitVec 32 := BitVec.ofNat 32 (header vchSig) - 27#32

def recid (vchSig : List UInt8) : Nat := (headerBits vchSig &&& 3#32).toNat

def fComp (vchSig : List UInt8) : Bool := headerBits vchSig &&& 4#32 != 0#32

def recoverCompact (P : Primitives Point) (hash vchSig : List UInt8) : Option (List UInt8) :=
  if vchSig.length ≠ 65 then none
  else (P.secpRecover (recid vchSig) (sigR vchSig) (sigS vchSig) hash).map (P.serialize · (fComp vchSig))

inductive MessageVerificationResult where
  | errInvalidAddress
  | errAddressNoKey
  | errMalformedSignature
  | errPubkeyNotRecovered
  | errNotSigned
  | ok
deriving DecidableEq, Repr

def messageVerify (P : Primitives Point) (segwit : Text → Option (List UInt8)) (address : Text)
    (signature : Option (List UInt8)) (message : List UInt8) (network : Wallet.Network) : MessageVerificationResult :=
  match decodeDestination P.sha256 segwit address network with
  | .noDestination => .errInvalidAddress
  | .scriptHash _ => .errAddressNoKey
  | .witness _ => .errAddressNoKey
  | .pkHash destination =>
    match signature with
    | none => .errMalformedSignature
    | some signatureBytes =>
      match recoverCompact P (messageHash P.sha256 message) signatureBytes with
      | none => .errPubkeyNotRecovered
      | some pubkey => if (P.hash160 pubkey).1 = destination then .ok else .errNotSigned

end CodexaCoin.Node

namespace CodexaCoin.Wallet

open Check

variable {Point : Type}

/-! ## Verdicts -/

theorem Mobile.messageHash_eq (sha256 : Sha256) {message : List UInt8} (h : message.length < 2 ^ 32) :
    Mobile.messageHash sha256 message = Node.messageHash sha256 message := by
  have hvarInt : ∀ n < 2 ^ 32, Mobile.messageVarInt n = writeCompactSize n := by
    intro n hn
    rw [← varInt_eq, Mobile.messageVarInt, varInt]
    split
    · rfl
    · split
      · rfl
      · rw [if_pos (by omega)]
  rw [Mobile.messageHash, Node.messageHash, hashWith, hashWith, hvarInt _ h, hvarInt _ (by decide)]

def keyHash (P : Primitives Point) (compressed : Bool) (Q : Point) : Hash20 := P.hash160 (P.serialize Q compressed)

def WalletsRead (sha256 : Sha256) (network : Network) (hash : Hash20) : Prop :=
  network.bech32Prefix.isPrefixOf (toLowerCase (p2pkhAddress sha256 hash network)) = false

def NodeReads (sha256 : Sha256) (network : Network) (hash : Hash20) : Prop :=
  Node.isBech32 (p2pkhAddress sha256 hash network) network = false

section Verdicts

variable {P : Primitives Point} {network : Network} {hash : Hash20} {sig message : List UInt8}
  {recover : Nat → Nat → Nat → Except String (Option Point)}

def walletKey (P : Primitives Point) (sig : List UInt8) (recover : Nat → Nat → Nat → Option Point) : Option Hash20 :=
  if header sig < 27 ∨ header sig > 42 then none
  else (recover ((header sig - 27) &&& 3) (sigR sig) (sigS sig)).map (keyHash P true)

theorem verifyWith_eq_ok_true_iff (hsig : sig.length = 65)
    {decoded : DecodedAddress} :
    verifyWith P decoded (some sig) recover = .ok true ↔
      decoded.1 = .p2pkh ∧ ∃ key, walletKey P sig (fun recid r s => found (recover recid r s)) = some key ∧
        key.1 = decoded.2 := by
  unfold verifyWith walletKey
  by_cases htype : decoded.1 = .p2pkh
  · rw [if_neg (by simpa using htype)]
    dsimp only
    rw [if_neg (by simpa using hsig)]
    split
    · simp
    · cases hrec : recover ((header sig - 27) &&& 3) (sigR sig) (sigS sig) with
      | error e => simp [found]
      | ok pubkey => cases pubkey <;> simp [found, htype, keyHash]
  · rw [if_pos (by simpa using htype)]
    simp [htype]

theorem decode_verifyWith_iff (hsig : sig.length = 65)
    {decode : Except String DecodedAddress} (hread : WalletsRead P.sha256 network hash → decode = .ok (.p2pkh, hash.1))
    (hother : ¬WalletsRead P.sha256 network hash → ∀ r, decode = .ok r → r.1 ≠ .p2pkh) :
    (decode >>= fun decoded => verifyWith P decoded (some sig) recover) = .ok true ↔
      WalletsRead P.sha256 network hash ∧
        walletKey P sig (fun recid r s => found (recover recid r s)) = some hash := by
  by_cases h : WalletsRead P.sha256 network hash
  · rw [hread h, ok_bind, verifyWith_eq_ok_true_iff hsig]
    simp only [true_and, h]
    constructor
    · rintro ⟨key, hkey, heq⟩
      rw [hkey, Subtype.ext heq]
    · exact fun hkey => ⟨hash, hkey, rfl⟩
  · refine iff_of_false (fun hr => ?_) fun hr => h hr.1
    obtain ⟨r, hdecode, hr⟩ := bind_eq_ok.1 hr
    exact hother h r hdecode ((verifyWith_eq_ok_true_iff hsig).1 hr).1

/-- **The verdict of the web wallet.** -/
theorem Web.verifyMessage_eq_ok_true_iff (hsig : sig.length = 65) :
    Web.verifyMessage P (p2pkhAddress P.sha256 hash network) (some sig) message network = .ok true ↔
      WalletsRead P.sha256 network hash ∧
        walletKey P sig (fun recid r s => P.nobleRecover recid r s (Node.messageHash P.sha256 message)) = some hash := by
  refine decode_verifyWith_iff hsig (fun h => ?_) fun h r hr => ?_
  · exact (Web.decodeAddress_base58_iff h).2 ⟨hash, .inl ⟨rfl, rfl⟩⟩
  · obtain ⟨_, _, _, _, _, rfl⟩ := (Web.decodeAddress_segwit_iff (Bool.eq_true_of_not_eq_false h)).1 hr
    simp

/-- **The verdict of the mobile wallet.** -/
theorem Mobile.verifyMessage_eq_ok_true_iff (hsig : sig.length = 65) :
    Mobile.verifyMessage P (p2pkhAddress P.sha256 hash network) (some sig) message network = .ok true ↔
      WalletsRead P.sha256 network hash ∧
        walletKey P sig (fun recid r s => found (Mobile.recoverPublicKey P r s
          (bytesToBigInt (Mobile.messageHash P.sha256 message)) recid)) = some hash := by
  refine decode_verifyWith_iff hsig (fun h => ?_) fun h r hr => ?_
  · exact (Mobile.decodeAddress_base58_iff h).2 ⟨hash, .inl ⟨rfl, rfl⟩⟩
  · obtain ⟨_, _, _, rfl⟩ := (Mobile.decodeAddress_segwit_iff (Bool.eq_true_of_not_eq_false h)).1 hr
    simp

/-- **The verdict of the node.** -/
theorem messageVerify_eq_ok_iff (hsig : sig.length = 65) {segwit : Text → Option (List UInt8)} :
    Node.messageVerify P segwit (p2pkhAddress P.sha256 hash network) (some sig) message network = .ok ↔
      NodeReads P.sha256 network hash ∧
        (P.secpRecover (Node.recid sig) (sigR sig) (sigS sig) (Node.messageHash P.sha256 message)).map
          (keyHash P (Node.fComp sig)) = some hash := by
  by_cases h : NodeReads P.sha256 network hash
  · rw [Node.messageVerify, Node.decodeDestination_p2pkhAddress hash h]
    dsimp only
    rw [Node.recoverCompact, if_neg (by simpa using hsig)]
    cases hrec : P.secpRecover (Node.recid sig) (sigR sig) (sigS sig) (Node.messageHash P.sha256 message) with
    | none => simp
    | some Q => simp [h, keyHash, Subtype.ext_iff]
  · refine iff_of_false (fun hr => ?_) fun hr => h hr.1
    rw [Node.messageVerify, Node.decodeDestination, if_pos (Bool.eq_true_of_not_eq_false h)] at hr
    cases hseg : segwit (p2pkhAddress P.sha256 hash network) <;> rw [hseg] at hr <;> cases hr

end Verdicts

/-! ## Agreement -/

abbrev CompactSignature := { bytes : List UInt8 // bytes.length = 65 }

/-- The verdicts on the address of a key are the same. -/
structure VerdictsAgree (P : Primitives Point) (segwit : Text → Option (List UInt8)) (network : Network) (hash : Hash20)
    (sig : CompactSignature) (message : List UInt8) : Prop where
  web : Web.verifyMessage P (p2pkhAddress P.sha256 hash network) (some sig.1) message network = .ok true ↔
    Node.messageVerify P segwit (p2pkhAddress P.sha256 hash network) (some sig.1) message network = .ok
  mobile : Mobile.verifyMessage P (p2pkhAddress P.sha256 hash network) (some sig.1) message network = .ok true ↔
    Node.messageVerify P segwit (p2pkhAddress P.sha256 hash network) (some sig.1) message network = .ok

def recovered (P : Primitives Point) (sig hash : List UInt8) : Option Point :=
  P.secpRecover (Node.recid sig) (sigR sig) (sigS sig) hash

/-- The signatures and messages on which the code paths cannot be told apart. -/
structure Alike (P : Primitives Point) (sig message : List UInt8) : Prop where
  /-- A header byte that the wallets refuse comes with a signature of no key. -/
  headerByte : (header sig < 27 ∨ header sig > 42) → recovered P sig (Node.messageHash P.sha256 message) = none
  /-- Where `r` or `s` is out of range, the formula of the mobile wallet gives no point either. -/
  scalars : ¬(header sig < 27 ∨ header sig > 42) → ¬(IsScalar (sigR sig) ∧ IsScalar (sigS sig)) →
    NoPoint P (sigR sig) (sigS sig) (bytesToBigInt (Mobile.messageHash P.sha256 message)) (Node.recid sig)
  /-- The hash of a message whose length does not fit into four bytes makes no difference. -/
  length : ¬(header sig < 27 ∨ header sig > 42) → 2 ^ 32 ≤ message.length →
    (recovered P sig (Mobile.messageHash P.sha256 message)).map (keyHash P true) =
      (recovered P sig (Node.messageHash P.sha256 message)).map (keyHash P true)
  /-- A key is signed for as a compressed one. -/
  compression : ¬(header sig < 27 ∨ header sig > 42) →
    ∀ Q, recovered P sig (Node.messageHash P.sha256 message) = some Q → Node.fComp sig = false →
      keyHash P false Q = keyHash P true Q
  /-- The node reads its address if the wallets do. -/
  letters : ¬(header sig < 27 ∨ header sig > 42) →
    ∀ Q, recovered P sig (Node.messageHash P.sha256 message) = some Q →
      WalletsRead P.sha256 .mainnet (keyHash P true Q) → NodeReads P.sha256 .mainnet (keyHash P true Q)

section Agreement

variable {L : Libraries Point} {sha256 : Sha256} {sig message : List UInt8} {network : Network} {hash : Hash20}
  {P : Primitives Point}

theorem walletsRead_of_nodeReads (h : NodeReads sha256 network hash) :
    WalletsRead sha256 network hash := by
  refine Bool.eq_false_iff.2 fun hbegins => ?_
  rw [NodeReads, Node.isBech32_of_bech32Prefix hbegins] at h
  cases h

theorem forall_reads_iff {a c : Option Hash20} :
    (∀ network hash, (WalletsRead sha256 network hash ∧ a = some hash) ↔
      (NodeReads sha256 network hash ∧ c = some hash)) ↔
      a = c ∧ ∀ hash, c = some hash → WalletsRead sha256 .mainnet hash → NodeReads sha256 .mainnet hash := by
  have htest : ∀ hash, NodeReads sha256 .testnet hash := fun hash => Node.isBech32_p2pkhAddress_testnet hash
  have htest' : ∀ hash, WalletsRead sha256 .testnet hash := fun hash => not_isPrefixOf_p2pkhAddress_testnet hash
  constructor
  · intro h
    have hac : a = c := by
      refine Option.ext fun hash => ?_
      have := h .testnet hash
      simpa only [htest, htest', true_and] using this
    refine ⟨hac, fun hash hc hread => ?_⟩
    exact ((h .mainnet hash).1 ⟨hread, hac.trans hc⟩).1
  · rintro ⟨rfl, h⟩ network hash
    cases network with
    | testnet => simp only [htest, htest', true_and]
    | mainnet =>
      exact ⟨fun ⟨hread, ha⟩ => ⟨h hash ha hread, ha⟩, fun ⟨hread, ha⟩ => ⟨walletsRead_of_nodeReads hread, ha⟩⟩

theorem recid_eq (h : ¬(header sig < 27 ∨ header sig > 42)) : (header sig - 27) &&& 3 = Node.recid sig := by
  have hbytes : ∀ n < 43, 27 ≤ n → (n - 27) &&& 3 = ((BitVec.ofNat 32 n - 27#32) &&& 3#32).toNat := by decide
  exact hbytes (header sig) (by omega) (by omega)

/-- The keys that the three look for are the same, and the address is read alike. -/
def SameKey (P : Primitives Point) (sig message : List UInt8) : Prop :=
  let node := (recovered P sig (Node.messageHash P.sha256 message)).map (keyHash P (Node.fComp sig))
  walletKey P sig (fun recid r s => P.nobleRecover recid r s (Node.messageHash P.sha256 message)) = node ∧
  walletKey P sig (fun recid r s => found (Mobile.recoverPublicKey P r s
    (bytesToBigInt (Mobile.messageHash P.sha256 message)) recid)) = node ∧
  ∀ hash, node = some hash → WalletsRead P.sha256 .mainnet hash → NodeReads P.sha256 .mainnet hash

theorem forall_agree_iff {segwit : Text → Option (List UInt8)} {sig : CompactSignature} :
    (∀ network hash, VerdictsAgree P segwit network hash sig message) ↔ SameKey P sig.1 message := by
  constructor
  · intro h
    obtain ⟨hweb, hread⟩ := forall_reads_iff.1 fun network hash =>
      (Web.verifyMessage_eq_ok_true_iff sig.2).symm.trans ((h network hash).web.trans (messageVerify_eq_ok_iff sig.2))
    obtain ⟨hmobile, -⟩ := forall_reads_iff.1 fun network hash =>
      (Mobile.verifyMessage_eq_ok_true_iff sig.2).symm.trans
        ((h network hash).mobile.trans (messageVerify_eq_ok_iff sig.2))
    exact ⟨hweb, hmobile, hread⟩
  · rintro ⟨hweb, hmobile, hread⟩ network hash
    constructor
    · rw [Web.verifyMessage_eq_ok_true_iff sig.2, messageVerify_eq_ok_iff sig.2]
      exact forall_reads_iff.2 ⟨hweb, hread⟩ network hash
    · rw [Mobile.verifyMessage_eq_ok_true_iff sig.2, messageVerify_eq_ok_iff sig.2]
      exact forall_reads_iff.2 ⟨hmobile, hread⟩ network hash

theorem sameKey_iff_of_header (h : header sig < 27 ∨ header sig > 42) :
    SameKey P sig message ↔ Alike P sig message := by
  have hnone : ∀ recover : Nat → Nat → Nat → Option Point, walletKey P sig recover = none := fun recover => if_pos h
  rw [SameKey, hnone, hnone]
  constructor
  · rintro ⟨hnode, -, -⟩
    refine ⟨fun _ => ?_, fun h' => absurd h h', fun h' => absurd h h', fun h' => absurd h h', fun h' => absurd h h'⟩
    exact Option.map_eq_none_iff.1 hnode.symm
  · rintro ⟨hnode, -, -, -, -⟩
    rw [hnode h]
    exact ⟨rfl, rfl, fun hash hhash => nomatch hhash⟩

theorem sameKey_iff_of_scalars (h : ¬(header sig < 27 ∨ header sig > 42))
    (hrange : ¬(IsScalar (sigR sig) ∧ IsScalar (sigS sig))) :
    SameKey L.toPrimitives sig message ↔ Alike L.toPrimitives sig message := by
  have hsecp : ∀ hash, recovered L.toPrimitives sig hash = none := fun hash =>
    not_not.1 fun hne => hrange (L.isScalar_of_secpRecover _ _ _ _ hne)
  have hnoble : ∀ recid hash, L.nobleRecover recid (sigR sig) (sigS sig) hash = none := fun recid hash =>
    not_not.1 fun hne => hrange (L.isScalar_of_nobleRecover _ _ _ _ hne)
  rw [SameKey, walletKey, walletKey, if_neg h, if_neg h, hsecp, hnoble, recid_eq h]
  constructor
  · rintro ⟨-, hmobile, -⟩
    refine ⟨fun h' => absurd h' h, fun _ _ => found_recoverPublicKey_eq_none_iff.1 (Option.map_eq_none_iff.1 hmobile),
      fun _ _ => ?_, fun _ Q hQ => ?_, fun _ Q hQ => ?_⟩
    · rw [hsecp, hsecp]
    · rw [hsecp] at hQ
      cases hQ
    · rw [hsecp] at hQ
      cases hQ
  · rintro ⟨-, hscalars, -, -, -⟩
    rw [found_recoverPublicKey_eq_none_iff.2 (hscalars h hrange)]
    exact ⟨rfl, rfl, fun hash hhash => nomatch hhash⟩

theorem walletKey_of_scalars (h : ¬(header sig < 27 ∨ header sig > 42)) (hr : IsScalar (sigR sig))
    (hs : IsScalar (sigS sig)) (message : List UInt8) :
    walletKey L.toPrimitives sig (fun recid r s => L.nobleRecover recid r s (Node.messageHash L.sha256 message)) =
      (recovered L.toPrimitives sig (Node.messageHash L.sha256 message)).map (keyHash L.toPrimitives true) ∧
    walletKey L.toPrimitives sig (fun recid r s => found (Mobile.recoverPublicKey L.toPrimitives r s
        (bytesToBigInt (Mobile.messageHash L.sha256 message)) recid)) =
      (recovered L.toPrimitives sig (Mobile.messageHash L.sha256 message)).map (keyHash L.toPrimitives true) := by
  rw [walletKey, walletKey, if_neg h, if_neg h, recid_eq h]
  exact ⟨congrArg _ (L.nobleRecover_eq _ _ _ _ hr hs), congrArg _ (L.recoverPublicKey_eq _ _ _ _ hr hs)⟩

theorem sameKey_iff_of_ordinary (h : ¬(header sig < 27 ∨ header sig > 42)) (hr : IsScalar (sigR sig))
    (hs : IsScalar (sigS sig)) : SameKey L.toPrimitives sig message ↔ Alike L.toPrimitives sig message := by
  obtain ⟨hnoble, hmobile⟩ := walletKey_of_scalars (L := L) h hr hs message
  have hlong : (2 ^ 32 ≤ message.length →
      (recovered L.toPrimitives sig (Mobile.messageHash L.sha256 message)).map (keyHash L.toPrimitives true) =
        (recovered L.toPrimitives sig (Node.messageHash L.sha256 message)).map (keyHash L.toPrimitives true)) →
      (recovered L.toPrimitives sig (Mobile.messageHash L.sha256 message)).map (keyHash L.toPrimitives true) =
        (recovered L.toPrimitives sig (Node.messageHash L.sha256 message)).map (keyHash L.toPrimitives true) := by
    intro hlength
    rcases Nat.lt_or_ge message.length (2 ^ 32) with hlt | hge
    · rw [Mobile.messageHash_eq L.sha256 hlt]
    · exact hlength hge
  rw [SameKey, hnoble, hmobile]
  constructor
  · rintro ⟨hweb, hphone, hread⟩
    refine ⟨fun h' => absurd h' h, fun _ hrange => absurd ⟨hr, hs⟩ hrange, fun _ _ => hphone.trans hweb.symm,
      fun _ Q hQ hbit => ?_, fun _ Q hQ => ?_⟩
    · rw [hQ, hbit] at hweb
      exact (Option.some.inj hweb).symm
    · rw [← hweb, hQ] at hread
      exact hread _ rfl
  · rintro ⟨-, -, hlength, hbit, hletters⟩
    have hkey : (recovered L.toPrimitives sig (Node.messageHash L.sha256 message)).map (keyHash L.toPrimitives true) =
        (recovered L.toPrimitives sig (Node.messageHash L.sha256 message)).map
          (keyHash L.toPrimitives (Node.fComp sig)) := by
      cases hQ : recovered L.toPrimitives sig (Node.messageHash L.sha256 message) with
      | none => rfl
      | some Q =>
        cases hcomp : Node.fComp sig with
        | true => rfl
        | false => exact congrArg some (hbit h Q hQ hcomp).symm
    rw [← hkey]
    refine ⟨rfl, hlong (hlength h), fun hash hhash => ?_⟩
    obtain ⟨Q, hQ, rfl⟩ := Option.map_eq_some_iff.1 hhash
    exact hletters h Q hQ

theorem verdictsAgree_of_ordinary {segwit : Text → Option (List UInt8)}     {sig : CompactSignature}
    (hheader : 31 ≤ header sig.1 ∧ header sig.1 ≤ 34 ∨ 39 ≤ header sig.1 ∧ header sig.1 ≤ 42)
    (hr : IsScalar (sigR sig.1)) (hs : IsScalar (sigS sig.1)) (hlength : message.length < 2 ^ 32)
    (hread : NodeReads L.sha256 network hash) : VerdictsAgree L.toPrimitives segwit network hash sig message := by
  have hcompressed : ∀ n < 43, (31 ≤ n ∧ n ≤ 34 ∨ 39 ≤ n ∧ n ≤ 42) →
      ((BitVec.ofNat 32 n - 27#32) &&& 4#32 != 0#32) = true := by
    decide
  have hbit : Node.fComp sig.1 = true := hcompressed (header sig.1) (by omega) hheader
  obtain ⟨hnoble, hmobile⟩ := walletKey_of_scalars (L := L) (by omega) hr hs message
  have hwallets := walletsRead_of_nodeReads hread
  constructor
  · rw [Web.verifyMessage_eq_ok_true_iff sig.2, messageVerify_eq_ok_iff sig.2, hnoble, hbit]
    exact and_congr_left fun _ => iff_of_true hwallets hread
  · rw [Mobile.verifyMessage_eq_ok_true_iff sig.2, messageVerify_eq_ok_iff sig.2, hmobile, hbit,
      Mobile.messageHash_eq L.sha256 hlength]
    exact and_congr_left fun _ => iff_of_true hwallets hread

/-- **The verdicts agree on all addresses exactly if the signature and the message avoid what the code paths treat
differently.** -/
theorem verifyMessage_agrees_iff (L : Libraries Point) (segwit : Text → Option (List UInt8)) (sig : CompactSignature)
    (message : List UInt8) :
    (∀ network hash, VerdictsAgree L.toPrimitives segwit network hash sig message) ↔
      Alike L.toPrimitives sig.1 message := by
  rw [forall_agree_iff]
  by_cases h : header sig.1 < 27 ∨ header sig.1 > 42
  · exact sameKey_iff_of_header h
  · by_cases hrange : IsScalar (sigR sig.1) ∧ IsScalar (sigS sig.1)
    · exact sameKey_iff_of_ordinary h hrange.1 hrange.2
    · exact sameKey_iff_of_scalars h hrange

end Agreement

def onePointCurve : Primitives Unit where
  sha256 := zeroDigest
  hash160 bytes := ⟨List.replicate 20 (bytes.headD 0), List.length_replicate⟩
  serialize _ compressed := if compressed then [2] else [4]
  secpRecover _ _ _ _ := none
  nobleRecover _ _ _ _ := none
  decompressPoint _ _ := some ()
  isInfinity _ := false
  mul _ _ := some ()
  sub _ _ := some ()
  generator := ()

/-- Recovery on that curve, for `r` and `s` in range. -/
def onePointRecover (recid r s : Nat) (hash : List UInt8) : Option Unit :=
  if IsScalar r ∧ IsScalar s then found (Mobile.recoverPublicKey onePointCurve r s (bytesToBigInt hash) recid) else none

def onePoint : Libraries Unit where
  toPrimitives := { onePointCurve with secpRecover := onePointRecover, nobleRecover := onePointRecover }
  isScalar_of_secpRecover _ _ _ _ h := by
    by_contra hrange
    exact h (if_neg hrange)
  isScalar_of_nobleRecover _ _ _ _ h := by
    by_contra hrange
    exact h (if_neg hrange)
  nobleRecover_eq _ _ _ _ _ _ := rfl
  recoverPublicKey_eq _ _ _ _ hr hs := (if_pos ⟨hr, hs⟩).symm

def uncompressedSignature : CompactSignature :=
  ⟨27 :: (List.replicate 31 0 ++ 1 :: (List.replicate 31 0 ++ [1])), rfl⟩

def uncompressedHash : Hash20 := ⟨List.replicate 20 4, rfl⟩

/-- **The compression bit is not honoured**: the node accepts what is signed with a key that is not compressed, the
wallets do not. -/
theorem uncompressedSignature_rejected_by_wallets :
    Node.messageVerify onePoint.toPrimitives (fun _ => none) (p2pkhAddress zeroDigest uncompressedHash .testnet)
      (some uncompressedSignature.1) [] .testnet = .ok ∧
    Web.verifyMessage onePoint.toPrimitives (p2pkhAddress zeroDigest uncompressedHash .testnet)
      (some uncompressedSignature.1) [] .testnet ≠ .ok true ∧
    Mobile.verifyMessage onePoint.toPrimitives (p2pkhAddress zeroDigest uncompressedHash .testnet)
      (some uncompressedSignature.1) [] .testnet ≠ .ok true := by
  refine ⟨?_, fun h => ?_, fun h => ?_⟩
  · refine (messageVerify_eq_ok_iff uncompressedSignature.2).2 ⟨Node.isBech32_p2pkhAddress_testnet _, ?_⟩
    decide +kernel
  · have hkey := ((Web.verifyMessage_eq_ok_true_iff uncompressedSignature.2).1 h).2
    revert hkey
    decide +kernel
  · have hkey := ((Mobile.verifyMessage_eq_ok_true_iff uncompressedSignature.2).1 h).2
    revert hkey
    decide +kernel

end CodexaCoin.Wallet
