import CodexaCoin.Unserialize
import CodexaCoin.Script.SigHash

/-!
# Transactions of the wallets

`web-wallet/crypto.js` and `cac_wallet/lib/crypto/transaction.dart` each write, hash and sign legacy transactions by
themselves. Byte strings that the sources keep as hex texts are byte strings here.
-/

namespace CodexaCoin.Wallet

open Wire Check

/-! ## Common parts -/

/-- Twenty bytes, a `hash160`. -/
abbrev Hash20 := { bs : List UInt8 // bs.length = 20 }

abbrev PublicKey := { bs : List UInt8 // bs.length = 33 }

def secp256k1N : Nat := 0xfffffffffffffffffffffffffffffffebaaedce6af48a03bbfd25e8cd0364141

structure ECSignature where
  r : Nat
  s : Nat
  r_lt : r < secp256k1N
  s_lt : s < secp256k1N
deriving DecidableEq

def varInt (n : Nat) : List UInt8 :=
  if n < 0xfd then [UInt8.ofNat n]
  else if n ≤ 0xffff then 0xfd :: serLE 2 n
  else if n ≤ 0xffffffff then 0xfe :: serLE 4 n
  else 0xff :: serLE 8 n

theorem varInt_eq (n : Nat) : varInt n = writeCompactSize n := rfl

def u32le (n : Nat) : List UInt8 := serLE 4 n

def u64le (n : Int) : List UInt8 := serInt 8 n

def p2pkhScriptPubKey (pubkeyHash20 : Hash20) : List UInt8 :=
  [0x76, 0xa9, 0x14] ++ pubkeyHash20.1 ++ [0x88, 0xac]

def p2shScriptPubKey (scriptHash20 : Hash20) : List UInt8 :=
  [0xa9, 0x14] ++ scriptHash20.1 ++ [0x87]

def p2wpkhScriptPubKey (pubkeyHash20 : Hash20) : List UInt8 :=
  [0x00, 0x14] ++ pubkeyHash20.1

structure TxOutputSpec where
  scriptPubKey : List UInt8
  valueSatoshis : Int
deriving DecidableEq, Repr

/-- The bytes of a positive number, the most significant first, and one zero byte for zero: hex digits in pairs. -/
def bigIntToBytes (v : Nat) : List UInt8 :=
  if v = 0 then [0] else (Nat.digits 256 v).reverse.map UInt8.ofNat

/-- `encodeInt` of both DER encoders: a first byte with its top bit set gets a zero byte in front. -/
def encodeInt (v : Nat) : List UInt8 :=
  let bytes := bigIntToBytes v
  let bytes := if bytes.head?.any (0x80 ≤ ·) then 0 :: bytes else bytes
  [0x02, UInt8.ofNat bytes.length] ++ bytes

def derEncode (r s : Nat) : List UInt8 :=
  let rEnc := encodeInt r
  let sEnc := encodeInt s
  [0x30, UInt8.ofNat (rEnc.length + sEnc.length)] ++ rEnc ++ sEnc

def p2pkhScriptSig (sigWithType : List UInt8) (publicKey : PublicKey) : List UInt8 :=
  [UInt8.ofNat sigWithType.length] ++ sigWithType ++ ([UInt8.ofNat publicKey.1.length] ++ publicKey.1)

theorem length_encodeInt_le {v : Nat} (h : v < 2 ^ 256) : (encodeInt v).length ≤ 35 := by
  have hbytes : (bigIntToBytes v).length ≤ 32 := by
    unfold bigIntToBytes
    split
    · decide
    · rw [List.length_map, List.length_reverse]
      exact (Nat.digits_length_le_iff (by decide) v).2 (by omega)
  unfold encodeInt
  dsimp only
  split <;> simp only [List.length_append, List.length_cons, List.length_nil] <;> omega

/-! ## The web wallet -/

namespace Web

/-- An input of a transaction under construction; `sequence` may be undefined. -/
structure TxIn where
  prevTxid : Uint256
  prevVout : Nat
  scriptSig : List UInt8 := []
  sequence : Option Nat := none
deriving DecidableEq, Repr

/-- The bytes of an input in `serializeTx`. -/
def serializeTxIn (inp : TxIn) : List UInt8 :=
  serUint256 inp.prevTxid ++ u32le inp.prevVout ++ (varInt inp.scriptSig.length ++ inp.scriptSig) ++
    u32le (inp.sequence.getD 0xffffffff)

/-- The bytes of an output in `serializeTx`. -/
def serializeTxOut (out : TxOutputSpec) : List UInt8 :=
  u64le out.valueSatoshis ++ (varInt out.scriptPubKey.length ++ out.scriptPubKey)

def serializeTx (version : Int) (inputs : List TxIn) (outputs : List TxOutputSpec) (locktime : Nat) : List UInt8 :=
  serInt 4 version ++ (varInt inputs.length ++ (inputs.map serializeTxIn).flatten) ++
    (varInt outputs.length ++ (outputs.map serializeTxOut).flatten) ++ u32le locktime

def blanked (inputs : List TxIn) (inputIndex : Nat) (subscript : List UInt8) : List TxIn :=
  inputs.zipIdx.map fun (inp, i) => { inp with scriptSig := if i = inputIndex then subscript else [] }

def legacySighash (C : Crypto) (inputs : List TxIn) (outputs : List TxOutputSpec) (inputIndex : Nat)
    (subscript : List UInt8) (locktime : Nat) : Uint256 :=
  let preimage := serializeTx 2 (blanked inputs inputIndex subscript) outputs locktime
  C.hash256 (preimage ++ u32le 1)

/-- `derEncodeSignature`; the signing library has already made `s` the lower of its two values. -/
def derEncodeSignature (sig : ECSignature) : List UInt8 := derEncode sig.r sig.s

/-- An input of `buildAndSignTransaction`; its own keys come before the common ones. -/
structure Utxo where
  txid : Uint256
  vout : Nat
  valueSatoshis : Int
  pubkeyHash : Hash20
  privateKey : Option (List UInt8) := none
  publicKeyCompressed : Option PublicKey := none
  sequence : Option Nat := none

section Signing

variable (C : Crypto) (sign : Uint256 → List UInt8 → ECSignature) (outputs : List TxOutputSpec)
  (privateKey : Option (List UInt8)) (publicKeyCompressed : Option PublicKey) (locktime : Nat)

def inputKeys (u : Utxo) : Option (List UInt8 × PublicKey) :=
  match u.privateKey <|> privateKey, u.publicKeyCompressed <|> publicKeyCompressed with
  | some key, some pub => some (key, pub)
  | _, _ => none

/-- The script with which input `i` is signed. -/
def signedScript (txInputs : List TxIn) (u : Utxo) (i : Nat) (keys : List UInt8 × PublicKey) : List UInt8 :=
  let sighash := legacySighash C txInputs outputs i (p2pkhScriptPubKey u.pubkeyHash) locktime
  p2pkhScriptSig (derEncodeSignature (sign sighash keys.1) ++ [0x01]) keys.2

/-- One round of the signing loop; an undefined key makes the library throw. -/
def signInput (txInputs : List TxIn) (p : Utxo × Nat) : Except String (List TxIn) :=
  match inputKeys privateKey publicKeyCompressed p.1 with
  | none => .error "secp.sign"
  | some keys => .ok (txInputs.modify p.2 fun t =>
      { t with scriptSig := signedScript C sign outputs locktime txInputs p.1 p.2 keys })

def unsigned (u : Utxo) : TxIn := ⟨u.txid, u.vout, [], some (u.sequence.getD 0xfffffffd)⟩

def buildAndSignTransaction (inputs : List Utxo) : Except String (List UInt8) := do
  if inputs.isEmpty then .error "No inputs provided"
  else
    let txInputs ← inputs.zipIdx.foldlM (signInput C sign outputs privateKey publicKeyCompressed locktime)
      (inputs.map unsigned)
    .ok (serializeTx 2 txInputs outputs locktime)

end Signing

end Web

/-! ## The mobile wallet -/

namespace Mobile

structure TxInput where
  prevTxid : Uint256
  prevVout : Nat
  scriptSig : List UInt8
  sequence : Nat := 0xffffffff
deriving DecidableEq, Repr

def serialize (version : Int) (inputs : List TxInput) (outputs : List TxOutputSpec) (locktime : Nat) : List UInt8 :=
  serInt 4 version ++ varInt inputs.length ++
    (inputs.flatMap fun input => serUint256 input.prevTxid ++ u32le input.prevVout ++ varInt input.scriptSig.length ++
      input.scriptSig ++ u32le input.sequence) ++
    varInt outputs.length ++
    (outputs.flatMap fun output => u64le output.valueSatoshis ++ varInt output.scriptPubKey.length ++
      output.scriptPubKey) ++
    u32le locktime

def legacySighash (C : Crypto) (inputs : List TxInput) (outputs : List TxOutputSpec) (inputIndex : Nat)
    (subscript : List UInt8) (locktime : Nat) : Uint256 :=
  let blanked : List TxInput := inputs.zipIdx.map fun (input, i) =>
    ⟨input.prevTxid, input.prevVout, if i = inputIndex then subscript else [], input.sequence⟩
  C.hash256 (serialize 2 blanked outputs locktime ++ u32le 0x01)

/-- The lower of the two values of `s` that verify. -/
def lowS (sig : ECSignature) : ECSignature :=
  if h : secp256k1N / 2 < sig.s then
    ⟨sig.r, secp256k1N - sig.s, sig.r_lt, Nat.sub_lt (by decide) (by omega)⟩
  else sig

def derEncodeSignature (sig : ECSignature) : List UInt8 :=
  let s := if secp256k1N / 2 < sig.s then secp256k1N - sig.s else sig.s
  derEncode sig.r s

structure Utxo where
  txid : Uint256
  vout : Nat
  valueSatoshis : Int
  pubkeyHash : Hash20
  privateKey : Option (List UInt8) := none
  publicKeyCompressed : Option PublicKey := none
  sequence : Nat := 0xfffffffd

section Signing

variable (C : Crypto) (sign : Uint256 → List UInt8 → ECSignature) (outputs : List TxOutputSpec)
  (privateKey : Option (List UInt8)) (publicKeyCompressed : Option PublicKey) (locktime : Nat)

def signInput (txInputs : List TxInput) (p : Utxo × Nat) : Except String (List TxInput) :=
  match p.1.privateKey <|> privateKey, p.1.publicKeyCompressed <|> publicKeyCompressed with
  | some inputPrivateKey, some inputPublicKey =>
    let subscript := p2pkhScriptPubKey p.1.pubkeyHash
    let sighash := legacySighash C txInputs outputs p.2 subscript locktime
    let sigWithType := derEncodeSignature (sign sighash inputPrivateKey) ++ [0x01]
    .ok (txInputs.modify p.2 fun t => { t with scriptSig := p2pkhScriptSig sigWithType inputPublicKey })
  | _, _ => .error ("Input " ++ toString p.2 ++ " has no signing key (neither its own nor a global fallback)")

def buildAndSignTransaction (inputs : List Utxo) : Except String (List UInt8) := do
  if inputs.isEmpty then .error "No inputs provided"
  else
    let txInputs ← inputs.zipIdx.foldlM (signInput C sign outputs privateKey publicKeyCompressed locktime)
      (inputs.map fun u => ⟨u.txid, u.vout, [], u.sequence⟩)
    .ok (serialize 2 txInputs outputs locktime)

end Signing

end Mobile

/-! ## What the loops build -/

theorem modify_append_cons {α : Type} (done : List α) (x : α) (rest : List α) (f : α → α) :
    (done ++ x :: rest).modify done.length f = done ++ f x :: rest := by
  induction done with
  | nil => rfl
  | cons y done ih => exact congrArg (y :: ·) ih

theorem map_modify {α β : Type} (g : α → β) {f : α → α} {f' : β → β} (h : ∀ x, g (f x) = f' (g x)) (l : List α)
    (i : Nat) :
    (l.modify i f).map g = (l.map g).modify i f' := by
  induction l generalizing i with
  | nil => simp
  | cons x l ih =>
    cases i with
    | zero => simp [h]
    | succ i => simp [ih]

namespace Web

def TxIn.blank (t : TxIn) : TxIn := { t with scriptSig := [] }

theorem blanked_map_blank (inputs : List TxIn) (inputIndex : Nat) (subscript : List UInt8) :
    blanked (inputs.map TxIn.blank) inputIndex subscript = blanked inputs inputIndex subscript := by
  simp [blanked, List.zipIdx_map, TxIn.blank, Function.comp_def]

section Signing

variable {C : Crypto} {sign : Uint256 → List UInt8 → ECSignature} {outputs : List TxOutputSpec}
  {privateKey : Option (List UInt8)} {publicKeyCompressed : Option PublicKey} {locktime : Nat}

theorem legacySighash_congr {inputs inputs' : List TxIn} (i : Nat) (subscript : List UInt8)
    (h : inputs.map TxIn.blank = inputs'.map TxIn.blank) :
    legacySighash C inputs outputs i subscript locktime = legacySighash C inputs' outputs i subscript locktime := by
  rw [legacySighash, legacySighash, ← blanked_map_blank inputs, h, blanked_map_blank]

theorem signedScript_congr {inputs inputs' : List TxIn} (u : Utxo) (i : Nat) (keys : List UInt8 × PublicKey)
    (h : inputs.map TxIn.blank = inputs'.map TxIn.blank) :
    signedScript C sign outputs locktime inputs u i keys = signedScript C sign outputs locktime inputs' u i keys := by
  rw [signedScript, signedScript, legacySighash_congr i _ h]

variable (C sign outputs privateKey publicKeyCompressed locktime) in
/-- The signed input `i`: the signature is over the unsigned inputs. -/
def signedIn (inputs : List Utxo) (p : Utxo × Nat) : TxIn :=
  { unsigned p.1 with scriptSig := ((inputKeys privateKey publicKeyCompressed p.1).map
      (signedScript C sign outputs locktime (inputs.map unsigned) p.1 p.2)).getD [] }

theorem foldlM_signInput {inputs : List Utxo} (todo : List Utxo) (done : List TxIn)
    (hbase : (done ++ todo.map unsigned).map TxIn.blank = inputs.map unsigned)
    (hkeys : ∀ u ∈ todo, (inputKeys privateKey publicKeyCompressed u).isSome) :
    (todo.zipIdx done.length).foldlM (signInput C sign outputs privateKey publicKeyCompressed locktime)
        (done ++ todo.map unsigned) =
      .ok (done ++ (todo.zipIdx done.length).map
        (signedIn C sign outputs privateKey publicKeyCompressed locktime inputs)) := by
  induction todo generalizing done with
  | nil => simp [pure, Except.pure]
  | cons u todo ih =>
    rw [List.map_cons] at hbase
    obtain ⟨keys, hu⟩ := Option.isSome_iff_exists.1 (hkeys u List.mem_cons_self)
    have hblank : (inputs.map unsigned).map TxIn.blank = inputs.map unsigned := by
      rw [List.map_map]; rfl
    have hstep : signInput C sign outputs privateKey publicKeyCompressed locktime
      (done ++ unsigned u :: todo.map unsigned)
        (u, done.length) =
        .ok ((done ++ [signedIn C sign outputs privateKey publicKeyCompressed locktime inputs (u, done.length)]) ++
          todo.map unsigned) := by
      simp only [signInput, hu, modify_append_cons, signedIn, Option.map_some, Option.getD_some]
      rw [signedScript_congr u done.length keys (hbase.trans hblank.symm)]
      simp
    rw [List.zipIdx_cons, List.map_cons, List.foldlM_cons, hstep, List.map_cons, Check.ok_bind]
    have hlen : done.length + 1 =
      (done ++ [signedIn C sign outputs privateKey publicKeyCompressed locktime inputs (u, done.length)]).length :=
        by simp
    rw [hlen, ih _ ?_ fun v hv => hkeys v (List.mem_cons_of_mem _ hv)]
    · simp
    · rw [← hbase]
      simp [signedIn, TxIn.blank]

/-- **What the web wallet builds**, when every input has its keys. -/
theorem buildAndSignTransaction_eq {inputs : List Utxo} (hne : inputs ≠ [])
    (hkeys : ∀ u ∈ inputs, (inputKeys privateKey publicKeyCompressed u).isSome) :
    buildAndSignTransaction C sign outputs privateKey publicKeyCompressed locktime inputs =
      .ok (serializeTx 2 (inputs.zipIdx.map (signedIn C sign outputs privateKey publicKeyCompressed locktime inputs))
        outputs locktime) := by
  have hloop : inputs.zipIdx.foldlM (signInput C sign outputs privateKey publicKeyCompressed locktime)
      (inputs.map unsigned) = _ := foldlM_signInput inputs [] (by rw [List.nil_append, List.map_map]; rfl) hkeys
  rw [buildAndSignTransaction, if_neg (by simpa using hne), hloop]
  rfl

end Signing

/-- The transaction that the inputs and outputs describe. -/
def transactionOf (inputs : List TxIn) (outputs : List TxOutputSpec) (locktime : Nat) : CTransaction :=
  { vin := inputs.map fun inp => ⟨⟨inp.prevTxid, inp.prevVout⟩, inp.scriptSig, inp.sequence.getD 0xffffffff, []⟩
    vout := outputs.map fun out => ⟨out.valueSatoshis, out.scriptPubKey⟩
    nVersion := 2
    nLockTime := locktime }

theorem hasWitness_transactionOf (inputs : List TxIn) (outputs : List TxOutputSpec) (locktime : Nat) :
    (transactionOf inputs outputs locktime).hasWitness = false := by
  simp [transactionOf, CTransaction.hasWitness]

/-- **The wallet writes transactions as the node does.** -/
theorem serializeTx_eq (inputs : List TxIn) (outputs : List TxOutputSpec) (locktime : Nat) (w : Bool) :
    serializeTx 2 inputs outputs locktime = (transactionOf inputs outputs locktime).serialize w := by
  have hin : (inputs.map serializeTxIn).flatten =
      ((transactionOf inputs outputs locktime).vin.map CTxIn.serialize).flatten := by
    rw [transactionOf, List.map_map]; rfl
  have hout : (outputs.map serializeTxOut).flatten =
      ((transactionOf inputs outputs locktime).vout.map CTxOut.serialize).flatten := by
    rw [transactionOf, List.map_map]; rfl
  rw [CTransaction.serialize, hasWitness_transactionOf, serializeTx, hin, hout]
  simp [transactionOf, serVector, varInt_eq, u32le]

end Web

namespace Mobile

def TxInput.toWeb (t : TxInput) : Web.TxIn := ⟨t.prevTxid, t.prevVout, t.scriptSig, some t.sequence⟩

def Utxo.toWeb (u : Utxo) : Web.Utxo :=
  ⟨u.txid, u.vout, u.valueSatoshis, u.pubkeyHash, u.privateKey, u.publicKeyCompressed, some u.sequence⟩

theorem serialize_eq (version : Int) (inputs : List TxInput) (outputs : List TxOutputSpec) (locktime : Nat) :
    serialize version inputs outputs locktime = Web.serializeTx version (inputs.map TxInput.toWeb) outputs locktime := by
  have hin : (inputs.map TxInput.toWeb).map Web.serializeTxIn =
    inputs.map fun input => serUint256 input.prevTxid ++ u32le input.prevVout ++
      varInt input.scriptSig.length ++ input.scriptSig ++ u32le input.sequence := by
    rw [List.map_map]
    exact List.map_congr_left fun input _ => by simp [Web.serializeTxIn, TxInput.toWeb]
  have hout : outputs.map Web.serializeTxOut =
    outputs.map fun output => u64le output.valueSatoshis ++ varInt output.scriptPubKey.length ++
      output.scriptPubKey := List.map_congr_left fun output _ => by simp [Web.serializeTxOut]
  rw [serialize, Web.serializeTx, hin, hout]
  simp [List.flatMap_def]

theorem legacySighash_eq (C : Crypto) (inputs : List TxInput) (outputs : List TxOutputSpec) (i : Nat)
    (subscript : List UInt8) (locktime : Nat) :
    legacySighash C inputs outputs i subscript locktime =
      Web.legacySighash C (inputs.map TxInput.toWeb) outputs i subscript locktime := by
  rw [legacySighash, Web.legacySighash, serialize_eq, Web.blanked]
  simp [List.zipIdx_map, TxInput.toWeb, Function.comp_def]

theorem derEncodeSignature_eq (sig : ECSignature) : derEncodeSignature sig = Web.derEncodeSignature (lowS sig) := by
  unfold derEncodeSignature Web.derEncodeSignature lowS
  dsimp only
  split <;> rfl

section Signing

variable {C : Crypto} {sign signWeb : Uint256 → List UInt8 → ECSignature} {outputs : List TxOutputSpec}
  {privateKey : Option (List UInt8)} {publicKeyCompressed : Option PublicKey} {locktime : Nat}

theorem signInput_eq (hsign : ∀ digest key, signWeb digest key = lowS (sign digest key)) (txInputs : List TxInput)
    (p : Utxo × Nat) :
    ((signInput C sign outputs privateKey publicKeyCompressed locktime txInputs p).toOption).map
      (List.map TxInput.toWeb) =
      (Web.signInput C signWeb outputs privateKey publicKeyCompressed locktime (txInputs.map TxInput.toWeb)
        (p.1.toWeb, p.2)).toOption := by
  unfold signInput Web.signInput Web.inputKeys
  rw [show p.1.toWeb.privateKey = p.1.privateKey from rfl,
    show p.1.toWeb.publicKeyCompressed = p.1.publicKeyCompressed from rfl]
  cases p.1.privateKey <|> privateKey with
  | none => rfl
  | some key =>
    cases p.1.publicKeyCompressed <|> publicKeyCompressed with
    | none => rfl
    | some pub =>
      refine congrArg some (map_modify _ (fun t => ?_) _ _)
      simp only [Web.signedScript, hsign, derEncodeSignature_eq, legacySighash_eq]
      rfl

/-- **Given the same signatures the mobile wallet builds the bytes of the web wallet**, or fails as it does. -/
theorem buildAndSignTransaction_toOption (hsign : ∀ digest key, signWeb digest key = lowS (sign digest key))
    (inputs : List Utxo) :
    (buildAndSignTransaction C sign outputs privateKey publicKeyCompressed locktime inputs).toOption =
      (Web.buildAndSignTransaction C signWeb outputs privateKey publicKeyCompressed locktime
        (inputs.map Utxo.toWeb)).toOption := by
  have hloop : ((inputs.zipIdx.foldlM (signInput C sign outputs privateKey publicKeyCompressed locktime)
        (inputs.map fun u => ⟨u.txid, u.vout, [], u.sequence⟩)).toOption).map (List.map TxInput.toWeb) =
      ((inputs.map Utxo.toWeb).zipIdx.foldlM (Web.signInput C signWeb outputs privateKey publicKeyCompressed locktime)
        ((inputs.map Utxo.toWeb).map Web.unsigned)).toOption := by
    rw [toOption_foldlM_map _ (fun p : Utxo × Nat => (p.1.toWeb, p.2)) (signInput_eq hsign), List.zipIdx_map,
      List.map_map, List.map_map]
    rfl
  have hempty : (inputs.map Utxo.toWeb).isEmpty = inputs.isEmpty := by cases inputs <;> rfl
  rw [buildAndSignTransaction, Web.buildAndSignTransaction, hempty]
  split
  · rfl
  · rw [toOption_bind_ok, toOption_bind_ok, ← hloop, Option.map_map]
    exact congrArg (Option.map · _) (funext fun txInputs => serialize_eq 2 txInputs outputs locktime)

end Signing

end Mobile
end CodexaCoin.Wallet
