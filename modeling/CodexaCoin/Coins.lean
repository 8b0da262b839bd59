import CodexaCoin.Lib.Check
import CodexaCoin.Lib.Ledger
import CodexaCoin.Lib.Wrap
import CodexaCoin.Script.Script

/-!
# The UTXO view

`coins.h`, `coins.cpp`, `undo.h` and the result types of `consensus/validation.h`. The stack of caches over the coin
database is the one finite map it stands for. A `Coin` carries the proof that it is not spent, so a spent entry is one
that is absent.
-/

namespace CodexaCoin

open Check

/-! ## Results of validation -/

inductive TxValidationResult where
  | txConsensus
  | txMissingInputs
  | txPrematureSpend
  | txNotStandard
deriving DecidableEq, Repr

inductive BlockValidationResult where
  | blockConsensus
  | blockCachedInvalid
  | blockInvalidHeader
  | blockMutated
  | blockMissingPrev
  | blockInvalidPrev
  | blockTimeFuture
  | blockCheckpoint
  | blockHeaderReject
  | blockHeaderSync
  | blockHeaderLowWork
deriving DecidableEq, Repr

/-- Why a check did not return `true`. -/
inductive Reject (R : Type) where
  /-- `state.Invalid(result, reject_reason)`. -/
  | invalid (result : R) (reason : String)
  /-- `return error(message)` or a fatal error, with the state not marked invalid. -/
  | error (message : String)
  /-- An assertion that fails or an exception that nobody catches; the string is its text. -/
  | abort (what : String)
deriving DecidableEq, Repr

abbrev TxCheck := Except (Reject TxValidationResult)

abbrev BlockCheck := Except (Reject BlockValidationResult)

/-- Any transaction failure inside a block is a consensus failure of the block with the same reason. -/
def TxCheck.toBlock {α : Type} : TxCheck α → BlockCheck α
  | .ok a => .ok a
  | .error (.invalid _ reason) => .error (.invalid .blockConsensus reason)
  | .error (.error message) => .error (.error message)
  | .error (.abort what) => .error (.abort what)

@[simp] theorem TxCheck.toBlock_eq_ok {α : Type} {x : TxCheck α} {a : α} : x.toBlock = .ok a ↔ x = .ok a := by
  rcases x with (⟨_, _⟩ | _ | _) | _ <;> simp [TxCheck.toBlock]

/-! ## Coins -/

/-- `Coin`, unspent: its output is not the null output that marks a spent one. -/
structure Coin where
  out : CTxOut
  fCoinBase : Bool
  fCoinStake : Bool
  nHeight : Nat
  nTime : Nat
  unspent : out.nValue ≠ -1
deriving DecidableEq, Repr

abbrev CoinMap := Finmap fun _ : COutPoint => Coin

/-- `CCoinsViewCache`: the coins and the block they belong to. -/
structure CCoinsView where
  coins : CoinMap
  hashBlock : Uint256

abbrev CTxUndo := List Coin

abbrev CBlockUndo := List CTxUndo

namespace CoinMap

variable (m : CoinMap)

def getCoin (o : COutPoint) : Option Coin := m.lookup o

def haveCoin (o : COutPoint) : Bool := (m.lookup o).isSome

def haveInputs (tx : CTransaction) : Bool :=
  tx.isCoinBase || tx.vin.all fun txin => haveCoin m txin.prevout

def getValueIn (tx : CTransaction) : Int :=
  if tx.isCoinBase then 0
  else tx.vin.foldl (fun n txin => wrap64 (n + ((m.lookup txin.prevout).map (·.out.nValue)).getD (-1))) 0

/-- `AddCoin`. The source looks for an unspent coin in the cache alone; every caller has looked the outpoint up
before, so that the cache has whatever the map has there. -/
def addCoin (o : COutPoint) (out : CTxOut) (nHeight : Nat) (fCoinBase fCoinStake : Bool) (nTime : Nat)
    (possibleOverwrite : Bool) : BlockCheck CoinMap :=
  if h : out.nValue ≠ -1 then
    if isUnspendable out.scriptPubKey then .ok m
    else if !possibleOverwrite && haveCoin m o then .error (.abort "Attempted to overwrite an unspent coin")
    else .ok (m.insert o ⟨out, fCoinBase, fCoinStake, nHeight, nTime, h⟩)
  else .error (.abort "assert(!coin.IsSpent())")

def spendCoin (o : COutPoint) : Option (Coin × CoinMap) :=
  (m.lookup o).map fun c => (c, m.erase o)

/-- The inputs of `UpdateCoins`: every one is spent and its coin is kept for the undo data. -/
def spendInputs : (vin : List CTxIn) → CoinMap → BlockCheck (CTxUndo × CoinMap)
  | [], m => .ok ([], m)
  | txin :: vin, m =>
    match spendCoin m txin.prevout with
    | none => .error (.abort "assert(is_spent)")
    | some (c, m1) => do
      let r ← spendInputs vin m1
      .ok (c :: r.1, r.2)

/-- The outputs of `AddCoins` from index `i` on; `tx` gives the flags and the time. -/
def addOutputs (txid : Uint256) (tx : CTransaction) (nHeight : Nat) :
    (i : Nat) → (vout : List CTxOut) → CoinMap → BlockCheck CoinMap
  | _, [], m => .ok m
  | i, out :: vout, m => do
    let m1 ← addCoin m ⟨txid, i⟩ out nHeight tx.isCoinBase tx.isCoinStake tx.nTime tx.isCoinBase
    addOutputs txid tx nHeight (i + 1) vout m1

def addCoins (C : Crypto) (tx : CTransaction) (nHeight : Nat) : BlockCheck CoinMap :=
  addOutputs (tx.getHash C) tx nHeight 0 tx.vout m

/-- `UpdateCoins`: the spent coins and the new map. A coinbase has no inputs to spend. -/
def updateCoins (C : Crypto) (tx : CTransaction) (nHeight : Nat) : BlockCheck (CTxUndo × CoinMap) := do
  let r ← spendInputs (if tx.isCoinBase then [] else tx.vin) m
  let m2 ← addCoins r.2 C tx nHeight
  .ok (r.1, m2)

end CoinMap

/-! ## The ledger behind the view

A transaction is an entry of the ledger of coins: it spends its inputs and creates its spendable outputs. -/

open CoinMap

/-- The coin that `AddCoins` makes of an output, unless the output can never be spent. -/
def newCoin (tx : CTransaction) (nHeight : Nat) (out : CTxOut) : Option Coin :=
  if h : out.nValue ≠ -1 then
    if isUnspendable out.scriptPubKey then none
    else some ⟨out, tx.isCoinBase, tx.isCoinStake, nHeight, tx.nTime, h⟩
  else none

/-- The coins of the outputs from index `i` on, with their outpoints. -/
def newItems (txid : Uint256) (tx : CTransaction) (nHeight : Nat) : (i : Nat) → List CTxOut → List (COutPoint × Coin)
  | _, [] => []
  | i, out :: vout =>
    match newCoin tx nHeight out with
    | some c => (⟨txid, i⟩, c) :: newItems txid tx nHeight (i + 1) vout
    | none => newItems txid tx nHeight (i + 1) vout

/-- The ledger entry of a transaction in a block at a height. -/
def CTransaction.entry (C : Crypto) (nHeight : Nat) (tx : CTransaction) : Ledger.Entry COutPoint Coin where
  spends := (if tx.isCoinBase then [] else tx.vin).map (·.prevout)
  creates := newItems (tx.getHash C) tx nHeight 0 tx.vout

section Steps

variable {m m' : CoinMap} {o : COutPoint} {out : CTxOut} {tx : CTransaction} {nHeight i : Nat} {txid : Uint256}
  {txin : CTxIn} {vin : List CTxIn} {vout : List CTxOut} {undo : CTxUndo} {kv : COutPoint × Coin}

theorem newCoin_eq_some {c : Coin} (h : newCoin tx nHeight out = some c) :
    isUnspendable out.scriptPubKey = false ∧ c.out = out ∧ c.fCoinBase = tx.isCoinBase ∧
      c.fCoinStake = tx.isCoinStake ∧ c.nHeight = nHeight ∧ c.nTime = tx.nTime := by
  unfold newCoin at h
  split at h
  · split at h
    · cases h
    · next hu => cases h; exact ⟨by simpa using hu, rfl, rfl, rfl, rfl, rfl⟩
  · cases h

theorem mem_newItems (h : kv ∈ newItems txid tx nHeight i vout) :
    ∃ j out, kv.1 = ⟨txid, i + j⟩ ∧ vout[j]? = some out ∧ newCoin tx nHeight out = some kv.2 := by
  induction vout generalizing i with
  | nil => cases h
  | cons out vout ih =>
    have hlater : kv ∈ newItems txid tx nHeight (i + 1) vout →
        ∃ j out', kv.1 = ⟨txid, i + j⟩ ∧ (out :: vout)[j]? = some out' ∧ newCoin tx nHeight out' = some kv.2 := by
      intro hmem
      obtain ⟨j, out', hkey, hout, hcoin⟩ := ih hmem
      exact ⟨j + 1, out', by rw [hkey, Nat.add_assoc, Nat.add_comm 1], by simpa using hout, hcoin⟩
    unfold newItems at h
    split at h
    · next c hc =>
      rcases List.mem_cons.1 h with rfl | h
      · exact ⟨0, out, rfl, rfl, hc⟩
      · exact hlater h
    · exact hlater h

theorem newItems_key {k : COutPoint} (h : k ∈ (newItems txid tx nHeight i vout).map Prod.fst) :
    ∃ j, i ≤ j ∧ j < i + vout.length ∧ k = ⟨txid, j⟩ := by
  obtain ⟨kv, hkv, rfl⟩ := List.mem_map.1 h
  obtain ⟨j, out, hkey, hout, -⟩ := mem_newItems hkv
  have hj := (List.getElem?_eq_some_iff.1 hout).1
  exact ⟨i + j, by omega, by omega, hkey⟩

theorem newItems_coin (h : kv ∈ newItems txid tx nHeight i vout) :
    ∃ out ∈ vout, newCoin tx nHeight out = some kv.2 := by
  obtain ⟨j, out, -, hout, hcoin⟩ := mem_newItems h
  exact ⟨out, List.mem_of_getElem? hout, hcoin⟩

theorem sum_newItems {f : CTxOut → Int} (hvalues : ∀ out ∈ vout, out.nValue ≠ -1)
    (hf : ∀ out, isUnspendable out.scriptPubKey = true → f out = 0) :
    ((newItems txid tx nHeight i vout).map fun kv => f kv.2.out).sum = (vout.map f).sum := by
  induction vout generalizing i with
  | nil => rfl
  | cons out vout ih =>
    have hrest := ih (i := i + 1) fun out' h' => hvalues out' (List.mem_cons_of_mem _ h')
    rw [List.map_cons, List.sum_cons, newItems]
    cases hc : newCoin tx nHeight out with
    | some c => rw [List.map_cons, List.sum_cons, hrest, (newCoin_eq_some hc).2.1]
    | none =>
      have hburnt : isUnspendable out.scriptPubKey = true := by
        simpa [newCoin, hvalues out List.mem_cons_self] using hc
      rw [hrest, hf out hburnt, Int.zero_add]

theorem newItems_nodup : ((newItems txid tx nHeight i vout).map Prod.fst).Nodup := by
  induction vout generalizing i with
  | nil => exact List.nodup_nil
  | cons out vout ih =>
    unfold newItems
    split
    · rw [List.map_cons, List.nodup_cons]
      refine ⟨fun h => ?_, ih⟩
      obtain ⟨j, hj, -, heq⟩ := newItems_key h
      cases heq
      omega
    · exact ih

theorem spendInputs_eq_ok (h : spendInputs vin m = .ok (undo, m')) :
    m' = Ledger.spend m (vin.map (·.prevout)) ∧ (vin.map (·.prevout)).Nodup ∧
      List.Forall₂ (fun o c => m.lookup o = some c) (vin.map (·.prevout)) undo := by
  induction vin generalizing m undo with
  | nil => cases h; simp
  | cons txin vin ih =>
    rw [spendInputs, spendCoin] at h
    cases hc : m.lookup txin.prevout with
    | none => rw [hc] at h; cases h
    | some c =>
      rw [hc] at h
      obtain ⟨⟨undo', m1⟩, hrest, heq⟩ := bind_eq_ok.1 h
      cases heq
      obtain ⟨rfl, hnodup, hundo⟩ := ih hrest
      have hne : ∀ o ∈ vin.map (·.prevout), o ≠ txin.prevout := by
        rintro o ho rfl
        obtain ⟨c', -, hc'⟩ := exists_of_mem_of_forall₂ hundo ho
        rw [Finmap.lookup_erase] at hc'
        cases hc'
      refine ⟨rfl, List.nodup_cons.2 ⟨fun hmem => hne _ hmem rfl, hnodup⟩, .cons hc ?_⟩
      refine forall₂_imp_of_mem hundo fun o c' ho hc' => ?_
      rwa [Finmap.lookup_erase_ne (hne o ho)] at hc'

theorem addCoin_cases (h : addCoin m o out nHeight tx.isCoinBase tx.isCoinStake tx.nTime tx.isCoinBase = .ok m') :
    out.nValue ≠ -1 ∧ ((newCoin tx nHeight out = none ∧ m' = m) ∨
      ∃ c, newCoin tx nHeight out = some c ∧ (tx.isCoinBase = false → o ∉ m) ∧ m' = m.insert o c) := by
  unfold addCoin at h
  split at h
  · next hv =>
    refine ⟨hv, ?_⟩
    split at h
    · next hu => cases h; exact .inl ⟨by simp [newCoin, hv, hu], rfl⟩
    · next hu =>
      split at h
      · cases h
      · next hover =>
        cases h
        refine .inr ⟨_, by simp [newCoin, hv, hu], fun hcb hmem => hover ?_, rfl⟩
        simp [hcb, haveCoin, Finmap.lookup_isSome.2 hmem]
  · cases h

theorem addOutputs_eq_ok (h : addOutputs txid tx nHeight i vout m = .ok m') :
    m' = Ledger.create m (newItems txid tx nHeight i vout) ∧ (∀ out ∈ vout, out.nValue ≠ -1) ∧
      (tx.isCoinBase = false → ∀ k ∈ (newItems txid tx nHeight i vout).map Prod.fst, k ∉ m) := by
  induction vout generalizing i m with
  | nil => cases h; simp [newItems]
  | cons out vout ih =>
    obtain ⟨m1, h1, h2⟩ := bind_eq_ok.1 h
    obtain ⟨rfl, hvalues, hfresh⟩ := ih h2
    obtain ⟨hv, ⟨hnone, rfl⟩ | ⟨c, hc, hnew, rfl⟩⟩ := addCoin_cases h1
    · rw [newItems, hnone]
      exact ⟨rfl, by simpa using ⟨hv, hvalues⟩, hfresh⟩
    · rw [newItems, hc]
      refine ⟨rfl, by simpa using ⟨hv, hvalues⟩, fun hcb k hk => ?_⟩
      rcases List.mem_cons.1 hk with rfl | hk
      · exact hnew hcb
      · exact fun hmem => hfresh hcb k hk (Finmap.mem_insert.2 (.inr hmem))

/-- **`UpdateCoins` applies the entry of the transaction**, and the entry is valid; the outputs of a coinbase have to
be known to be new. -/
theorem updateCoins_eq_ok {C : Crypto} (h : updateCoins m C tx nHeight = .ok (undo, m'))
    (hnew : tx.isCoinBase = true → ∀ j < tx.vout.length, (⟨tx.getHash C, j⟩ : COutPoint) ∉ m) :
    m' = (tx.entry C nHeight).apply m ∧ Ledger.Valid m (tx.entry C nHeight) undo ∧
      ∀ out ∈ tx.vout, out.nValue ≠ -1 := by
  obtain ⟨⟨undo', m1⟩, hspend, h⟩ := bind_eq_ok.1 h
  obtain ⟨m2, hadd, heq⟩ := bind_eq_ok.1 h
  cases heq
  obtain ⟨rfl, hnodup, hundo⟩ := spendInputs_eq_ok hspend
  obtain ⟨rfl, hvalues, hfresh⟩ := addOutputs_eq_ok hadd
  refine ⟨rfl, ⟨hnodup, hundo, newItems_nodup, fun k hk => ?_⟩, hvalues⟩
  cases hcb : tx.isCoinBase with
  | false => exact hfresh hcb k hk
  | true =>
    obtain ⟨j, -, hj, rfl⟩ := newItems_key hk
    have hj := hnew hcb j (by simpa using hj)
    simpa [CTransaction.entry, hcb] using hj

end Steps

end CodexaCoin
