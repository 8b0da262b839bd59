import CodexaCoin.Gateway.Programs
import CodexaCoin.Lib.History

/-!
# The chain behind the gateway

The transactions of the node, the outputs they leave unspent and the coinstakes that descend from an output.
-/

namespace CodexaCoin.Gateway

open History

/-- The node and the pool's wallet: the address of a script (`ExtractDestination`), the addresses of the wallet, and
whether the wallet takes an output as an input of a payment (it is confirmed, mature and not locked). -/
structure Node where
  extract : CScript → Option Address
  mine : Address → Bool
  spendable : List WalletTx → COutPoint → Bool

def Node.owns (N : Node) (out : CTxOut) : Bool := (N.extract out.scriptPubKey).any N.mine

def WalletTx.entry (t : WalletTx) : Ledger.Entry COutPoint CTxOut where
  spends := (if t.tx.isCoinBase then [] else t.tx.vin).map (·.prevout)
  creates := t.tx.vout.zipIdx.map fun p => (⟨t.txid, p.2⟩, p.1)

abbrev outputs (txs : List WalletTx) : List (COutPoint × CTxOut) := created WalletTx.entry txs

abbrev utxos (chain : List WalletTx) : Ledger.State COutPoint CTxOut := unspent WalletTx.entry chain

def State.known (s : State) : List WalletTx := s.chain ++ s.stale

/-! ## Outputs and inputs -/

def outputAt (txs : List WalletTx) (o : COutPoint) : Option CTxOut :=
  ((outputs txs).find? fun c => decide (c.1 = o)).map (·.2)

/-- What a transaction pays. -/
def outputValue (tx : CTransaction) : Int := (tx.vout.map (·.nValue)).sum

/-- What a transaction spends. -/
def inputValue (txs : List WalletTx) (tx : CTransaction) : Int :=
  (tx.vin.map fun i => ((outputAt txs i.prevout).map (·.nValue)).getD 0).sum

/-- The outputs of a coinstake less its inputs. -/
def grossReward (txs : List WalletTx) (t : WalletTx) : Int := outputValue t.tx - inputValue txs t.tx

/-- `out_total - in_total` of `_attribute_rewards`: every amount is a double, and is rounded on its own. -/
def recordedReward (txs : List WalletTx) (t : WalletTx) : Int :=
  (t.tx.vout.map fun out => readSatoshis out.nValue).sum -
    (t.tx.vin.map fun i => ((outputAt txs i.prevout).map fun out => readSatoshis out.nValue).getD 0).sum

/-- The amount is below 2^25 coins, where a double has room for all its digits. -/
def Small (out : CTxOut) : Prop := out.nValue < 3355443200000000

instance (out : CTxOut) : Decidable (Small out) := inferInstanceAs (Decidable (_ < _))

/-- The amounts that a transaction pays and spends are small. -/
def SmallTx (txs : List WalletTx) (t : WalletTx) : Prop :=
  (∀ out ∈ t.tx.vout, Small out) ∧ ∀ c ∈ outputs txs, c.1 ∈ t.entry.spends → Small c.2

instance (txs : List WalletTx) (t : WalletTx) : Decidable (SmallTx txs t) :=
  inferInstanceAs (Decidable (_ ∧ _))

/-- The coins of the pool are small. -/
def SmallCoins (N : Node) (txs : List WalletTx) : Prop := ∀ c ∈ outputs txs, N.owns c.2 = true → Small c.2

instance (N : Node) (txs : List WalletTx) : Decidable (SmallCoins N txs) :=
  inferInstanceAs (Decidable (∀ c ∈ outputs txs, _))

section

variable {t : WalletTx} {txs : List WalletTx} {o : COutPoint} {out : CTxOut}

theorem mem_creates : (o, out) ∈ t.entry.creates ↔ o.hash = t.txid ∧ t.tx.vout[o.n]? = some out := by
  simp only [WalletTx.entry, List.mem_map, Prod.exists, List.mem_zipIdx_iff_getElem?, Prod.mk.injEq]
  constructor
  · rintro ⟨out', n, hout, rfl, rfl⟩
    exact ⟨rfl, hout⟩
  · rintro ⟨hhash, hout⟩
    exact ⟨out, o.n, hout, by cases o; cases hhash; rfl, rfl⟩

theorem mem_outputs : (o, out) ∈ outputs txs ↔ ∃ t ∈ txs, o.hash = t.txid ∧ t.tx.vout[o.n]? = some out := by
  simp only [mem_created, mem_creates]

theorem not_isCoinBase_of_isCoinstake (ht : Staking.isCoinstake t.tx = true) : t.tx.isCoinBase = false := by
  cases hbase : t.tx.isCoinBase with
  | false => rfl
  | true =>
    rw [Staking.isCoinstake] at ht
    split at ht
    · simp [hbase] at ht
    · cases ht

theorem mem_spends_iff (ht : Staking.isCoinstake t.tx = true) : o ∈ t.entry.spends ↔ Staking.spends t.tx o = true := by
  simp [WalletTx.entry, not_isCoinBase_of_isCoinstake ht, Staking.spends]

end

/-! ## Transactions with the same txid -/

def Consistent (txs : List WalletTx) : Prop := ∀ t ∈ txs, ∀ t' ∈ txs, t.txid = t'.txid → t = t'

instance (txs : List WalletTx) : Decidable (Consistent txs) :=
  inferInstanceAs (Decidable (∀ t ∈ txs, ∀ t' ∈ txs, t.txid = t'.txid → t = t'))

theorem Consistent.outputs_inj {txs : List WalletTx} (h : Consistent txs) {o : COutPoint} {out out' : CTxOut}
    (hout : (o, out) ∈ outputs txs) (hout' : (o, out') ∈ outputs txs) : out = out' := by
  obtain ⟨t, ht, hhash, hget⟩ := mem_outputs.1 hout
  obtain ⟨t', ht', hhash', hget'⟩ := mem_outputs.1 hout'
  obtain rfl := h t ht t' ht' (hhash.symm.trans hhash')
  exact Option.some.inj (hget.symm.trans hget')

theorem Consistent.outputAt {txs : List WalletTx} (h : Consistent txs) {o : COutPoint} {out : CTxOut}
    (hout : (o, out) ∈ outputs txs) : outputAt txs o = some out := by
  rw [Gateway.outputAt]
  cases hfind : (outputs txs).find? fun c => decide (c.1 = o) with
  | none => simpa using List.find?_eq_none.1 hfind _ hout
  | some c =>
    obtain ⟨o', out'⟩ := c
    obtain rfl : o' = o := by simpa using List.find?_some hfind
    rw [h.outputs_inj (List.mem_of_find?_eq_some hfind) hout]
    rfl

theorem Consistent.sum_inputs {txs : List WalletTx} (h : Consistent txs) (f : CTxOut → Int) {vin : List CTxIn}
    {ins : List CTxOut} (hins : List.Forall₂ (fun i out => (i.prevout, out) ∈ outputs txs) vin ins) :
    (vin.map fun i => ((Gateway.outputAt txs i.prevout).map f).getD 0).sum = (ins.map f).sum := by
  induction hins with
  | nil => rfl
  | cons hout _ ih =>
    rw [List.map_cons, List.sum_cons, List.map_cons, List.sum_cons, ih, h.outputAt hout]
    rfl

/-! ## Chains -/

/-- The coinstake is one that `CreateCoinStake` makes, if it spends an output of the pool: all its inputs are at one
address, its outputs but the empty one go there, and it pays at least what it spends. -/
def HomeStake (N : Node) (txs : List WalletTx) (t : WalletTx) : Prop :=
  Staking.isCoinstake t.tx = true → ∀ c ∈ outputs txs, c.1 ∈ t.entry.spends → N.owns c.2 = true →
    (∀ c' ∈ outputs txs, c'.1 ∈ t.entry.spends → N.extract c'.2.scriptPubKey = N.extract c.2.scriptPubKey) ∧
    (∀ out ∈ t.tx.vout, out.isEmpty = true ∨ N.extract out.scriptPubKey = N.extract c.2.scriptPubKey) ∧
    (∃ out ∈ t.tx.vout, N.extract out.scriptPubKey = N.extract c.2.scriptPubKey) ∧ 0 ≤ grossReward txs t

/-- A chain that the node accepts, in which the pool's coins are staked by the pool. -/
structure ValidChain (N : Node) (chain : List WalletTx) : Prop where
  chained : Chained WalletTx.entry chain
  home : ∀ t ∈ chain, HomeStake N chain t
  nonneg : ∀ t ∈ chain, ∀ out ∈ t.tx.vout, 0 ≤ out.nValue

instance (N : Node) (txs : List WalletTx) (t : WalletTx) : Decidable (HomeStake N txs t) := by
  unfold HomeStake
  infer_instance

instance (N : Node) (chain : List WalletTx) : Decidable (ValidChain N chain) :=
  decidable_of_iff (Chained WalletTx.entry chain ∧ (∀ t ∈ chain, HomeStake N chain t) ∧
    ∀ t ∈ chain, ∀ out ∈ t.tx.vout, 0 ≤ out.nValue)
    ⟨fun h => ⟨h.1, h.2.1, h.2.2⟩, fun h => ⟨h.chained, h.home, h.nonneg⟩⟩

theorem mem_outputs_of_outputAt {txs : List WalletTx} {o : COutPoint} {out : CTxOut} (h : outputAt txs o = some out) :
    (o, out) ∈ outputs txs := by
  obtain ⟨⟨o', out'⟩, hfind, rfl⟩ := Option.map_eq_some_iff.1 h
  obtain rfl : o' = o := by simpa using List.find?_some hfind
  exact List.mem_of_find?_eq_some hfind

/-- **Small amounts are recorded as they are.** -/
theorem ValidChain.recordedReward_eq {N : Node} {chain : List WalletTx} {t : WalletTx} (h : ValidChain N chain)
    (ht : t ∈ chain) (hstake : Staking.isCoinstake t.tx = true) (hsmall : SmallTx chain t) :
    recordedReward chain t = grossReward chain t := by
  have houts : t.tx.vout.map (fun out => readSatoshis out.nValue) = t.tx.vout.map (·.nValue) :=
    List.map_congr_left fun out hout => readSatoshis_eq (h.nonneg t ht out hout) (hsmall.1 out hout)
  have hins : (t.tx.vin.map fun i => ((outputAt chain i.prevout).map fun out => readSatoshis out.nValue).getD 0) =
      t.tx.vin.map fun i => ((outputAt chain i.prevout).map (·.nValue)).getD 0 := by
    refine List.map_congr_left fun i hi => ?_
    cases hout : outputAt chain i.prevout with
    | none => rfl
    | some out =>
      have hmem := mem_outputs_of_outputAt hout
      obtain ⟨t', ht', -, hget⟩ := mem_outputs.1 hmem
      have hspent : i.prevout ∈ t.entry.spends :=
        (mem_spends_iff hstake).2 (List.any_eq_true.2 ⟨i, hi, decide_eq_true rfl⟩)
      exact readSatoshis_eq (h.nonneg t' ht' out (List.mem_of_getElem? hget)) (hsmall.2 _ hmem hspent)
  rw [recordedReward, grossReward, outputValue, inputValue, houts, hins]

theorem ValidChain.smallTx {N : Node} {chain : List WalletTx} {t : WalletTx} (h : ValidChain N chain) (ht : t ∈ chain)
    (hstake : Staking.isCoinstake t.tx = true) (hsmall : SmallCoins N chain) {c : COutPoint × CTxOut}
    (hc : c ∈ outputs chain) (hspent : c.1 ∈ t.entry.spends) (howns : N.owns c.2 = true) : SmallTx chain t := by
  obtain ⟨hins, houts, -, -⟩ := h.home t ht hstake c hc hspent howns
  have hat : ∀ {out : CTxOut}, N.extract out.scriptPubKey = N.extract c.2.scriptPubKey → N.owns out = true := by
    intro out hout
    rwa [Node.owns, hout]
  refine ⟨fun out hout => ?_, fun c' hc' hspent' => hsmall c' hc' (hat (hins c' hc' hspent'))⟩
  rcases houts out hout with hempty | hsame
  · rw [CTxOut.isEmpty, Bool.and_eq_true, decide_eq_true_eq] at hempty
    rw [Small, hempty.1]
    decide
  · obtain ⟨n, hn⟩ := List.mem_iff_getElem?.1 hout
    exact hsmall (⟨t.txid, n⟩, out) (mem_outputs.2 ⟨t, ht, rfl, hn⟩) (hat hsame)

/-- The coinstakes of a chain that spend an output, or an output of an earlier such coinstake. -/
def stakesOf (o : COutPoint) : List WalletTx → List WalletTx
  | [] => []
  | t :: earlier =>
    if Staking.isCoinstake t.tx && (Staking.spends t.tx o ||
        (stakesOf o earlier).any fun t' => t.tx.vin.any fun i => decide (i.prevout.hash = t'.txid)) then
      t :: stakesOf o earlier
    else stakesOf o earlier

section

variable {N : Node} {chain : List WalletTx} {t : WalletTx} {o : COutPoint}

theorem stakesOf_sublist : (stakesOf o chain).Sublist chain := by
  induction chain with
  | nil => exact .slnil
  | cons t earlier ih =>
    rw [stakesOf]
    split
    · exact ih.cons_cons t
    · exact ih.cons t

theorem isCoinstake_of_mem_stakesOf (h : t ∈ stakesOf o chain) : Staking.isCoinstake t.tx = true := by
  induction chain with
  | nil => cases h
  | cons t0 earlier ih =>
    rw [stakesOf] at h
    split at h
    · next hstake =>
      rcases List.mem_cons.1 h with rfl | h
      · exact (Bool.and_eq_true _ _ ▸ hstake).1
      · exact ih h
    · exact ih h

theorem mem_stakesOf_of_spends (ht : t ∈ chain) (hstake : Staking.isCoinstake t.tx = true)
    (hspends : Staking.spends t.tx o = true) : t ∈ stakesOf o chain := by
  induction chain with
  | nil => cases ht
  | cons t0 earlier ih =>
    rw [stakesOf]
    rcases List.mem_cons.1 ht with rfl | ht
    · rw [if_pos (by simp [hstake, hspends])]
      exact List.mem_cons_self
    · split
      · exact List.mem_cons_of_mem t0 (ih ht)
      · exact ih ht

theorem nodup_stakes (h : Chained WalletTx.entry chain) :
    ((chain.filter fun t => Staking.isCoinstake t.tx).map (·.txid)).Nodup := by
  induction chain with
  | nil => exact List.nodup_nil
  | cons t earlier ih =>
    cases hstake : Staking.isCoinstake t.tx with
    | false =>
      rw [List.filter_cons_of_neg (by simp [hstake])]
      exact ih h.tail
    | true =>
      rw [List.filter_cons_of_pos (by simp [hstake]), List.map_cons, List.nodup_cons]
      refine ⟨fun hmem => ?_, ih h.tail⟩
      obtain ⟨t', ht', heq⟩ := List.mem_map.1 hmem
      obtain ⟨ht', hstake'⟩ := List.mem_filter.1 ht'
      have hfirst : ∀ t : WalletTx, Staking.isCoinstake t.tx = true → ∃ out, (⟨t.txid, 0⟩, out) ∈ t.entry.creates := by
        intro t ht
        cases hvout : t.tx.vout with
        | nil => simp [Staking.isCoinstake, hvout] at ht
        | cons out _ => exact ⟨out, mem_creates.2 ⟨rfl, by rw [hvout]; rfl⟩⟩
      obtain ⟨out, hout⟩ := hfirst t hstake
      obtain ⟨out', hout'⟩ := hfirst t' hstake'
      rw [heq] at hout'
      have hold : (⟨t.txid, 0⟩, out') ∈ outputs earlier := mem_created.2 ⟨t', ht', hout'⟩
      exact h.2.2.2.2 ⟨t.txid, 0⟩ (List.mem_map.2 ⟨_, hout, rfl⟩) (List.mem_map.2 ⟨_, hold, rfl⟩)

end

end CodexaCoin.Gateway
