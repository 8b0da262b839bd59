import CodexaCoin.Gateway.Balance
import CodexaCoin.Gateway.Isolation

/-!
# What the pool owes and what it has

The ledger owes every user what the active deposits are worth. The pool keeps the pool fees of the rewards, and pays the
network fees of the withdrawals.
-/

namespace CodexaCoin.Gateway

open Process Table History

variable (cfg : Config) (N : Node) {us : List UserId}

/-! ## Values at addresses -/

def valueOf (S : Address → Bool) (out : CTxOut) : Int := if (N.extract out.scriptPubKey).any S then out.nValue else 0

def held (chain : List WalletTx) : Int := left WalletTx.entry (valueOf N N.mine) chain

/-- What has come in at some addresses, by payments and by the rewards of coinstakes. -/
def inflow (S : Address → Bool) (chain : List WalletTx) : Int :=
  income WalletTx.entry (fun t => Staking.isCoinstake t.tx) (valueOf N S) chain

def spentOutputs (txs : List WalletTx) (t : WalletTx) : Int :=
  (t.entry.spends.map fun k => ((outputAt txs k).map (·.nValue)).getD 0).sum

def networkFee (txs : List WalletTx) (t : WalletTx) : Int := spentOutputs txs t - outputValue t.tx

section

variable {N} {S : Address → Bool} {chain l : List WalletTx} {t : WalletTx} {out : CTxOut} {a : Address}

theorem valueOf_nonneg (h : 0 ≤ out.nValue) : 0 ≤ valueOf N S out := by
  rw [valueOf]
  split
  · exact h
  · exact le_refl 0

theorem valueOf_le_mine (hS : ∀ a, S a = true → N.mine a = true) (h : 0 ≤ out.nValue) :
    valueOf N S out ≤ valueOf N N.mine out := by
  rw [valueOf, valueOf]
  cases N.extract out.scriptPubKey with
  | none => exact le_refl _
  | some a =>
    cases ha : S a with
    | true => simp [ha, hS a ha]
    | false =>
      simp only [Option.any_some, ha, Bool.false_eq_true, if_false]
      split
      · exact h
      · exact le_refl 0

theorem valueOf_at (h : N.extract out.scriptPubKey = some a) :
    valueOf N S out = if S a then out.nValue else 0 := by
  rw [valueOf, h, Option.any_some]

theorem ValidChain.outputs_nonneg (h : ValidChain N chain) : ∀ c ∈ outputs chain, 0 ≤ valueOf N S c.2 := by
  rintro ⟨o, out⟩ hc
  obtain ⟨t, ht, -, hget⟩ := mem_outputs.1 hc
  exact valueOf_nonneg (h.nonneg t ht out (List.mem_of_getElem? hget))

theorem createdValue_eq (w : CTxOut → Int) : createdValue WalletTx.entry w t = (t.tx.vout.map w).sum := by
  rw [createdValue, WalletTx.entry, List.map_map]
  show (t.tx.vout.zipIdx.map (w ∘ Prod.fst)).sum = _
  rw [← List.map_map, List.zipIdx_map_fst]

theorem mem_chain_of_suffix (hs : t :: l <:+ chain) : t ∈ chain := hs.subset List.mem_cons_self

theorem spentOutputs_eq (hconsistent : Consistent chain) (hl : l ⊆ chain)
    (hspends : ∀ k ∈ t.entry.spends, k ∈ utxos l) :
    spentOutputs chain t = spentValue WalletTx.entry (·.nValue) l t := by
  refine congrArg List.sum (List.map_congr_left fun k hk => ?_)
  obtain ⟨out, hout⟩ := Finmap.mem_iff.1 (hspends k hk)
  rw [hout, hconsistent.outputAt (created_subset hl (lookup_unspent hout))]
  rfl

theorem subset_of_suffix_cons (hs : t :: l <:+ chain) : l ⊆ chain :=
  fun _ h => hs.subset (List.mem_cons_of_mem t h)

theorem inputValue_eq_spentOutputs (hstake : Staking.isCoinstake t.tx = true) :
    inputValue chain t.tx = spentOutputs chain t := by
  rw [inputValue, spentOutputs, WalletTx.entry, not_isCoinBase_of_isCoinstake hstake, List.map_map]
  rfl

theorem ValidChain.stake_flow (h : ValidChain N chain) (hconsistent : Consistent chain) (hs : t :: l <:+ chain)
    (hstake : Staking.isCoinstake t.tx = true) {k : COutPoint} (hk : k ∈ t.entry.spends)
    (hlookup : (utxos l).lookup k = some out) (ha : N.extract out.scriptPubKey = some a) (hmine : N.mine a = true) :
    0 ≤ grossReward chain t ∧ createdValue WalletTx.entry (valueOf N S) t - spentValue WalletTx.entry (valueOf N S) l t =
      if S a then grossReward chain t else 0 := by
  have ht := mem_chain_of_suffix hs
  have hl : ∀ {c}, c ∈ outputs l → c ∈ outputs chain := fun hc => created_subset (subset_of_suffix_cons hs) hc
  have howns : N.owns out = true := by rw [Node.owns, ha, Option.any_some, hmine]
  obtain ⟨hins, houts, -, hgross⟩ := h.home t ht hstake (k, out) (hl (lookup_unspent hlookup)) hk howns
  refine ⟨hgross, ?_⟩
  have hspent : spentValue WalletTx.entry (valueOf N S) l t =
      spentValue WalletTx.entry (fun o => if S a then o.nValue else 0) l t := by
    refine spentValue_congr fun k' hk' out' hout' => valueOf_at ?_
    exact (hins (k', out') (hl (lookup_unspent hout')) hk').trans ha
  have hcreated : createdValue WalletTx.entry (valueOf N S) t =
      createdValue WalletTx.entry (fun o => if S a then o.nValue else 0) t := by
    refine createdValue_congr fun c hc => ?_
    rcases houts c.2 (List.mem_of_getElem? (mem_creates.1 hc).2) with hempty | hat
    · have hzero : c.2.nValue = 0 := by
        rw [CTxOut.isEmpty, Bool.and_eq_true, decide_eq_true_eq] at hempty
        exact hempty.1
      rw [valueOf, hzero, ite_self, ite_self]
    · exact valueOf_at (hat.trans ha)
  rw [hspent, hcreated]
  cases S a with
  | true =>
    rw [if_pos rfl, grossReward, inputValue_eq_spentOutputs hstake,
      spentOutputs_eq hconsistent (subset_of_suffix_cons hs) (h.chained.suffix hs).2.2.1, outputValue]
    simp only [if_true, createdValue_eq]
  | false =>
    simp only [Bool.false_eq_true, if_false]
    rw [spentValue_eq_zero fun _ _ _ _ => rfl, createdValue_eq]
    simp

def spendsOwned (N : Node) (txs : List WalletTx) (t : WalletTx) : Prop :=
  ∃ c ∈ outputs txs, c.1 ∈ t.entry.spends ∧ N.owns c.2 = true

instance (N : Node) (txs : List WalletTx) (t : WalletTx) : Decidable (spendsOwned N txs t) :=
  inferInstanceAs (Decidable (∃ c ∈ outputs txs, c.1 ∈ t.entry.spends ∧ N.owns c.2 = true))

theorem spentValue_of_foreign (hS : ∀ a, S a = true → N.mine a = true) (hs : t :: l <:+ chain)
    (hforeign : ¬spendsOwned N chain t) : spentValue WalletTx.entry (valueOf N S) l t = 0 := by
  refine spentValue_eq_zero fun k hk out hout => ?_
  have hmem : (k, out) ∈ outputs chain := created_subset (subset_of_suffix_cons hs) (lookup_unspent hout)
  rw [valueOf, if_neg]
  intro hat
  obtain ⟨a, ha, hSa⟩ := (Option.any_eq_true _ _).1 hat
  refine hforeign ⟨(k, out), hmem, hk, ?_⟩
  rw [Node.owns, ha, Option.any_some]
  exact hS a hSa

theorem spendsOwned.exists_lookup (hchained : Chained WalletTx.entry chain) (hs : t :: l <:+ chain)
    (h : spendsOwned N chain t) : ∃ k ∈ t.entry.spends, ∃ out a, (utxos l).lookup k = some out ∧
      N.extract out.scriptPubKey = some a ∧ N.mine a = true := by
  obtain ⟨⟨k, out⟩, hc, hk, howns⟩ := h
  obtain ⟨out', hout'⟩ := Finmap.mem_iff.1 ((hchained.suffix hs).2.2.1 k hk)
  have hmem : (k, out') ∈ outputs chain := created_subset (subset_of_suffix_cons hs) (lookup_unspent hout')
  obtain rfl := hchained.created_inj hc hmem
  obtain ⟨a, ha, hmine⟩ := (Option.any_eq_true _ _).1 howns
  exact ⟨k, hk, out, a, hout', ha, hmine⟩

theorem createdValue_mono (h : ValidChain N chain) (ht : t ∈ chain) (hS : ∀ a, S a = true → N.mine a = true) :
    createdValue WalletTx.entry (valueOf N S) t ≤ createdValue WalletTx.entry (valueOf N N.mine) t := by
  rw [createdValue_eq, createdValue_eq]
  exact List.sum_le_sum fun out hout => valueOf_le_mine hS (h.nonneg t ht out hout)

theorem createdValue_nonneg (h : ValidChain N chain) (ht : t ∈ chain) :
    0 ≤ createdValue WalletTx.entry (valueOf N S) t := by
  rw [createdValue_eq]
  refine List.sum_nonneg fun x hx => ?_
  obtain ⟨out, hout, rfl⟩ := List.mem_map.1 hx
  exact valueOf_nonneg (h.nonneg t ht out hout)

theorem ValidChain.gains (h : ValidChain N chain) (hconsistent : Consistent chain)
    (hS : ∀ a, S a = true → N.mine a = true) :
    Gains WalletTx.entry (fun t => Staking.isCoinstake t.tx) (valueOf N S) chain := by
  intro t l hs hstake
  by_cases howned : spendsOwned N chain t
  · obtain ⟨k, hk, out, a, hlookup, ha, hmine⟩ := howned.exists_lookup h.chained hs
    obtain ⟨hgross, hflow⟩ := h.stake_flow (S := S) hconsistent hs hstake hk hlookup ha hmine
    split at hflow <;> omega
  · rw [spentValue_of_foreign hS hs howned]
    exact createdValue_nonneg h (mem_chain_of_suffix hs)

/-- **What comes in is held**, as long as no payment spends the pool's coins. -/
theorem ValidChain.inflow_cons (h : ValidChain N chain) (hconsistent : Consistent chain)
    (hS : ∀ a, S a = true → N.mine a = true) (hs : t :: l <:+ chain)
    (hstake : spendsOwned N chain t → Staking.isCoinstake t.tx = true) :
    inflow N S (t :: l) - inflow N S l ≤ held N (t :: l) - held N l := by
  have ht := mem_chain_of_suffix hs
  have hheld := (h.chained.suffix hs).left_cons (w := valueOf N N.mine)
  rw [inflow, inflow, held, held, hheld, income]
  by_cases howned : spendsOwned N chain t
  · obtain ⟨k, hk, out, a, hlookup, ha, hmine⟩ := howned.exists_lookup h.chained hs
    obtain ⟨hgross, hflow⟩ := h.stake_flow (S := S) hconsistent hs (hstake howned) hk hlookup ha hmine
    obtain ⟨-, hall⟩ := h.stake_flow (S := N.mine) hconsistent hs (hstake howned) hk hlookup ha hmine
    rw [if_pos hmine] at hall
    rw [if_pos (hstake howned)]
    split at hflow <;> omega
  · have hcreated := createdValue_mono h ht hS
    rw [spentValue_of_foreign hS hs howned, spentValue_of_foreign (fun _ h => h) hs howned, ite_self]
    omega

theorem ValidChain.inflow_suffix {chain0 : List WalletTx} (h : ValidChain N chain) (hconsistent : Consistent chain)
    (hS : ∀ a, S a = true → N.mine a = true) (hs : chain0 <:+ l) (hl : l <:+ chain)
    (hstake : ∀ t ∈ chain, t ∉ chain0 → spendsOwned N chain t → Staking.isCoinstake t.tx = true) :
    inflow N S l - inflow N S chain0 ≤ held N l - held N chain0 := by
  induction l with
  | nil =>
    rw [List.suffix_nil.1 hs]
    omega
  | cons t l ih =>
    rcases List.suffix_cons_iff.1 hs with rfl | hs
    · omega
    · have hold := ih hs ((List.suffix_cons t l).trans hl)
      have hstep := h.inflow_cons hconsistent hS hl fun howned => ?_
      · omega
      · refine hstake t (mem_chain_of_suffix hl) (fun hmem => ?_) howned
        -- An earlier transaction has spent its inputs already.
        obtain ⟨c, -, hk, -⟩ := howned
        have hchained := h.chained.suffix hl
        exact hchained.tail.not_unspent (hs.subset hmem) hk (hchained.2.2.1 c.1 hk)

end

/-! ## The deposits -/

def atDeposit (deposits : List StakeDeposit) (a : Address) : Bool :=
  deposits.any fun d => decide (d.depositAddress = a)

def Db.feesOf (db : Db) (id : DepositId) : Int :=
  sumWhere (fun r => decide (r.depositId = id)) (·.poolFeeSatoshis) db.stakeRewards

def Db.poolFees (db : Db) : Int := (db.stakeRewards.map (·.poolFeeSatoshis)).sum

section

variable {cfg N} {s : State} {chain : List WalletTx}

theorem inflow_deposits {deposits : List StakeDeposit} (h : (deposits.map (·.depositAddress)).Nodup) :
    inflow N (atDeposit deposits) chain =
      (deposits.map fun d => inflow N (fun a => decide (d.depositAddress = a)) chain).sum := by
  induction deposits with
  | nil => exact income_eq_zero fun c _ => by cases h : N.extract c.2.scriptPubKey <;> simp [valueOf, atDeposit, h]
  | cons d ds ih =>
    rw [List.map_cons, List.nodup_cons] at h
    rw [List.map_cons, List.sum_cons, ← ih h.2, inflow, inflow, inflow, ← income_add]
    refine income_congr fun c _ => ?_
    cases ha : N.extract c.2.scriptPubKey with
    | none => simp [valueOf, ha]
    | some a =>
      rw [valueOf_at ha, valueOf_at ha, valueOf_at ha]
      by_cases hd : d.depositAddress = a
      · have hrest : atDeposit ds a = false := by
          refine List.any_eq_false.2 fun d' hd' heq => h.1 ?_
          rw [hd, ← of_decide_eq_true heq]
          exact List.mem_map_of_mem hd'
        rw [hrest]
        simp [atDeposit, hd]
      · simp [atDeposit, hd]

theorem SmallCoins.readSatoshis_eq (h : SmallCoins N chain) (hvalid : ValidChain N chain) {c : COutPoint × CTxOut}
    (hc : c ∈ outputs chain) (howns : N.owns c.2 = true) : readSatoshis c.2.nValue = c.2.nValue := by
  obtain ⟨t, ht, -, hget⟩ := mem_outputs.1 (show (c.1, c.2) ∈ outputs chain from hc)
  exact Gateway.readSatoshis_eq (hvalid.nonneg t ht c.2 (List.mem_of_getElem? hget)) (h c hc howns)

/-- **A deposit is worth what has come in at its address,** less the pool fee. -/
theorem Sound.worth_le_inflow (h : Sound cfg N s) (hstale : s.stale = []) (hsmall : SmallCoins N s.chain)
    {d : StakeDeposit} (hd : d ∈ s.db.stakeDeposits) (hst : d.status ≠ .awaitingFunds) :
    s.db.worth d + s.db.feesOf d.id ≤ inflow N (fun a => decide (d.depositAddress = a)) s.chain := by
  have hknown : s.known = s.chain := by rw [State.known, hstale, List.append_nil]
  have hS : ∀ a, decide (d.depositAddress = a) = true → N.mine a = true :=
    fun a ha => of_decide_eq_true ha ▸ h.addresses d hd
  obtain ⟨o, out, hfunding, hamount, hout, haddress⟩ := h.funded d hd hst
  rw [hknown] at hout
  have hgains := h.valid.gains h.chain_consistent hS
  have hvalue : valueOf N (fun a => decide (d.depositAddress = a)) out = out.nValue := by
    rw [valueOf_at haddress, if_pos (decide_eq_true rfl)]
  rw [hsmall.readSatoshis_eq h.valid hout (h.owns hd haddress)] at hamount
  rw [Db.worth, hamount, Option.getD_some, Db.rewardsOf, Db.feesOf, sumWhere, sumWhere, inflow]
  rcases h.rewards_of (stakesKept_of_stale hstale) hd with hnone | ⟨r, hone⟩
  · rw [hnone]
    have hle := h.valid.chained.value_le_income hgains h.valid.outputs_nonneg hout
    rw [hvalue] at hle
    simpa using hle
  · obtain ⟨hr, hid⟩ := List.mem_filter.1 (hone ▸ List.mem_singleton_self r)
    obtain ⟨o', t, ho', ht, hstake, hspends, hrow⟩ :=
      h.reward_on_chain (stakesKept_of_stale hstale) hd hr (of_decide_eq_true hid)
    cases hfunding.symm.trans ho'
    obtain ⟨l1, l, hl⟩ := List.append_of_mem ht
    have hs : t :: l <:+ s.chain := hl ▸ List.suffix_append l1 _
    have hk := (mem_spends_iff hstake).2 hspends
    obtain ⟨out', hlookup⟩ := Finmap.mem_iff.1 ((h.valid.chained.suffix hs).2.2.1 o hk)
    have hmem : (o, out') ∈ outputs s.chain := created_subset (subset_of_suffix_cons hs) (lookup_unspent hlookup)
    obtain rfl := h.chain_consistent.outputs_inj hout hmem
    obtain ⟨-, hflow⟩ := h.valid.stake_flow (S := fun a => decide (d.depositAddress = a)) h.chain_consistent hs hstake hk
      hlookup haddress (h.addresses d hd)
    have hle := h.valid.chained.gain_le_income hgains h.valid.outputs_nonneg hs hstake hlookup
    rw [hflow, if_pos (decide_eq_true rfl), hvalue] at hle
    have hmoves : SmallTx s.chain t := h.valid.smallTx ht hstake hsmall hout hk (h.owns hd haddress)
    have hnet : r.netRewardSatoshis + r.poolFeeSatoshis = grossReward s.chain t := by
      rw [hrow, h.valid.recordedReward_eq ht hstake hmoves]
      simp only [Staking.rewardRow]
      omega
    rw [hone]
    simp only [List.map_cons, List.map_nil, List.sum_cons, List.sum_nil]
    omega

theorem Sound.holdings_le_inflow (h : Sound cfg N s) (hstale : s.stale = []) (hsmall : SmallCoins N s.chain) :
    s.db.holdings (fun _ => true) .active + s.db.holdings (fun _ => true) .withdrawn + s.db.poolFees ≤
      inflow N (atDeposit s.db.stakeDeposits) s.chain := by
  have hfunded : s.db.holdings (fun _ => true) .active + s.db.holdings (fun _ => true) .withdrawn =
      sumWhere (fun d => decide (d.status ≠ .awaitingFunds)) s.db.worth s.db.stakeDeposits := by
    refine sumWhere_add fun d _ => ?_
    cases d.status <;> simp
  have hfees : s.db.poolFees =
      sumWhere (fun d => decide (d.status ≠ .awaitingFunds)) (fun d => s.db.feesOf d.id) s.db.stakeDeposits := by
    refine Eq.trans ?_ (sumWhere_join s.db.nodup_deposit_ids).symm
    rw [Db.poolFees, ← sumWhere_true]
    refine sumWhere_congr fun r hr => ?_
    obtain ⟨d, hd, _, hid, hst, -⟩ := h.rewards r hr
    rw [if_pos rfl, if_pos (List.any_eq_true.2 ⟨d, hd, by simp [hid, hst]⟩)]
  have hboth : sumWhere (fun d => decide (d.status ≠ .awaitingFunds)) s.db.worth s.db.stakeDeposits +
      sumWhere (fun d => decide (d.status ≠ .awaitingFunds)) (fun d => s.db.feesOf d.id) s.db.stakeDeposits =
        sumWhere (fun d => decide (d.status ≠ .awaitingFunds)) (fun d => s.db.worth d + s.db.feesOf d.id)
          s.db.stakeDeposits := by
    refine sumWhere_add fun d _ => ?_
    split <;> simp
  rw [hfunded, hfees, hboth, inflow_deposits s.db.depositAddress_unique, ← sumWhere_true]
  refine sumWhere_mono fun d hd => ?_
  rw [if_pos rfl]
  split
  · next hst => exact h.worth_le_inflow hstale hsmall hd (of_decide_eq_true hst)
  · have hS : ∀ a, decide (d.depositAddress = a) = true → N.mine a = true :=
      fun a ha => of_decide_eq_true ha ▸ h.addresses d hd
    exact (h.valid.gains h.chain_consistent hS).income_nonneg h.valid.outputs_nonneg

end

/-! ## What the ledger owes -/

def reportedTotal (us : List UserId) (db : Db) : Int :=
  (us.map fun u => ((evalSql (Staking.statusForUser cfg u) db).map fun status =>
    status.delegatedAmount + status.accruedRewards).getD 0).sum

theorem reportedTotal_eq {db : Db} (hus : us.Nodup) (hall : ∀ d ∈ db.stakeDeposits, d.userId ∈ us) :
    reportedTotal cfg us db = db.holdings (fun _ => true) .active := by
  have huser : ∀ u, ((evalSql (Staking.statusForUser cfg u) db).map fun status =>
      status.delegatedAmount + status.accruedRewards).getD 0 =
        sumWhere (fun d => decide (d.userId = u)) (fun d => if d.status = .active then db.worth d else 0)
          db.stakeDeposits := by
    intro u
    obtain ⟨status, heval, hstatus⟩ := Staking.statusForUser_eval cfg u db
    rw [heval, Option.map_some, Option.getD_some, hstatus]
    refine sumWhere_congr fun d _ => ?_
    by_cases hu : d.userId = u <;> by_cases hst : d.status = .active <;> simp [hu, hst]
  calc reportedTotal cfg us db
    _ = sumWhere (fun _ => true) (fun u => sumWhere (fun d => decide (d.userId = id u))
        (fun d => if d.status = .active then db.worth d else 0) db.stakeDeposits) us := by
      rw [sumWhere_true, reportedTotal]
      exact congrArg List.sum (List.map_congr_left fun u _ => huser u)
    _ = sumWhere (fun d => us.any fun u => decide (d.userId = id u) && true)
        (fun d => if d.status = .active then db.worth d else 0) db.stakeDeposits :=
      sumWhere_join (by rwa [List.map_id])
    _ = db.holdings (fun _ => true) .active := by
      refine sumWhere_congr fun d hd => ?_
      rw [if_pos (List.any_eq_true.2 ⟨d.userId, hall d hd, by simp⟩)]
      by_cases hst : d.status = .active <;> simp [hst]

/-! ## Runs -/

def networkFees (s : State) : Int :=
  sumWhere (fun p => decide (p.wallet = .pool)) (fun p => networkFee s.chain p.made) s.payments

/-- A payment of the pool moves exactly the requested amount to the recipient; the change goes to addresses of the pool
that belong to no deposit. -/
def Op.paysExactly (s : State) : Op → Answer → Bool
  | .rpc (.sendToAddress .pool _ dest amountCac), .sent t => decide (∃ out ∈ t.tx.vout,
      amountFromValue amountCac = some out.nValue ∧ N.extract out.scriptPubKey = some dest ∧
        ∀ change ∈ t.tx.vout.erase out, N.owns change = true ∧
        ∀ d ∈ s.db.stakeDeposits, N.extract change.scriptPubKey ≠ some d.depositAddress)
  | _, _ => true

/-- The network fees of all payments, with this one, are at most the pool fees that were kept. -/
def Op.feesCovered (s : State) : Op → Answer → Bool
  | .rpc (.sendToAddress .pool ..), .sent t => decide (networkFees s + networkFee s.chain t ≤ s.db.poolFees)
  | _, _ => true

/-- The payment makes no coin of the pool of 2^25 coins or more. -/
def Op.keepsSmall : Op → Answer → Bool
  | .rpc (.sendToAddress ..), .sent t => decide (SmallCoins N [t])
  | _, _ => true

/-- Requests do not overlap, the users withdraw their whole balances, the answers are true, blocks are only added to the
chain, and the pool's coins are spent by coinstakes and by the gateway's payments only. -/
def sequentialRun (P : GPool) (e : GEvent) : Bool :=
  fullWithdrawals (fun _ => true) P e && growingChain N P e && match e with
    | .step i x => (P.next i).all fun o => o.paysExactly N P.state x
    | .ext (.chain txs) => decide (∀ t ∈ txs, t ∉ P.state.chain → spendsOwned N txs t → Staking.isCoinstake t.tx = true)
    | _ => true

/-- The same, with network fees that the pool fees cover and coins of the pool below 2^25 coins each. -/
def coveredRun (P : GPool) (e : GEvent) : Bool :=
  sequentialRun N P e && match e with
    | .step i x => (P.next i).all fun o => o.feesCovered P.state x && o.keepsSmall N x
    | .ext (.chain txs) => decide (SmallCoins N txs)
    | _ => true

/-- What has come in at the deposits is held, was paid to users or to the network. -/
structure Backed (s : State) : Prop where
  stale : s.stale = []
  small : SmallCoins N s.chain
  made : ∀ p ∈ s.payments, p.made ∈ s.chain
  accounted : inflow N (atDeposit s.db.stakeDeposits) s.chain ≤
    held N s.chain + s.paidTo .pool (fun _ => true) + networkFees s
  fees : networkFees s ≤ s.db.poolFees

section

variable {cfg N} {s s' : State} {t : WalletTx} {v : UserId} {dest : Address} {amountCac : ℚ} {amount : Int}

theorem Sound.atDeposit_mine (h : Sound cfg N s) : ∀ a, atDeposit s.db.stakeDeposits a = true → N.mine a = true := by
  intro a ha
  obtain ⟨d, hd, heq⟩ := List.any_eq_true.1 ha
  exact of_decide_eq_true heq ▸ h.addresses d hd

theorem networkFee_suffix {chain txs : List WalletTx} (hconsistent : Consistent txs)
    (hchained : Chained WalletTx.entry txs) (hs : chain <:+ txs) (ht : t ∈ chain) :
    networkFee txs t = networkFee chain t := by
  obtain ⟨l1, l, rfl⟩ := List.append_of_mem ht
  have hold : Consistent (l1 ++ t :: l) := fun t ht t' ht' => hconsistent t (hs.subset ht) t' (hs.subset ht')
  have hs1 : t :: l <:+ l1 ++ t :: l := List.suffix_append l1 _
  have hspends := (hchained.suffix (hs1.trans hs)).2.2.1
  rw [networkFee, networkFee, spentOutputs_eq hconsistent (subset_of_suffix_cons (hs1.trans hs)) hspends,
    spentOutputs_eq hold (subset_of_suffix_cons hs1) hspends]

theorem networkFees_congr (hpayments : s'.payments = s.payments) (hmade : ∀ p ∈ s.payments, p.made ∈ s.chain)
    (hs : s.chain <:+ s'.chain) (hsound' : Sound cfg N s') : networkFees s' = networkFees s := by
  rw [networkFees, networkFees, hpayments]
  refine sumWhere_congr fun p hp => ?_
  rw [networkFee_suffix hsound'.chain_consistent hsound'.valid.chained hs (hmade p hp)]

theorem Backed.congr (h : Backed N s) (hchain : s'.chain = s.chain) (hstale : s'.stale = s.stale)
    (hpayments : s'.payments = s.payments)
    (hinflow : inflow N (atDeposit s'.db.stakeDeposits) s.chain = inflow N (atDeposit s.db.stakeDeposits) s.chain)
    (hfees : s.db.poolFees ≤ s'.db.poolFees) : Backed N s' := by
  have hsame : networkFees s' = networkFees s := by rw [networkFees, networkFees, hpayments, hchain]
  refine ⟨hstale.trans h.stale, hchain.symm ▸ h.small, ?_, ?_, ?_⟩
  · rw [hpayments, hchain]
    exact h.made
  · rw [hsame, hchain, hinflow, State.paidTo, hpayments]
    exact h.accounted
  · rw [hsame]
    exact h.fees.trans hfees

theorem inflow_congr {S S' : Address → Bool} {chain : List WalletTx}
    (h : ∀ c ∈ outputs chain, ∀ a, N.extract c.2.scriptPubKey = some a → S a = S' a) :
    inflow N S chain = inflow N S' chain := by
  refine income_congr fun c hc => ?_
  cases ha : N.extract c.2.scriptPubKey with
  | none => rw [valueOf, valueOf, ha, Option.any_none, Option.any_none]
  | some a => rw [valueOf_at ha, valueOf_at ha, h c hc a ha]

theorem atDeposit_eq {deposits deposits' : List StakeDeposit}
    (h : deposits'.map (·.depositAddress) = deposits.map (·.depositAddress)) :
      atDeposit deposits' = atDeposit deposits := by
  have hmap : ∀ ds : List StakeDeposit,
      atDeposit ds = fun a => (ds.map (·.depositAddress)).any fun b => decide (b = a) := by
    intro ds
    funext a
    rw [List.any_map]
    rfl
  rw [hmap, hmap, h]

theorem Earned.poolFee_nonneg {reward : StakeReward} (h : Earned cfg s reward) (hsound : Sound cfg N s)
    (hstale : s.stale = []) (hsmall : SmallCoins N s.chain) (hfee : 0 ≤ cfg.poolFeeBp) : 0 ≤ reward.poolFeeSatoshis := by
  obtain ⟨d, hd, o, -, hst, hfunding, t, ht, ins, hstake, hspends, hins, rfl⟩ := h
  have hknown : s.known = s.chain := by rw [State.known, hstale, List.append_nil]
  rw [hknown] at ht hins
  obtain ⟨out, hout, -, howns⟩ := hsound.funding_output hd hfunding
  rw [hknown] at hout
  have hspent := (mem_spends_iff hstake).2 hspends
  obtain ⟨-, -, -, hgross⟩ := hsound.valid.home t ht hstake (o, out) hout hspent howns
  have hmoves : SmallTx s.chain t := hsound.valid.smallTx ht hstake hsmall hout hspent howns
  rw [← hsound.valid.recordedReward_eq ht hstake hmoves, recordedReward,
    hsound.chain_consistent.sum_inputs _ hins] at hgross
  exact Int.ediv_nonneg (Int.mul_nonneg hgross hfee) (by decide)

theorem Backed.of_sql {q : Stmt} {x : Answer} (h : Backed N s) (hsound : Sound cfg N s) (hfee : 0 ≤ cfg.poolFeeBp)
    (hpre : (truthSetting cfg N).pre (.sql q) s) (htrue : Op.truthful N s (.sql q) x = true) :
    Backed N (s.runSql q).2 := by
  cases q with
  | insertDeposit v address =>
    refine h.congr rfl rfl rfl ?_ (le_of_eq ?_)
    · -- Nobody has paid to the new address.
      have hfresh : ∀ c ∈ outputs s.known, N.extract c.2.scriptPubKey ≠ some address := of_decide_eq_true htrue
      refine inflow_congr fun c hc a ha => ?_
      have hne : address ≠ a := by
        rintro rfl
        exact hfresh c (created_subset (List.subset_append_left _ _) hc) ha
      rcases s.db.insertDeposit_cases v address with hsame | ⟨db', hnew, -, hdeposits, -⟩
      · show atDeposit (s.db.insertDeposit v address).2.stakeDeposits a = _
        rw [hsame]
      · show atDeposit (s.db.insertDeposit v address).2.stakeDeposits a = _
        rw [hnew, hdeposits]
        simp [atDeposit, hne]
    · show _ = (s.db.insertDeposit v address).2.poolFees
      rw [Db.poolFees, Db.poolFees, Db.insertDeposit_stakeRewards]
  | activateDeposit id funding amount =>
    refine h.congr rfl rfl rfl (congrArg (fun S => inflow N S s.chain) (atDeposit_eq ?_)) (le_refl _)
    exact map_updateWhere fun _ => rfl
  | closeDeposits v =>
    refine h.congr rfl rfl rfl (congrArg (fun S => inflow N S s.chain) (atDeposit_eq ?_)) (le_refl _)
    exact map_updateWhere fun _ => rfl
  | insertReward reward =>
    refine h.congr rfl rfl rfl ?_ ?_
    · show inflow N (atDeposit (s.db.insertReward reward).stakeDeposits) s.chain = _
      rw [Db.insertReward_stakeDeposits]
    · show s.db.poolFees ≤ (s.db.insertReward reward).poolFees
      rcases s.db.insertReward_cases reward with hsame | ⟨-, hrewards⟩
      · rw [hsame]
      · have hnonneg := Earned.poolFee_nonneg hpre hsound h.stale h.small hfee
        rw [Db.poolFees, Db.poolFees, hrewards, List.map_append, List.sum_append]
        simpa using hnonneg
  | _ => exact h.congr rfl rfl rfl rfl (le_refl _)

theorem networkFees_pay (hmade : ∀ p ∈ s.payments, p.made ∈ s.chain) (hsound : Sound cfg N s) {p : Payment}
    (hsound' : Sound cfg N (s.pay p)) :
    networkFees (s.pay p) = networkFees s + if p.wallet = .pool then networkFee s.chain p.made else 0 := by
  have hs : s.chain <:+ (s.pay p).chain := List.suffix_cons _ _
  have hold : sumWhere (fun p => decide (p.wallet = .pool)) (fun q => networkFee (s.pay p).chain q.made) s.payments =
      networkFees s := by
    refine sumWhere_congr fun q hq => ?_
    rw [networkFee_suffix hsound'.chain_consistent hsound'.valid.chained hs (hmade q hq)]
  have hspends := hsound'.valid.chained.2.2.1
  have hnew : networkFee (s.pay p).chain p.made = networkFee s.chain p.made := by
    rw [networkFee, networkFee, spentOutputs_eq hsound'.chain_consistent hs.subset hspends,
      spentOutputs_eq hsound.chain_consistent (fun _ h => h) hspends]
  rw [networkFees, State.pay, sumWhere_append, sumWhere_cons, sumWhere_nil]
  show sumWhere _ (fun q => networkFee (s.pay p).chain q.made) s.payments + (_ + 0) = _
  rw [hold, Int.add_zero, ← hnew]
  simp only [decide_eq_true_eq]
  rfl

theorem SmallCoins.cons {chain : List WalletTx} (h : SmallCoins N chain) (ht : SmallCoins N [t]) :
    SmallCoins N (t :: chain) := by
  intro c hc
  obtain ⟨t', ht', hcreates⟩ := mem_created.1 hc
  rcases List.mem_cons.1 ht' with rfl | ht'
  · exact ht c (mem_created.2 ⟨t', List.mem_singleton_self t', hcreates⟩)
  · exact h c (mem_created.2 ⟨t', ht', hcreates⟩)

theorem spentValue_of_pool (hsound : Sound cfg N s)
    (htrue : Op.truthful N s (.rpc (.sendToAddress .pool v dest amountCac)) (.sent t) = true)
    (hspends : ∀ k ∈ t.entry.spends, k ∈ utxos s.chain) :
    spentValue WalletTx.entry (valueOf N N.mine) s.chain t = spentOutputs s.chain t := by
  rw [spentOutputs_eq hsound.chain_consistent (fun _ h => h) hspends]
  refine spentValue_congr fun k hk out hout => ?_
  simp only [Op.truthful, Bool.and_eq_true, List.all_eq_true] at htrue
  have howns := (htrue.2 k hk).2
  rw [hout, Option.any_some] at howns
  exact if_pos howns

theorem Backed.payPool (h : Backed N s)
    (hsound : Sound cfg N s) (hsound' : Sound cfg N (s.pay ⟨.pool, v, dest, amount, t⟩))
    (hread : amountFromValue amountCac = some amount) (hsmall : SmallCoins N [t])
    (htrue : Op.truthful N s (.rpc (.sendToAddress .pool v dest amountCac)) (.sent t) = true)
    (hexact : Op.paysExactly N s (.rpc (.sendToAddress .pool v dest amountCac)) (.sent t) = true)
    (hcovered : Op.feesCovered s (.rpc (.sendToAddress .pool v dest amountCac)) (.sent t) = true) :
    Backed N (s.pay ⟨.pool, v, dest, amount, t⟩) := by
  have hchained := hsound'.valid.chained
  have hfees : networkFees (s.pay ⟨.pool, v, dest, amount, t⟩) = networkFees s + networkFee s.chain t :=
    (networkFees_pay h.made hsound hsound').trans (congrArg _ (if_pos rfl))
  refine ⟨h.stale, h.small.cons hsmall, ?_, ?_, ?_⟩
  · intro p hp
    rcases List.mem_append.1 hp with hp | hp
    · exact List.mem_cons_of_mem t (h.made p hp)
    · rw [List.mem_singleton.1 hp]
      exact List.mem_cons_self
  · obtain ⟨out, hout, hsent, -, hchange⟩ := of_decide_eq_true hexact
    have hamount : out.nValue = amount := Option.some.inj (hsent.symm.trans hread)
    have hnonneg : 0 ≤ out.nValue := hsound'.valid.nonneg t List.mem_cons_self out hout
    have hnot : Staking.isCoinstake t.tx = false := by
      simp only [Op.truthful, Bool.and_eq_true, Bool.not_eq_true'] at htrue
      exact htrue.1.2
    have hheld : held N (t :: s.chain) = held N s.chain - spentOutputs s.chain t +
        (valueOf N N.mine out + ((t.tx.vout.erase out).map (·.nValue)).sum) := by
      rw [held, hchained.left_cons, spentValue_of_pool hsound htrue hchained.2.2.1, createdValue_eq,
        ← List.sum_map_erase _ hout]
      refine congrArg (fun x => _ + (_ + List.sum x)) (List.map_congr_left fun change hc => ?_)
      rw [valueOf]
      exact if_pos (hchange change hc).1
    have hinflow : inflow N (atDeposit s.db.stakeDeposits) (t :: s.chain) =
        inflow N (atDeposit s.db.stakeDeposits) s.chain + valueOf N (atDeposit s.db.stakeDeposits) out := by
      have hrest : ((t.tx.vout.erase out).map (valueOf N (atDeposit s.db.stakeDeposits))).sum = 0 := by
        refine List.sum_eq_zero fun x hx => ?_
        obtain ⟨change, hc, rfl⟩ := List.mem_map.1 hx
        rw [valueOf, if_neg]
        intro hat
        obtain ⟨a, ha, hdeposit⟩ := (Option.any_eq_true _ _).1 hat
        obtain ⟨d, hd, heq⟩ := List.any_eq_true.1 hdeposit
        exact (hchange change hc).2 d hd (of_decide_eq_true heq ▸ ha)
      rw [inflow, income, hnot, createdValue_eq, ← List.sum_map_erase _ hout, hrest]
      simp [inflow]
    have hvalue : outputValue t.tx = amount + ((t.tx.vout.erase out).map (·.nValue)).sum := by
      rw [outputValue, ← List.sum_map_erase _ hout, hamount]
    have hmine := valueOf_le_mine hsound.atDeposit_mine hnonneg
    have hpaid := s.paidTo_pay ⟨.pool, v, dest, amount, t⟩ .pool fun _ => true
    rw [if_pos ⟨rfl, rfl⟩] at hpaid
    have hold := h.accounted
    show inflow N (atDeposit s.db.stakeDeposits) (t :: s.chain) ≤ held N (t :: s.chain) + _ + _
    rw [hinflow, hheld, hpaid, hfees, networkFee, hvalue]
    show _ ≤ _ + (_ + amount) + _
    omega
  · rw [hfees]
    exact of_decide_eq_true hcovered

theorem Backed.payAdmin (h : Backed N s)
    (hsound : Sound cfg N s) (hsound' : Sound cfg N (s.pay ⟨.admin, v, dest, amount, t⟩)) (hsmall : SmallCoins N [t])
    (htrue : Op.truthful N s (.rpc (.sendToAddress .admin v dest amountCac)) (.sent t) = true) :
    Backed N (s.pay ⟨.admin, v, dest, amount, t⟩) := by
  have hfees := networkFees_pay h.made hsound hsound'
  rw [if_neg (by simp), Int.add_zero] at hfees
  have hforeign : ¬spendsOwned N (t :: s.chain) t := by
    intro howned
    obtain ⟨k, hk, out, a, hlookup, ha, hmine⟩ := howned.exists_lookup hsound'.valid.chained (List.suffix_refl _)
    simp only [Op.truthful, Bool.and_eq_true, List.all_eq_true] at htrue
    have hout := htrue.2 k hk
    rw [hlookup, Option.any_some, Node.owns, ha, Option.any_some, hmine] at hout
    cases hout
  have hflow : inflow N (atDeposit s.db.stakeDeposits) (t :: s.chain) - inflow N (atDeposit s.db.stakeDeposits) s.chain ≤
      held N (t :: s.chain) - held N s.chain :=
    hsound'.valid.inflow_cons hsound'.chain_consistent hsound.atDeposit_mine (List.suffix_refl _)
      fun howned => absurd howned hforeign
  have hpaid := s.paidTo_pay ⟨.admin, v, dest, amount, t⟩ .pool fun _ => true
  rw [if_neg (by simp), Int.add_zero] at hpaid
  refine ⟨h.stale, h.small.cons hsmall, ?_, ?_, ?_⟩
  · intro p hp
    rcases List.mem_append.1 hp with hp | hp
    · exact List.mem_cons_of_mem t (h.made p hp)
    · rw [List.mem_singleton.1 hp]
      exact List.mem_cons_self
  · have hold := h.accounted
    show inflow N (atDeposit s.db.stakeDeposits) (t :: s.chain) ≤ held N (t :: s.chain) + _ + _
    rw [hpaid, hfees]
    omega
  · rw [hfees]
    exact h.fees

theorem Backed.of_chain {txs : List WalletTx} (h : Backed N s) (hsound : Sound cfg N s) (hs : s.chain <:+ txs)
    (hstakes : ∀ t ∈ txs, t ∉ s.chain → spendsOwned N txs t → Staking.isCoinstake t.tx = true)
    (hsmall : SmallCoins N txs) (hext : (External.chain txs).apply s = some s') (hstale : s'.stale = [])
      (hsound' : Sound cfg N s') :
    Backed N s' := by
  have hfees : networkFees s' = networkFees s := by
    refine networkFees_congr ?_ h.made ?_ hsound'
    · cases hext
      rfl
    · cases hext
      exact hs
  cases hext
  have hflow : inflow N (atDeposit s.db.stakeDeposits) txs - inflow N (atDeposit s.db.stakeDeposits) s.chain ≤
      held N txs - held N s.chain :=
    hsound'.valid.inflow_suffix hsound'.chain_consistent hsound.atDeposit_mine hs (List.suffix_refl _) hstakes
  refine ⟨hstale, hsmall, fun p hp => hs.subset (h.made p hp), ?_, ?_⟩
  · have hold := h.accounted
    rw [hfees]
    show inflow N (atDeposit s.db.stakeDeposits) txs ≤ held N txs + s.paidTo .pool (fun _ => true) + _
    omega
  · rw [hfees]
    exact h.fees

theorem Backed.of_reachable {P : GPool} (hfee : 0 ≤ cfg.poolFeeBp) (h : Reachable (gateway cfg) (coveredRun N) {} P) :
    Sound cfg N P.state ∧ Backed N P.state := by
  refine truthful_invariant (K := Backed N) (fun P e hA => ?_) h ?_ ?_ ?_
  · simp only [coveredRun, sequentialRun, growingChain, Bool.and_eq_true] at hA
    exact hA.1.1.2.1
  · exact ⟨rfl, fun _ hc => (List.not_mem_nil hc).elim, fun _ hp => (List.not_mem_nil hp).elim, le_refl (0 : Int),
      le_refl (0 : Int)⟩
  · intro P i x o r s' hA ho hsound hK hpre hsem _ hsound'
    simp only [coveredRun, sequentialRun, growingChain, truthfulRun, ho, Option.all_some, Bool.and_eq_true] at hA
    obtain ⟨⟨⟨-, ⟨htrue, -⟩, -⟩, hexact⟩, hcovered, hsmall⟩ := hA
    cases o with
    | sql q =>
      obtain ⟨-, rfl⟩ := sem_sql (x := x) hsem
      exact hK.of_sql hsound hfee hpre htrue
    | rpc c =>
      rcases sem_rpc (x := x) hsem with rfl | ⟨wallet, v, dest, amountCac, amount, t, rfl, rfl, hread, -, -, rfl⟩
      · exact hK
      · cases wallet with
        | pool => exact hK.payPool hsound hsound' hread (of_decide_eq_true hsmall) htrue hexact hcovered
        | admin => exact hK.payAdmin hsound hsound' (of_decide_eq_true hsmall) htrue
  · intro P e s' hA hsound hK hext _ hsound'
    cases e with
    | signup referredBy =>
      obtain rfl := signup_eq hext
      exact hK.congr rfl rfl rfl rfl (le_refl _)
    | chain txs =>
      simp only [coveredRun, sequentialRun, growingChain, Bool.and_eq_true, decide_eq_true_eq] at hA
      obtain ⟨⟨⟨-, -, hs⟩, hstakes⟩, hsmall⟩ := hA
      exact hK.of_chain hsound hs hstakes hsmall hext (stale_of_suffix hK.stale hs hext) hsound'

end

theorem pool_solvent (hfee : 0 ≤ cfg.poolFeeBp) {P : GPool} (h : Reachable (gateway cfg) (coveredRun N) {} P)
    (hidle : P.busy (fun _ => true) = false) (hus : us.Nodup)
    (hall : ∀ d ∈ P.state.db.stakeDeposits, d.userId ∈ us) :
    reportedTotal cfg us P.state.db ≤ held N P.state.chain := by
  obtain ⟨hsound, hbacked⟩ := Backed.of_reachable hfee h
  have hfull : Reachable (gateway cfg) (fullWithdrawals fun _ => true) {} P := by
    refine h.mono fun P e hA => ?_
    simp only [coveredRun, sequentialRun, Bool.and_eq_true] at hA
    exact hA.1.1.1
  have hpaid := (Balanced.of_reachable hfull hidle).paid
  have hworth := hsound.holdings_le_inflow hbacked.stale hbacked.small
  have hin := hbacked.accounted
  have hfees := hbacked.fees
  rw [reportedTotal_eq cfg hus hall]
  omega

def largeStake : WalletTx := sampleStake 12 ⟨11, 0⟩ 1100

def coveredPayment : WalletTx := ⟨31, { vin := [⟨⟨12, 1⟩, [], 0, []⟩], vout := [⟨1095, [60]⟩, ⟨3, [9]⟩] }⟩

def coveredWithdrawal : List GEvent :=
  .ext (.chain [largeStake, sampleDeposit]) :: .spawn .watcherPass ::
    [.names ["stakingpool"], .none, .names ["stakingpool"], .none, .txout none, .txids [11, 12], .none,
      .tx sampleDeposit.tx, .none, .tx largeStake.tx, .tx sampleDeposit.tx, .none].map (.step 2) ++
    .spawn (.withdraw 1 1095 60) ::
      [.none, .none, .names ["stakingpool"], .sent coveredPayment, .none].map (.step 3)

theorem coveredWithdrawal_solvent :
    ∃ P : GPool, Reachable (gateway {}) (coveredRun sampleNode) {} P ∧ P.busy (fun _ => true) = false ∧
      networkFees P.state = 2 ∧ held sampleNode P.state.chain = 3 ∧
      (∀ d ∈ P.state.db.stakeDeposits, d.userId ∈ [1]) ∧
      reportedTotal {} [1] P.state.db ≤ held sampleNode P.state.chain := by
  have hrun : ∃ P : GPool, Reachable (gateway {}) (coveredRun sampleNode) {} P ∧ P.busy (fun _ => true) = false ∧
      networkFees P.state = 2 ∧ held sampleNode P.state.chain = 3 ∧ ∀ d ∈ P.state.db.stakeDeposits, d.userId ∈ [1] :=
    Reachable.exists_of_run (sampleActive ++ coveredWithdrawal) (by decide +kernel)
  obtain ⟨P, hreach, hidle, hfees, hheld, hall⟩ := hrun
  exact ⟨P, hreach, hidle, hfees, hheld, hall,
    pool_solvent {} sampleNode (by decide) hreach hidle (by decide) hall⟩

def uncoveredPayment : WalletTx :=
  ⟨31, { vin := [⟨⟨11, 0⟩, [], 0, []⟩, ⟨⟨21, 0⟩, [], 0, []⟩], vout := [⟨1000, [60]⟩, ⟨999, [9]⟩] }⟩

def uncoveredWithdrawal : List GEvent :=
  .spawn (.withdraw 1 1000 60) :: [.none, .none, .names ["stakingpool"], .sent uncoveredPayment, .none].map (.step 3)

/-- **The network fee of a withdrawal is missing.** The status of user 2 reports 1000 satoshis, of which 999 are left.
Without any withdrawal, a deposit of 3355443200000019 satoshis is reported with one satoshi more. -/
theorem network_fee_insolvent :
    (∃ P : GPool, Reachable (gateway {}) (sequentialRun sampleNode) {} P ∧ P.busy (fun _ => true) = false ∧
      networkFees P.state = 1 ∧ held sampleNode P.state.chain = 999 ∧ reportedTotal {} [1, 2] P.state.db = 1000) ∧
    ∃ P : GPool, Reachable (gateway {}) (sequentialRun sampleNode) {} P ∧ P.busy (fun _ => true) = false ∧
      networkFees P.state = 0 ∧ held sampleNode P.state.chain = 3355443200000019 ∧
      reportedTotal {} [1] P.state.db = 3355443200000020 := by
  refine ⟨Reachable.exists_of_run (twoDeposits ++ uncoveredWithdrawal) ?_,
    Reachable.exists_of_run (activeOf 3355443200000019) ?_⟩
  · decide +kernel
  · decide +kernel

end CodexaCoin.Gateway
