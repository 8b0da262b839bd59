import CodexaCoin.Gateway.Rewards

/-!
# Deposits of different users

The ledger knows which coin is whose, but `sendtoaddress` pays with any coins of the pool's wallet.
-/

namespace CodexaCoin.Gateway

open Process Table History

variable (cfg : Config) (N : Node)

/-- The coins that descend from an output: the output, and what the coinstakes that spend such coins pay. Their first
output is empty and only marks them as coinstakes. -/
def coinsOf (o : COutPoint) : List WalletTx → List COutPoint
  | [] => [o]
  | t :: earlier =>
    if Staking.isCoinstake t.tx && (coinsOf o earlier).any fun k => Staking.spends t.tx k then
      (t.entry.creates.filter fun c => !c.2.isEmpty).map (·.1) ++ coinsOf o earlier
    else coinsOf o earlier

/-- The wallet has no spendable coin at the address of a deposit of another user, unless that one is withdrawn. -/
def Op.sparesOthers (s : State) : Op → Bool
  | .rpc (.sendToAddress .pool v _ _) => decide (∀ c ∈ outputs s.chain, c.1 ∈ utxos s.chain →
      N.spendable s.chain c.1 = true → ∀ d ∈ s.db.stakeDeposits, d.status ≠ .withdrawn →
        N.extract c.2.scriptPubKey = some d.depositAddress → d.userId = v)
  | _ => true

/-- The answers are true, and the pool's coins are spent by coinstakes and by the gateway's payments only. -/
def poolRun (P : GPool) (e : GEvent) : Bool :=
  truthfulRun N P e && match e with
    | .ext (.chain txs) => decide (∀ t ∈ txs, (∃ c ∈ outputs txs, c.1 ∈ t.entry.spends ∧ N.owns c.2 = true) →
        Staking.isCoinstake t.tx = true ∨ t ∈ P.state.payments.map (·.made))
    | _ => true

/-- The same, with payments while the wallet has no spendable coins of other users. -/
def sparingRun (P : GPool) (e : GEvent) : Bool :=
  poolRun N P e && match e with
    | .step i _ => (P.next i).all fun o => o.sparesOthers N P.state
    | _ => true

/-- Payments have spent no coins of other users' deposits. -/
structure Isolated (s : State) : Prop where
  spenders : ∀ t ∈ s.chain, (∃ c ∈ outputs s.chain, c.1 ∈ t.entry.spends ∧ N.owns c.2 = true) →
    Staking.isCoinstake t.tx = true ∨ t ∈ s.payments.map (·.made)
  made : ∀ p ∈ s.payments, p.made ∈ s.known
  spared : ∀ p ∈ s.payments, ∀ c ∈ outputs s.known, c.1 ∈ p.made.entry.spends → ∀ d ∈ s.db.stakeDeposits,
    d.status ≠ .withdrawn → N.extract c.2.scriptPubKey = some d.depositAddress → p.wallet = .pool ∧ p.userId = d.userId

/-- A deposit that is not withdrawn was there before, or its address was never paid to. -/
def LiveDeposits (s s' : State) : Prop :=
  ∀ d' ∈ s'.db.stakeDeposits, d'.status ≠ .withdrawn →
    (∃ d ∈ s.db.stakeDeposits, d.status ≠ .withdrawn ∧ d.depositAddress = d'.depositAddress ∧ d.userId = d'.userId) ∨
      ∀ c ∈ outputs s.known, N.extract c.2.scriptPubKey ≠ some d'.depositAddress

section

variable {cfg N} {s s' : State} {x : Answer}

/-! ## The coins of a deposit -/

theorem coin_address (h : Sound cfg N s) {d : StakeDeposit} (hd : d ∈ s.db.stakeDeposits) {o k : COutPoint}
    (ho : d.funding = some o) {l : List WalletTx} (hl : l ⊆ s.chain) (hk : k ∈ coinsOf o l) {out : CTxOut}
    (hout : (k, out) ∈ outputs s.known) : N.extract out.scriptPubKey = some d.depositAddress := by
  induction l generalizing k out with
  | nil =>
    obtain rfl := List.mem_singleton.1 hk
    obtain ⟨out', hout', haddress, -⟩ := h.funding_output hd ho
    rw [h.consistent.outputs_inj hout hout']
    exact haddress
  | cons t l ih =>
    have hold : l ⊆ s.chain := fun t' ht' => hl (List.mem_cons_of_mem t ht')
    rw [coinsOf] at hk
    split at hk
    · next hspends =>
      rcases List.mem_append.1 hk with hk | hk
      · -- The coinstake spends a coin of the deposit, so its outputs are at the address of that coin.
        have ht : t ∈ s.chain := hl List.mem_cons_self
        obtain ⟨hstake, hany⟩ := Bool.and_eq_true_iff.1 hspends
        obtain ⟨k', hk', hspent⟩ := List.any_eq_true.1 hany
        have hspent' := (mem_spends_iff hstake).2 hspent
        obtain ⟨out', hout'⟩ := h.valid.chained.spent_created ht hspent'
        have haddress := ih hold hk' (created_subset (List.subset_append_left _ _) hout')
        obtain ⟨-, hhome, -⟩ := h.valid.home t ht hstake (k', out') hout' hspent' (h.owns hd haddress)
        obtain ⟨⟨k1, out1⟩, hc, rfl⟩ := List.mem_map.1 hk
        obtain ⟨hc, hne⟩ := List.mem_filter.1 hc
        have hknown : (k1, out1) ∈ outputs s.known := mem_created.2 ⟨t, List.mem_append_left _ ht, hc⟩
        obtain rfl := h.consistent.outputs_inj hout hknown
        rcases hhome out (List.mem_of_getElem? (mem_creates.1 hc).2) with hempty | hat
        · simp [hempty] at hne
        · exact hat.trans haddress
      · exact ih hold hk hout
    · exact ih hold hk hout

/-! ## One step -/

theorem liveDeposits_of_sql {q : Stmt} (htrue : Op.truthful N s (.sql q) x = true)
    (honce : Op.activatesAwaiting s (.sql q) = true) : LiveDeposits N s (s.runSql q).2 := by
  have hsame : ∀ s' : State, s'.db.stakeDeposits = s.db.stakeDeposits → LiveDeposits N s s' := by
    intro s' hdeposits d hd hst
    exact .inl ⟨d, hdeposits ▸ hd, hst, rfl, rfl⟩
  cases q with
  | insertDeposit v address =>
    intro d hd hst
    rcases Db.mem_insertDeposit.1 hd with hd | ⟨-, rfl⟩
    · exact .inl ⟨d, hd, hst, rfl, rfl⟩
    · exact .inr (of_decide_eq_true htrue)
  | activateDeposit id funding amount =>
    intro d hd hst
    obtain ⟨d', hd', rfl⟩ := Db.mem_activateDeposit.1 hd
    refine .inl ⟨d', hd', ?_⟩
    split
    · next hid => exact ⟨by simp [of_decide_eq_true honce d' hd' hid], rfl, rfl⟩
    · next hid =>
      rw [if_neg hid] at hst
      exact ⟨hst, rfl, rfl⟩
  | closeDeposits v =>
    intro d hd hst
    obtain ⟨d', hd', rfl⟩ := Db.mem_closeDeposits.1 hd
    split at hst
    · exact absurd rfl hst
    · next hclosed =>
      rw [if_neg hclosed]
      exact .inl ⟨d', hd', hst, rfl, rfl⟩
  | insertReward reward => exact hsame _ (Db.insertReward_stakeDeposits reward)
  | _ => exact hsame _ rfl

theorem Isolated.congr (h : Isolated N s) (hsound : Sound cfg N s) (hs : Grown s s') (hsound' : Sound cfg N s')
    (hpayments : s'.payments = s.payments) (hlive : LiveDeposits N s s')
    (hspenders : ∀ t ∈ s'.chain, (∃ c ∈ outputs s'.chain, c.1 ∈ t.entry.spends ∧ N.owns c.2 = true) →
      Staking.isCoinstake t.tx = true ∨ t ∈ s'.payments.map (·.made)) : Isolated N s' := by
  refine ⟨hspenders, ?_, ?_⟩
  · rw [hpayments]
    exact fun p hp => hs.known (h.made p hp)
  · rw [hpayments]
    intro p hp c hc hspent d' hd' hst haddress
    have hc' := hsound.spent_known hs hsound' (h.made p hp) hc hspent
    rcases hlive d' hd' hst with ⟨d, hd, hst1, haddress1, huser⟩ | hnew
    · rw [← huser]
      exact h.spared p hp c hc' hspent d hd hst1 (haddress1 ▸ haddress)
    · exact absurd haddress (hnew c hc')

section Payment

variable {wallet : Wallet} {v : UserId} {dest : Address} {amountCac : ℚ} {amount : Int} {t : WalletTx}
  (hsound : Sound cfg N s)
  (htrue : Op.truthful N s (.rpc (.sendToAddress wallet v dest amountCac)) (.sent t) = true)
  (hspares : Op.sparesOthers N s (.rpc (.sendToAddress wallet v dest amountCac)) = true)
include hsound htrue hspares

theorem payment_spares {k : COutPoint} {out : CTxOut} (hlookup : (utxos s.chain).lookup k = some out)
    (hspent : k ∈ t.entry.spends) {d : StakeDeposit} (hd : d ∈ s.db.stakeDeposits) (hst : d.status ≠ .withdrawn)
    (haddress : N.extract out.scriptPubKey = some d.depositAddress) : wallet = .pool ∧ v = d.userId := by
  cases wallet with
  | pool =>
    simp only [Op.truthful, Bool.and_eq_true, List.all_eq_true] at htrue
    have hspendable := (htrue.2 k hspent).1
    have hunspent : k ∈ utxos s.chain := Finmap.mem_iff.2 ⟨out, hlookup⟩
    refine ⟨rfl, (of_decide_eq_true hspares (k, out) (lookup_unspent hlookup) hunspent hspendable d hd hst haddress).symm⟩
  | admin =>
    simp only [Op.truthful, Bool.and_eq_true, List.all_eq_true] at htrue
    have hforeign := htrue.2 k hspent
    rw [hlookup, Option.any_some, hsound.owns hd haddress] at hforeign
    cases hforeign

theorem Isolated.pay (h : Isolated N s) (hs : Grown s (s.pay ⟨wallet, v, dest, amount, t⟩))
    (hsound' : Sound cfg N (s.pay ⟨wallet, v, dest, amount, t⟩)) : Isolated N (s.pay ⟨wallet, v, dest, amount, t⟩) := by
  refine ⟨?_, ?_, ?_⟩
  · rintro t' ht' ⟨c, hc, hspent, howns⟩
    rcases List.mem_cons.1 ht' with rfl | ht'
    · exact .inr (List.mem_map.2 ⟨_, List.mem_append_right _ (List.mem_singleton_self _), rfl⟩)
    · have hc' := hsound.spent_known hs hsound' (List.mem_append_left _ ht')
        (created_subset (List.subset_append_left _ _) hc) hspent
      rcases h.spenders t' ht' ⟨c, hsound.spent_on_chain ht' hspent hc', hspent, howns⟩ with hstake | hmade
      · exact .inl hstake
      · obtain ⟨p, hp, rfl⟩ := List.mem_map.1 hmade
        exact .inr (List.mem_map.2 ⟨p, List.mem_append_left _ hp, rfl⟩)
  · intro p hp
    rcases List.mem_append.1 hp with hp | hp
    · exact hs.known (h.made p hp)
    · rw [List.mem_singleton.1 hp]
      exact List.mem_cons_self
  · intro p hp c hc hspent d hd hst haddress
    rcases List.mem_append.1 hp with hp | hp
    · exact h.spared p hp c (hsound.spent_known hs hsound' (h.made p hp) hc hspent) hspent d hd hst haddress
    · obtain rfl := List.mem_singleton.1 hp
      obtain ⟨k, out⟩ := c
      -- The payment spends an unspent output, which is then the same.
      obtain ⟨out', hlookup⟩ := Finmap.mem_iff.1 (hsound'.valid.chained.2.2.1 k hspent)
      obtain rfl : out = out' := hsound'.consistent.outputs_inj hc (hs.outputs (mem_known_of_lookup hlookup))
      exact payment_spares hsound htrue hspares hlookup hspent hd hst haddress

end Payment

theorem Isolated.of_step {o : Op} {r : o.Res} (h : Isolated N s) (hsound : Sound cfg N s)
    (htrue : o.truthful N s x = true) (honce : o.activatesAwaiting s = true) (hspares : o.sparesOthers N s = true)
    (hsem : sem o x s = some (r, s')) (hs : Grown s s') (hsound' : Sound cfg N s') : Isolated N s' := by
  cases o with
  | sql q =>
    obtain ⟨-, rfl⟩ := sem_sql hsem
    exact h.congr hsound hs hsound' rfl (liveDeposits_of_sql htrue honce) h.spenders
  | rpc c =>
    rcases sem_rpc hsem with rfl | ⟨wallet, v, dest, amountCac, amount, t, rfl, rfl, -, -, -, rfl⟩
    · exact h
    · exact Isolated.pay hsound htrue hspares h hs hsound'

end

/-! ## All runs -/

theorem isolated_deposits {P : GPool} (h : Reachable (gateway cfg) (sparingRun N) {} P) {d : StakeDeposit}
    (hd : d ∈ P.state.db.stakeDeposits) (hactive : d.status = .active) {o k : COutPoint} (ho : d.funding = some o)
    (hk : k ∈ coinsOf o P.state.chain) {t : WalletTx} (ht : t ∈ P.state.chain) (hspent : k ∈ t.entry.spends) :
    Staking.isCoinstake t.tx = true ∨ ∃ p ∈ P.state.payments, p.made = t ∧ p.wallet = .pool ∧ p.userId = d.userId := by
  obtain ⟨hsound, hisolated⟩ : Sound cfg N P.state ∧ Isolated N P.state := by
    refine truthful_invariant (K := Isolated N) (fun P e hA => ?_) h ?_ ?_ ?_
    · exact (Bool.and_eq_true_iff.1 (Bool.and_eq_true_iff.1 hA).1).1
    · exact ⟨fun _ h => (List.not_mem_nil h).elim, fun _ h => (List.not_mem_nil h).elim,
        fun _ h => (List.not_mem_nil h).elim⟩
    · intro P i x o r s' hA hnext hsound hK _ hsem hs hsound'
      simp only [sparingRun, poolRun, truthfulRun, hnext, Option.all_some, Bool.and_eq_true] at hA
      exact hK.of_step hsound hA.1.1.1 hA.1.1.2 hA.2 hsem hs hsound'
    · intro P e s' hA hsound hK hext hs hsound'
      cases e with
      | signup referredBy =>
        obtain rfl := signup_eq hext
        exact ⟨hK.spenders, hK.made, hK.spared⟩
      | chain txs =>
        have hspenders := of_decide_eq_true (Bool.and_eq_true_iff.1 (Bool.and_eq_true_iff.1 hA).1).2
        cases hext
        exact hK.congr hsound hs hsound' rfl (fun d hd hst => .inl ⟨d, hd, hst, rfl, rfl⟩) hspenders
  obtain ⟨out, hout⟩ := hsound.valid.chained.spent_created ht hspent
  have hknown : (k, out) ∈ outputs P.state.known := created_subset (List.subset_append_left _ _) hout
  have haddress := coin_address hsound hd ho (fun _ h => h) hk hknown
  rcases hisolated.spenders t ht ⟨(k, out), hout, hspent, hsound.owns hd haddress⟩ with hstake | hmade
  · exact .inl hstake
  · obtain ⟨p, hp, rfl⟩ := List.mem_map.1 hmade
    obtain ⟨hpool, huser⟩ := hisolated.spared p hp (k, out) hknown hspent d hd (by simp [hactive]) haddress
    exact .inr ⟨p, hp, rfl, hpool, huser⟩

theorem firstStake_isolated :
    ∃ P : GPool, Reachable (gateway {}) (sparingRun sampleNode) {} P ∧ ∃ d ∈ P.state.db.stakeDeposits,
      d.status = .active ∧ ⟨11, 0⟩ ∈ coinsOf ⟨11, 0⟩ P.state.chain ∧ firstStake ∈ P.state.chain ∧
      ⟨11, 0⟩ ∈ firstStake.entry.spends ∧ (Staking.isCoinstake firstStake.tx = true ∨
        ∃ p ∈ P.state.payments, p.made = firstStake ∧ p.wallet = .pool ∧ p.userId = d.userId) := by
  have hrun : ∃ P : GPool, Reachable (gateway {}) (sparingRun sampleNode) {} P ∧ ∃ d ∈ P.state.db.stakeDeposits,
      d.status = .active ∧ d.funding = some ⟨11, 0⟩ ∧ ⟨11, 0⟩ ∈ coinsOf ⟨11, 0⟩ P.state.chain ∧
        firstStake ∈ P.state.chain :=
    Reachable.exists_of_run (sampleActive ++ [.ext (.chain [firstStake, sampleDeposit])]) (by decide +kernel)
  obtain ⟨P, hreach, d, hd, hactive, ho, hk, ht⟩ := hrun
  have hspent : (⟨11, 0⟩ : COutPoint) ∈ firstStake.entry.spends := by decide
  exact ⟨P, hreach, d, hd, hactive, hk, ht, hspent, isolated_deposits {} sampleNode hreach hd hactive ho hk ht hspent⟩

def secondDeposit : WalletTx := ⟨21, { vin := [⟨.null, [], 0, []⟩], vout := [⟨1000, [8]⟩] }⟩

def twoDeposits : List GEvent :=
  .spawn (.createDeposit 1) :: [.names ["stakingpool"], .address 7, .none, .done].map (.step 0) ++
    .spawn (.createDeposit 2) :: [.names ["stakingpool"], .address 8, .none, .done].map (.step 1) ++
    .ext (.chain [secondDeposit, sampleDeposit]) :: .spawn .watcherPass ::
      [.names ["stakingpool"], .none, .utxos [⟨⟨11, 0⟩, 1000⟩], .none, .none, .utxos [⟨⟨21, 0⟩, 1000⟩], .none, .none,
        .names ["stakingpool"], .none, .txout (some ⟨1000, [7]⟩), .txout (some ⟨1000, [8]⟩)].map (.step 2)

/-- A payment of 900 satoshis to address 60 from an output of 1000, with 99 satoshis of change at address 9. -/
def paymentFrom (o : COutPoint) : WalletTx :=
  ⟨31, { vin := [⟨o, [], 0, []⟩], vout := [⟨900, [60]⟩, ⟨99, [9]⟩] }⟩

def foreignWithdrawal : List GEvent :=
  .spawn (.withdraw 1 900 60) ::
    [.none, .none, .names ["stakingpool"], .sent (paymentFrom ⟨21, 0⟩), .none].map (.step 3)

/-- **A withdrawal spends the coin of another user's active deposit.** -/
theorem foreign_coin_spent :
    ∃ P : GPool, Reachable (gateway {}) (poolRun sampleNode) {} P ∧ P.busy (fun _ => true) = false ∧
      ∃ d ∈ P.state.db.stakeDeposits, d.status = .active ∧ ∃ p ∈ P.state.payments, p.wallet = .pool ∧
        p.userId ≠ d.userId ∧ p.made ∈ P.state.chain ∧ Staking.isCoinstake p.made.tx = false ∧
        d.funding.any (fun o => decide (o ∈ p.made.entry.spends)) = true := by
  refine Reachable.exists_of_run (twoDeposits ++ foreignWithdrawal) ?_
  decide +kernel

end CodexaCoin.Gateway
