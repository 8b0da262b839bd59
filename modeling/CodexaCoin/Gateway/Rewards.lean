import CodexaCoin.Gateway.Truth

/-!
# The rewards that are recorded

`_attribute_rewards` records the coinstakes that spend the funding output of a deposit: not those that spend their
outputs again, and also those that a reorganization has removed.
-/

namespace CodexaCoin.Gateway

open Process Table History

variable (cfg : Config) (N : Node) {d : StakeDeposit}

def depositStakes (chain : List WalletTx) (d : StakeDeposit) : List WalletTx :=
  d.funding.elim [] fun o => stakesOf o chain

/-- The coinstakes of a deposit that spend its funding output. -/
def firstStakes (chain : List WalletTx) (d : StakeDeposit) : List WalletTx :=
  (depositStakes chain d).filter fun t => d.funding.any (Staking.spends t.tx)

/-- The coinstakes of a deposit that spend the outputs of earlier ones. -/
def restakes (chain : List WalletTx) (d : StakeDeposit) : List WalletTx :=
  (depositStakes chain d).filter fun t => !d.funding.any (Staking.spends t.tx)

/-- All known coinstakes of the pool's outputs are on the chain. -/
def StakesKept (s : State) : Prop :=
  ∀ t ∈ s.known, Staking.isCoinstake t.tx = true → (∃ c ∈ outputs s.known, c.1 ∈ t.entry.spends ∧ N.owns c.2 = true) →
    t ∈ s.chain

section

variable {cfg N} {s s' : State} {d : StakeDeposit} {t : WalletTx} {out : CTxOut}

theorem mem_firstStakes : t ∈ firstStakes s.chain d ↔
    ∃ o, d.funding = some o ∧ t ∈ s.chain ∧ Staking.isCoinstake t.tx = true ∧ Staking.spends t.tx o = true := by
  rw [firstStakes, depositStakes, List.mem_filter]
  cases d.funding with
  | none => simp
  | some o =>
    simp only [Option.elim_some, Option.any_some, Option.some.injEq, exists_eq_left']
    constructor
    · rintro ⟨ht, hspends⟩
      exact ⟨stakesOf_sublist.subset ht, isCoinstake_of_mem_stakesOf ht, hspends⟩
    · rintro ⟨ht, hstake, hspends⟩
      exact ⟨mem_stakesOf_of_spends ht hstake hspends, hspends⟩

theorem Sound.chain_consistent (h : Sound cfg N s) : Consistent s.chain := by
  intro t ht t' ht'
  exact h.consistent t (List.mem_append_left _ ht) t' (List.mem_append_left _ ht')

theorem Sound.spent_on_chain (h : Sound cfg N s) (ht : t ∈ s.chain) {k : COutPoint}
    (hk : k ∈ t.entry.spends) (hout : (k, out) ∈ outputs s.known) : (k, out) ∈ outputs s.chain := by
  obtain ⟨out', hout'⟩ := h.valid.chained.spent_created ht hk
  have hknown : (k, out') ∈ outputs s.known := created_subset (List.subset_append_left _ _) hout'
  rw [h.consistent.outputs_inj hout hknown]
  exact hout'

theorem InputsAre.restrict {known chain : List WalletTx} {vin : List CTxIn} {ins : List CTxOut}
    (hins : InputsAre known vin ins)
    (hsub : ∀ i ∈ vin, ∀ out, (i.prevout, out) ∈ outputs known → (i.prevout, out) ∈ outputs chain) :
    InputsAre chain vin ins := by
  induction hins with
  | nil => exact .nil
  | cons hout _ ih =>
    exact .cons (hsub _ List.mem_cons_self _ hout) (ih fun i hi => hsub i (List.mem_cons_of_mem _ hi))

theorem Sound.owns (h : Sound cfg N s) (hd : d ∈ s.db.stakeDeposits)
    (haddress : N.extract out.scriptPubKey = some d.depositAddress) : N.owns out = true := by
  rw [Node.owns, haddress, Option.any_some]
  exact h.addresses d hd

theorem Sound.funding_output (h : Sound cfg N s) (hd : d ∈ s.db.stakeDeposits) {o : COutPoint}
    (ho : d.funding = some o) : ∃ out, (o, out) ∈ outputs s.known ∧ N.extract out.scriptPubKey = some d.depositAddress ∧
      N.owns out = true := by
  by_cases hst : d.status = .awaitingFunds
  · rw [(h.awaiting d hd hst).1] at ho
    cases ho
  · obtain ⟨o', out, hfunding, -, hout, haddress⟩ := h.funded d hd hst
    cases ho.symm.trans hfunding
    exact ⟨out, hout, haddress, h.owns hd haddress⟩

/-- **A recorded reward is that of a coinstake on the chain.** -/
theorem Sound.reward_on_chain (h : Sound cfg N s) (hkept : StakesKept N s)
    (hd : d ∈ s.db.stakeDeposits) {r : StakeReward} (hr : r ∈ s.db.stakeRewards) (hid : r.depositId = d.id) :
    ∃ o t, d.funding = some o ∧ t ∈ s.chain ∧ Staking.isCoinstake t.tx = true ∧ Staking.spends t.tx o = true ∧
      r = Staking.rewardRow cfg d.id t.txid (recordedReward s.chain t) := by
  obtain ⟨d', hd', o, hid', hst, hfunding, t, ht, ins, hstake, hspends, hins, hrow⟩ := h.rewards r hr
  obtain rfl := s.db.deposit_ext hd' hd (hid'.trans hid)
  obtain ⟨out, hout, -, howns⟩ := h.funding_output hd hfunding
  have hchain : t ∈ s.chain := hkept t ht hstake ⟨(o, out), hout, (mem_spends_iff hstake).2 hspends, howns⟩
  refine ⟨o, t, hfunding, hchain, hstake, hspends, ?_⟩
  have hins' : InputsAre s.chain t.tx.vin ins := by
    refine hins.restrict fun i hi out hout => h.spent_on_chain hchain ?_ hout
    exact (mem_spends_iff hstake).2 (List.any_eq_true.2 ⟨i, hi, decide_eq_true rfl⟩)
  rw [recordedReward, h.chain_consistent.sum_inputs _ hins']
  exact hrow

theorem Sound.reward_unique (h : Sound cfg N s) (hkept : StakesKept N s)
    (hd : d ∈ s.db.stakeDeposits) {r r' : StakeReward} (hr : r ∈ s.db.stakeRewards) (hr' : r' ∈ s.db.stakeRewards)
    (hid : r.depositId = d.id) (hid' : r'.depositId = d.id) : r = r' := by
  obtain ⟨o, t, ho, ht, hstake, hspends, hrow⟩ := h.reward_on_chain hkept hd hr hid
  obtain ⟨o', t', ho', ht', hstake', hspends', hrow'⟩ := h.reward_on_chain hkept hd hr' hid'
  cases ho.symm.trans ho'
  have heq := h.valid.chained.spent_once ht ht' ((mem_spends_iff hstake).2 hspends)
    ((mem_spends_iff hstake').2 hspends')
  rw [hrow, hrow', heq]

theorem Sound.rewards_of (h : Sound cfg N s) (hkept : StakesKept N s) (hd : d ∈ s.db.stakeDeposits) :
    s.db.stakeRewards.filter (fun r => decide (r.depositId = d.id)) = [] ∨
    ∃ r, s.db.stakeRewards.filter (fun r => decide (r.depositId = d.id)) = [r] := by
  refine eq_nil_or_singleton ((List.Nodup.of_map _ s.db.coinstakeTxid_unique).filter _) ?_
  intro r hr r' hr'
  obtain ⟨hr, hid⟩ := List.mem_filter.1 hr
  obtain ⟨hr', hid'⟩ := List.mem_filter.1 hr'
  exact h.reward_unique hkept hd hr hr' (of_decide_eq_true hid) (of_decide_eq_true hid')

end

/-! ## Reorganizations -/

/-- The answers are true, no reorganization removes a coinstake that spends an output of the pool, and coinstakes pay at
least what they spend. -/
def reorgsKeepStakes (P : GPool) (e : GEvent) : Bool :=
  truthfulRun N P e && match e with
    | .ext (.chain txs) =>
        decide (∀ t ∈ P.state.chain, Staking.isCoinstake t.tx = true →
          (∃ c ∈ outputs P.state.chain, c.1 ∈ t.entry.spends ∧ N.owns c.2 = true) → t ∈ txs) &&
        decide (∀ t ∈ txs, Staking.isCoinstake t.tx = true → 0 ≤ grossReward txs t)
    | _ => true

def StakesPay (chain : List WalletTx) : Prop :=
  ∀ t ∈ chain, Staking.isCoinstake t.tx = true → 0 ≤ grossReward chain t

section

variable {cfg N} {s s' : State} {txs : List WalletTx}

theorem Sound.spent_known (h : Sound cfg N s) (hs : Grown s s') (h' : Sound cfg N s') {t : WalletTx} (ht : t ∈ s.known)
    {c : COutPoint × CTxOut} (hc : c ∈ outputs s'.known) (hspent : c.1 ∈ t.entry.spends) : c ∈ outputs s.known := by
  obtain ⟨k, out⟩ := c
  obtain ⟨out', hout⟩ := h.resolved t ht k hspent
  rw [h'.consistent.outputs_inj hc (hs.outputs hout)]
  exact hout

theorem exists_inputsAre {vin : List CTxIn}
    (h : ∀ i ∈ vin, ∃ out, (i.prevout, out) ∈ outputs txs) : ∃ ins, InputsAre txs vin ins := by
  induction vin with
  | nil => exact ⟨[], .nil⟩
  | cons i vin ih =>
    obtain ⟨out, hout⟩ := h i List.mem_cons_self
    obtain ⟨ins, hins⟩ := ih fun i' hi' => h i' (List.mem_cons_of_mem i hi')
    exact ⟨out :: ins, .cons hout hins⟩

theorem ValidChain.grossReward_cons {chain : List WalletTx} {t t0 : WalletTx} (h : ValidChain N chain)
    (hconsistent : Consistent (t0 :: chain)) (ht : t ∈ chain) (hstake : Staking.isCoinstake t.tx = true) :
    grossReward (t0 :: chain) t = grossReward chain t := by
  have hresolved : ∀ i ∈ t.tx.vin, ∃ out, (i.prevout, out) ∈ outputs chain := by
    intro i hi
    exact h.chained.spent_created ht ((mem_spends_iff hstake).2 (List.any_eq_true.2 ⟨i, hi, decide_eq_true rfl⟩))
  obtain ⟨ins, hins⟩ := exists_inputsAre hresolved
  have hold : Consistent chain := fun t ht t' ht' =>
    hconsistent t (List.mem_cons_of_mem t0 ht) t' (List.mem_cons_of_mem t0 ht')
  have hins' : InputsAre (t0 :: chain) t.tx.vin ins := hins.imp fun _ _ => created_subset (List.subset_cons_self t0 chain)
  rw [grossReward, grossReward, inputValue, inputValue, hconsistent.sum_inputs _ hins', hold.sum_inputs _ hins]

theorem stakesKept_of_step {o : Op} {x : Answer} {r : o.Res} (h : Sound cfg N s) (hK : StakesKept N s ∧ StakesPay s.chain)
    (htrue : o.truthful N s x = true) (hsem : sem o x s = some (r, s')) (hs : Grown s s') (h' : Sound cfg N s') :
    StakesKept N s' ∧ StakesPay s'.chain := by
  cases o with
  | sql q =>
    obtain ⟨-, rfl⟩ := sem_sql hsem
    exact hK
  | rpc c =>
    rcases sem_rpc hsem with rfl | ⟨wallet, v, dest, amountCac, amount, t0, rfl, rfl, -, -, -, rfl⟩
    · exact hK
    · simp only [Op.truthful, Bool.and_eq_true, Bool.not_eq_true'] at htrue
      obtain ⟨⟨-, hpayment⟩, -⟩ := htrue
      refine ⟨?_, ?_⟩
      · rintro t ht hstake ⟨c, hc, hspent, howns⟩
        rcases List.mem_cons.1 ht with rfl | ht
        · exact List.mem_cons_self
        · exact List.mem_cons_of_mem t0 (hK.1 t ht hstake ⟨c, h.spent_known hs h' ht hc hspent, hspent, howns⟩)
      · intro t ht hstake
        rcases List.mem_cons.1 ht with rfl | ht
        · rw [hpayment] at hstake
          cases hstake
        · exact (h.valid.grossReward_cons h'.chain_consistent ht hstake).symm ▸ hK.2 t ht hstake

theorem stakesKept_of_chain (h : Sound cfg N s) (hK : StakesKept N s)
    (hkeeps : ∀ t ∈ s.chain, Staking.isCoinstake t.tx = true →
      (∃ c ∈ outputs s.chain, c.1 ∈ t.entry.spends ∧ N.owns c.2 = true) → t ∈ txs)
    (hext : (External.chain txs).apply s = some s') (hs : Grown s s') (h' : Sound cfg N s') : StakesKept N s' := by
  cases hext
  rintro t ht hstake ⟨c, hc, hspent, howns⟩
  by_cases hnew : t ∈ txs
  · exact hnew
  · have hknown : t ∈ s.known := by
      simp only [State.known, List.mem_append, List.mem_filter, hnew, false_or] at ht ⊢
      exact ht.imp And.left fun h => h
    have hc' := h.spent_known hs h' hknown hc hspent
    have hchain := hK t hknown hstake ⟨c, hc', hspent, howns⟩
    exact hkeeps t hchain hstake ⟨c, h.spent_on_chain hchain hspent hc', hspent, howns⟩

theorem stakesKept {P : GPool} (h : Reachable (gateway cfg) (reorgsKeepStakes N) {} P) :
    Sound cfg N P.state ∧ StakesKept N P.state ∧ StakesPay P.state.chain := by
  refine truthful_invariant (K := fun s => StakesKept N s ∧ StakesPay s.chain)
    (fun P e hA => (Bool.and_eq_true_iff.1 hA).1) h ?_ ?_ ?_
  · exact ⟨fun _ ht => (List.not_mem_nil ht).elim, fun _ ht => (List.not_mem_nil ht).elim⟩
  · intro P i x o r s' hA ho hsound hK _ hsem hs h'
    have htrue := (Bool.and_eq_true_iff.1 hA).1
    simp only [truthfulRun, ho, Option.all_some, Bool.and_eq_true] at htrue
    exact stakesKept_of_step hsound hK htrue.1 hsem hs h'
  · intro P e s' hA hsound hK hext hs h'
    cases e with
    | signup referredBy =>
      obtain rfl := signup_eq hext
      exact hK
    | chain txs =>
      simp only [Bool.and_eq_true, decide_eq_true_eq] at hA
      refine ⟨stakesKept_of_chain hsound hK.1 hA.2.1 hext hs h', ?_⟩
      cases hext
      exact hA.2.2

end

theorem credited_on_chain {P : GPool} (h : Reachable (gateway cfg) (reorgsKeepStakes N) {} P)
    (hd : d ∈ P.state.db.stakeDeposits) :
    ((∀ t ∈ firstStakes P.state.chain d, SmallTx P.state.chain t) →
      sumWhere (fun r => decide (r.depositId = d.id)) (·.grossRewardSatoshis) P.state.db.stakeRewards ≤
        ((depositStakes P.state.chain d).map (grossReward P.state.chain)).sum) ∧
    (P.state.db.stakeRewards.filter fun r => decide (r.depositId = d.id)).length ≤ 1 := by
  obtain ⟨hsound, hkept, hpay⟩ := stakesKept h
  have hnonneg : ∀ x ∈ (depositStakes P.state.chain d).map (grossReward P.state.chain), 0 ≤ x := by
    intro x hx
    obtain ⟨t, ht, rfl⟩ := List.mem_map.1 hx
    cases hfunding : d.funding with
    | none =>
      rw [depositStakes, hfunding] at ht
      cases ht
    | some o =>
      rw [depositStakes, hfunding] at ht
      exact hpay t (stakesOf_sublist.subset ht) (isCoinstake_of_mem_stakesOf ht)
  rw [sumWhere]
  rcases hsound.rewards_of hkept hd with hnone | ⟨r, hone⟩
  · rw [hnone]
    exact ⟨fun _ => List.sum_nonneg hnonneg, Nat.zero_le 1⟩
  · obtain ⟨hr, hid⟩ := List.mem_filter.1 (hone ▸ List.mem_singleton_self r)
    obtain ⟨o, t, ho, ht, hstake, hspends, hrow⟩ := hsound.reward_on_chain hkept hd hr (of_decide_eq_true hid)
    rw [hone]
    refine ⟨fun hsmall => ?_, le_refl 1⟩
    have hexact := hsound.valid.recordedReward_eq ht hstake (hsmall t (mem_firstStakes.2 ⟨o, ho, ht, hstake, hspends⟩))
    have hmem : grossReward P.state.chain t ∈ (depositStakes P.state.chain d).map (grossReward P.state.chain) := by
      rw [depositStakes, ho]
      exact List.mem_map_of_mem (mem_stakesOf_of_spends ht hstake hspends)
    have hgross : r.grossRewardSatoshis = grossReward P.state.chain t := by rw [hrow, ← hexact]; rfl
    simpa [hgross] using List.single_le_sum hnonneg _ hmem

def sampleNode : Node where
  extract script := script.head?.map UInt8.toNat
  mine a := decide (a < 50)
  spendable _ _ := true

def depositOf (value : Int) : WalletTx := ⟨11, { vin := [⟨.null, [], 0, []⟩], vout := [⟨value, [7]⟩] }⟩

def sampleDeposit : WalletTx := depositOf 1000

def sampleStake (txid : Uint256) (o : COutPoint) (value : Int) : WalletTx :=
  ⟨txid, { vin := [⟨o, [], 0, []⟩], vout := [⟨0, []⟩, ⟨value, [7]⟩] }⟩

/-- A deposit is funded with an amount, and a pass marks it active. -/
def activeOf (value : Int) : List GEvent :=
  .spawn (.createDeposit 1) :: [.names ["stakingpool"], .address 7, .none, .done].map (.step 0) ++
    .ext (.chain [depositOf value]) :: .spawn .watcherPass ::
      [.names ["stakingpool"], .none, .utxos [⟨⟨11, 0⟩, value⟩], .none, .none, .names ["stakingpool"], .none,
        .txout (some ⟨value, [7]⟩)].map (.step 1)

def sampleActive : List GEvent := activeOf 1000

/-- The answers that a pass gets after the funding output was staked. -/
def rewardPassOf (value staked : Int) : List Answer :=
  [.names ["stakingpool"], .none, .names ["stakingpool"], .none, .txout none, .txids [11, 12], .none,
    .tx (depositOf value).tx, .none, .tx (sampleStake 12 ⟨11, 0⟩ staked).tx, .tx (depositOf value).tx, .none]

def rewardPass : List Answer := rewardPassOf 1000 1020

def firstStake : WalletTx := sampleStake 12 ⟨11, 0⟩ 1020

def rewardOf (value staked : Int) : List GEvent :=
  .ext (.chain [sampleStake 12 ⟨11, 0⟩ staked, depositOf value]) :: .spawn .watcherPass ::
    (rewardPassOf value staked).map (.step 2)

def sampleReward : List GEvent := rewardOf 1000 1020

/-- 3355443200000001 satoshis are read as one less, and the 3355443200000003 after the stake as they are. -/
def roundedReward : List GEvent := activeOf 3355443200000001 ++ rewardOf 3355443200000001 3355443200000003

theorem sampleReward_on_chain :
    ∃ P : GPool, Reachable (gateway {}) (reorgsKeepStakes sampleNode) {} P ∧ ∃ d ∈ P.state.db.stakeDeposits,
      (∀ t ∈ firstStakes P.state.chain d, SmallTx P.state.chain t) ∧
      sumWhere (fun r => decide (r.depositId = d.id)) (·.grossRewardSatoshis) P.state.db.stakeRewards = 20 ∧
      sumWhere (fun r => decide (r.depositId = d.id)) (·.grossRewardSatoshis) P.state.db.stakeRewards ≤
        ((depositStakes P.state.chain d).map (grossReward P.state.chain)).sum ∧
      (P.state.db.stakeRewards.filter fun r => decide (r.depositId = d.id)).length ≤ 1 := by
  have hrun : ∃ P : GPool, Reachable (gateway {}) (reorgsKeepStakes sampleNode) {} P ∧ ∃ d ∈ P.state.db.stakeDeposits,
      (∀ t ∈ firstStakes P.state.chain d, SmallTx P.state.chain t) ∧
      sumWhere (fun r => decide (r.depositId = d.id)) (·.grossRewardSatoshis) P.state.db.stakeRewards = 20 :=
    Reachable.exists_of_run (sampleActive ++ sampleReward) (by decide +kernel)
  obtain ⟨P, hreach, d, hd, hsmall, hsum⟩ := hrun
  obtain ⟨hle, hone⟩ := credited_on_chain {} sampleNode hreach hd
  exact ⟨P, hreach, d, hd, hsmall, hsum, hle hsmall, hone⟩

def sampleReorg : List GEvent :=
  .ext (.chain [sampleStake 13 ⟨11, 0⟩ 1030, sampleDeposit]) :: .spawn .watcherPass ::
    [.names ["stakingpool"], .none, .names ["stakingpool"], .none, .txout none, .txids [11, 12, 13], .none,
      .tx sampleDeposit.tx, .none, .none, .tx (sampleStake 13 ⟨11, 0⟩ 1030).tx, .tx sampleDeposit.tx, .none].map (.step 3)

/-- **One funding output is credited for two coinstakes,** of which one is not on the chain any more. Without any
reorganization, a coinstake of 2 satoshis is credited with 3 where the amounts are rounded. -/
theorem reorganized_stake_credited_twice :
    (∃ P : GPool, Reachable (gateway {}) (truthfulRun sampleNode) {} P ∧ P.busy (fun _ => true) = false ∧
      ∃ d ∈ P.state.db.stakeDeposits,
        ((depositStakes P.state.chain d).map (grossReward P.state.chain)).sum <
          sumWhere (fun r => decide (r.depositId = d.id)) (·.grossRewardSatoshis) P.state.db.stakeRewards ∧
        (P.state.db.stakeRewards.filter fun r => decide (r.depositId = d.id)).length = 2) ∧
    ∃ P : GPool, Reachable (gateway {}) (reorgsKeepStakes sampleNode) {} P ∧ P.busy (fun _ => true) = false ∧
      ∃ d ∈ P.state.db.stakeDeposits, ((depositStakes P.state.chain d).map (grossReward P.state.chain)).sum = 2 ∧
        sumWhere (fun r => decide (r.depositId = d.id)) (·.grossRewardSatoshis) P.state.db.stakeRewards = 3 := by
  refine ⟨Reachable.exists_of_run (sampleActive ++ sampleReward ++ sampleReorg) ?_,
    Reachable.exists_of_run roundedReward ?_⟩
  · decide +kernel
  · decide +kernel

/-! ## Complete passes -/

/-- The call is answered, and the answer leaves nothing out: `listtransactions` lists the payments to the address of a
deposit, if these are at most the 50 that are asked for. -/
def Op.answered (s : State) : Op → Answer → Bool
  | .rpc _, .error _ => false
  | .rpc (.listTransactions id), .txids l => decide (∀ d ∈ s.db.stakeDeposits, d.id = id →
      ((outputs s.chain).filter fun c => decide (N.extract c.2.scriptPubKey = some d.depositAddress)).length ≤ 50 →
        ∀ c ∈ outputs s.chain, N.extract c.2.scriptPubKey = some d.depositAddress → c.1.hash ∈ l)
  | _, _ => true

/-- The answers are true, and blocks are only added to the chain. -/
def growingChain (P : GPool) (e : GEvent) : Bool :=
  truthfulRun N P e && match e with
    | .ext (.chain txs) => decide (P.state.chain <:+ txs)
    | _ => true

def answeredRun (P : GPool) (e : GEvent) : Bool :=
  growingChain N P e && match e with
    | .step i x => (P.next i).all fun o => o.answered N P.state x
    | _ => true

def aloneSetting : Prog.Setting Op Op.Res State Answer where
  sem := sem
  may o x s := o.truthful N s x = true ∧ o.answered N s x = true
  rely s s' := s' = s
  rely_refl _ := rfl
  rely_trans h h' := h'.trans h

def Recorded (s : State) (t : WalletTx) : Prop := t.txid ∈ s.db.stakeRewards.map (·.coinstakeTxid)

structure RewardsAdded (s s' : State) : Prop where
  chain : s'.chain = s.chain
  stale : s'.stale = s.stale
  deposits : s'.db.stakeDeposits = s.db.stakeDeposits
  rewards : s.db.stakeRewards ⊆ s'.db.stakeRewards

section

variable {cfg N} {s s' : State} {t : WalletTx} {dep : StakeDeposit} {d : StakeDeposit} {o : COutPoint}

theorem RewardsAdded.refl (s : State) : RewardsAdded s s := ⟨rfl, rfl, rfl, fun _ h => h⟩

theorem RewardsAdded.trans {s'' : State} (h : RewardsAdded s s') (h' : RewardsAdded s' s'') : RewardsAdded s s'' :=
  ⟨h'.chain.trans h.chain, h'.stale.trans h.stale, h'.deposits.trans h.deposits, fun _ hr => h'.rewards (h.rewards hr)⟩

theorem Recorded.mono (h : Recorded s t) (hs : RewardsAdded s s') : Recorded s' t := by
  obtain ⟨r, hr, heq⟩ := List.mem_map.1 h
  exact List.mem_map.2 ⟨r, hs.rewards hr, heq⟩

theorem RewardsAdded.insertReward (reward : StakeReward) : RewardsAdded s (s.runSql (.insertReward reward)).2 :=
  ⟨rfl, rfl, Db.insertReward_stakeDeposits reward, Db.subset_insertReward reward⟩

theorem not_error_of_answered {c : Call} {x : Answer} {e : RpcError} (h : Op.answered N s (.rpc c) x = true) :
    sem (.rpc c) x s ≠ some (.error e, s') := by
  intro hsem
  cases x with
  | error _ => cases c <;> cases h
  | _ =>
    obtain ⟨_, _, heq⟩ := Option.map_eq_some_iff.1 hsem
    cases heq

theorem creditCoinstake_records {funding : COutPoint} {txid : Uint256}
    (hconsistent : Consistent s.known) :
    (Staking.creditCoinstake cfg dep funding txid).Holds (aloneSetting N)
      (fun _ s' => RewardsAdded s s' ∧ ∀ t ∈ s.chain, t.txid = txid → Staking.isCoinstake t.tx = true →
        Staking.spends t.tx funding = true → Recorded s' t) (fun _ _ => True) s := by
  refine sql_holds rfl fun s1 hs1 => ⟨trivial, fun _ _ => ?_⟩
  obtain rfl : s1 = s := hs1
  refine .ite (fun halready s2 hs2 => ?_) fun _ => ?_
  · obtain rfl : s2 = s1 := hs2
    refine ⟨.refl s2, fun t _ htxid _ _ => ?_⟩
    obtain ⟨r, hr, heq⟩ := List.any_eq_true.1 halready
    exact List.mem_map.2 ⟨r, hr, (of_decide_eq_true heq).trans htxid.symm⟩
  · refine tryRpc_holds rfl rfl fun s2 hs2 => ⟨trivial, fun x r hmay hsem => ?_⟩
    obtain rfl : s2 = s1 := hs2
    cases r with
    | error e => exact absurd hsem (not_error_of_answered hmay.2)
    | ok tx =>
      obtain rfl := tx_of_sem hsem
      have hknown := mem_known_of_getRawTransaction hmay.1
      have htx : ∀ t ∈ s2.chain, t.txid = txid → t.tx = tx := by
        intro t ht htxid
        exact congrArg WalletTx.tx (hconsistent t (List.mem_append_left _ ht) _ hknown htxid)
      refine .ite (fun _ => ?_) fun hnot s3 hs3 => ?_
      · have hsum : (Staking.sumInputs 0 tx.vin).Holds (aloneSetting N) (fun _ s' => s' = s2) (fun _ s' => s' = s2) s2 :=
          reads_holds rfl (sumInputs_within fun c hc => by simp [Op.reads, hc]) (fun _ _ h hs => hs.trans h)
            (fun _ _ _ _ => trivial) rfl
        refine Prog.Holds.bind (hsum.mono (fun total s3 hs3 => ?_) fun _ _ _ => trivial)
        obtain rfl := hs3
        refine sql_holds (f := Prog.ret) rfl fun s4 hs4 => ⟨trivial, fun _ _ s5 hs5 => ?_⟩
        obtain rfl : s4 = s3 := hs4
        obtain rfl := hs5
        refine ⟨.insertReward _, fun t _ htxid _ _ => ?_⟩
        rw [Recorded, htxid]
        exact Db.mem_txids_insertReward _
      · obtain rfl : s3 = s2 := hs3
        refine ⟨.refl s3, fun t ht htxid hstake hspends => absurd ?_ hnot⟩
        rw [← htx t ht htxid, hstake, hspends]
        rfl

/-- What a pass can rely on to find the coinstakes of the deposits. -/
structure Linked (N : Node) (s : State) : Prop where
  valid : ValidChain N s.chain
  consistent : Consistent s.known
  fundings : ∀ d ∈ s.db.stakeDeposits, ∀ o, d.funding = some o → ∀ t ∈ s.chain, o ∈ t.entry.spends →
    ∃ out, (o, out) ∈ outputs s.chain ∧ N.extract out.scriptPubKey = some d.depositAddress ∧ N.owns out = true

theorem Sound.linked (h : Sound cfg N s) : Linked N s := by
  refine ⟨h.valid, h.consistent, fun d hd o ho t ht hspent => ?_⟩
  obtain ⟨out, hout, haddress, howns⟩ := h.funding_output hd ho
  exact ⟨out, h.spent_on_chain ht hspent hout, haddress, howns⟩

theorem RewardsAdded.linked (hs : RewardsAdded s s') : Linked N s' ↔ Linked N s := by
  have hknown : s'.known = s.known := by rw [State.known, State.known, hs.chain, hs.stale]
  constructor
  · intro h
    refine ⟨hs.chain ▸ h.valid, hknown ▸ h.consistent, ?_⟩
    rw [← hs.deposits, ← hs.chain]
    exact h.fundings
  · intro h
    refine ⟨hs.chain ▸ h.valid, hknown ▸ h.consistent, ?_⟩
    rw [hs.deposits, hs.chain]
    exact h.fundings

/-- At most 50 outputs went to the address of the deposit. -/
def ShortHistory (N : Node) (s : State) (d : StakeDeposit) : Prop :=
  ((outputs s.chain).filter fun c => decide (N.extract c.2.scriptPubKey = some d.depositAddress)).length ≤ 50

instance (N : Node) (s : State) (d : StakeDeposit) : Decidable (ShortHistory N s d) :=
  inferInstanceAs (Decidable (_ ≤ 50))

def AllRecorded (s : State) (d : StakeDeposit) : Prop :=
  ∀ o, d.funding = some o → ∀ t ∈ s.chain, Staking.isCoinstake t.tx = true → Staking.spends t.tx o = true → Recorded s t

theorem AllRecorded.mono (h : AllRecorded s d) (hs : RewardsAdded s s') : AllRecorded s' d := by
  intro o ho t ht hstake hspends
  exact (h o ho t (hs.chain ▸ ht) hstake hspends).mono hs

theorem Linked.listed {history : List Uint256} (h : Linked N s)
    (hd : d ∈ s.db.stakeDeposits) (ho : d.funding = some o) (hshort : ShortHistory N s d) (ht : t ∈ s.chain)
    (hstake : Staking.isCoinstake t.tx = true) (hspends : Staking.spends t.tx o = true)
    (hanswer : Op.answered N s (.rpc (.listTransactions d.id)) (.txids history) = true) : t.txid ∈ history := by
  have hspent : o ∈ t.entry.spends := (mem_spends_iff hstake).2 hspends
  obtain ⟨out, hout, haddress, howns⟩ := h.fundings d hd o ho t ht hspent
  obtain ⟨-, -, ⟨out', hout', hhome⟩, -⟩ := h.valid.home t ht hstake (o, out) hout hspent howns
  obtain ⟨n, hn⟩ := List.mem_iff_getElem?.1 hout'
  have hmem : (⟨t.txid, n⟩, out') ∈ outputs s.chain := mem_outputs.2 ⟨t, ht, rfl, hn⟩
  exact of_decide_eq_true hanswer d hd rfl hshort _ hmem (hhome.trans haddress)

theorem attributeDeposit_records (h : Linked N s) (hdep : dep ∈ s.db.stakeDeposits)
    (hshort : ShortHistory N s dep) :
    (Staking.attributeDeposit cfg dep).Holds (aloneSetting N) (fun _ s' => RewardsAdded s s' ∧ AllRecorded s' dep)
      (fun _ _ => True) s := by
  rw [Staking.attributeDeposit]
  split
  · next hnone =>
    intro s' hs'
    obtain rfl : s' = s := hs'
    refine ⟨.refl s', fun o ho => ?_⟩
    rw [hnone] at ho
    cases ho
  · next funding hfunding =>
    refine tryRpc_holds rfl rfl fun s1 hs1 => ⟨trivial, fun x r hmay hsem => ?_⟩
    obtain rfl : s1 = s := hs1
    cases r with
    | error e => exact absurd hsem (not_error_of_answered hmay.2)
    | ok stillUnspent =>
      obtain rfl := txout_of_sem hsem
      have hlookup := lookup_of_getTxOut hmay.1
      cases stillUnspent with
      | some out =>
        -- An output that is still unspent has not been staked.
        intro s2 hs2
        obtain rfl : s2 = s1 := hs2
        refine ⟨.refl s2, fun o ho t ht hstake hspends => ?_⟩
        cases hfunding.symm.trans ho
        refine absurd (Finmap.mem_iff.2 ⟨out, hlookup⟩) (h.valid.chained.not_unspent ht ?_)
        exact (mem_spends_iff hstake).2 hspends
      | none =>
        refine rpc_holds rfl rfl fun s2 hs2 => ⟨trivial, fun _ => trivial, fun y history hlist hreply => ?_⟩
        obtain rfl : s2 = s1 := hs2
        obtain rfl := txids_of_sem hreply
        have hloop := Prog.Holds.forM (S := aloneSetting N) (E := fun _ _ => True) (s := s2) (l := history)
          (f := Staking.creditCoinstake cfg dep funding)
          (J := fun rest s' => RewardsAdded s2 s' ∧ ∀ t ∈ s2.chain, Staking.isCoinstake t.tx = true →
            Staking.spends t.tx funding = true → t.txid ∈ rest ∨ Recorded s' t) ?_ ?_ ?_
        · refine hloop.mono ?_ fun _ _ h => h
          rintro _ s' ⟨hs', hall⟩
          refine ⟨hs', fun o ho t ht hstake hspends => ?_⟩
          cases hfunding.symm.trans ho
          exact (hall t (hs'.chain ▸ ht) hstake hspends).resolve_left List.not_mem_nil
        · rintro _ _ s' hJ rfl
          exact hJ
        · rintro txid rest s3 ⟨hs3, hrest⟩
          refine (creditCoinstake_records (hs3.linked.2 h).consistent).mono ?_ fun _ _ h => h
          rintro _ s4 ⟨hs4, hrecorded⟩
          refine ⟨hs3.trans hs4, fun t ht hstake hspends => ?_⟩
          rcases hrest t ht hstake hspends with hmem | hdone
          · rcases List.mem_cons.1 hmem with heq | hmem
            · exact .inr (hrecorded t (hs3.chain.symm ▸ ht) heq hstake hspends)
            · exact .inl hmem
          · exact .inr (hdone.mono hs4)
        · refine ⟨.refl s2, fun t ht hstake hspends => .inl ?_⟩
          exact h.listed hdep hfunding hshort ht hstake hspends hlist.2

theorem attributeDeposit_adds :
    (Staking.attributeDeposit cfg dep).Holds (aloneSetting N) (fun _ => RewardsAdded s) (fun _ _ => True) s := by
  refine (attributeDeposit_holds cfg (J := RewardsAdded s) rfl ?_ (fun _ _ _ => trivial) ?_ (.refl s)).mono
    (fun _ _ h => h) fun _ _ _ => trivial
  · rintro s1 _ h rfl
    exact h
  · exact fun s1 txid gross h => h.trans (.insertReward _)

/-- **A pass records all coinstakes that spend the funding outputs of active deposits.** -/
theorem watcherPass_records :
    (Staking.watcherPass cfg).Holds (aloneSetting N) (fun _ s' => Linked N s' → ∀ d ∈ s'.db.stakeDeposits,
      d.status = .active → ShortHistory N s' d → AllRecorded s' d) (fun _ _ => True) s := by
  have hmark : (Staking.markFundedDeposits cfg).Holds (aloneSetting N) (fun _ _ => True) (fun _ _ => True) s :=
    .of_within (O := fun _ => True) (J := fun _ => True) (Prog.Within.true _) (fun _ _ _ _ => trivial)
      (fun _ _ _ _ => ⟨trivial, fun _ _ _ _ _ => trivial⟩) trivial
  refine Prog.Holds.bind (hmark.mono (fun _ s1 _ => ?_) fun _ _ h => h)
  have hensure := ensureWalletLoaded_holds (S := aloneSetting N) (s := s1) .pool (J := fun s' => s' = s1) rfl
    (fun _ _ h hs => hs.trans h) (fun _ _ _ _ => trivial) rfl
  refine Prog.Holds.bind (hensure.mono (fun _ s2 _ => ?_) fun _ _ _ => trivial)
  refine sql_holds rfl fun s3 _ => ⟨trivial, fun _ _ => ?_⟩
  have hloop := Prog.Holds.forM (S := aloneSetting N) (E := fun _ _ => True) (s := s3)
    (l := s3.db.stakeDeposits.filter fun d => decide (d.status = .active)) (f := Staking.attributeDeposit cfg)
    (J := fun rest s' => RewardsAdded s3 s' ∧ (∀ d ∈ rest, d ∈ s3.db.stakeDeposits) ∧
      ∀ d ∈ s3.db.stakeDeposits, d.status = .active → Linked N s3 ∧ ShortHistory N s3 d → d ∈ rest ∨ AllRecorded s' d)
    ?_ ?_ ?_
  · refine hloop.mono ?_ fun _ _ h => h
    rintro _ s' ⟨hs', -, hall⟩ hlinked d hd hst hshort
    rw [ShortHistory, hs'.chain] at hshort
    rw [hs'.deposits] at hd
    exact (hall d hd hst ⟨hs'.linked.1 hlinked, hshort⟩).resolve_left List.not_mem_nil
  · rintro _ _ s' hJ rfl
    exact hJ
  · rintro dep rest s4 ⟨hs4, hmem, hrest⟩
    have hround : (Staking.attributeDeposit cfg dep).Holds (aloneSetting N) (fun _ s' => RewardsAdded s4 s' ∧
        (Linked N s3 ∧ ShortHistory N s3 dep → AllRecorded s' dep)) (fun _ _ => True) s4 := by
      by_cases hfound : Linked N s3 ∧ ShortHistory N s3 dep
      · refine (attributeDeposit_records (hs4.linked.2 hfound.1) ?_ ?_).mono (fun _ _ h => ⟨h.1, fun _ => h.2⟩)
          fun _ _ h => h
        · rw [hs4.deposits]
          exact hmem dep List.mem_cons_self
        · rw [ShortHistory, hs4.chain]
          exact hfound.2
      · exact attributeDeposit_adds.mono (fun _ _ h => ⟨h, fun hf => absurd hf hfound⟩) fun _ _ h => h
    refine hround.mono ?_ fun _ _ h => h
    rintro _ s5 ⟨hs5, hdone⟩
    refine ⟨hs4.trans hs5, fun d hd => hmem d (List.mem_cons_of_mem dep hd), fun d hd hst hfound => ?_⟩
    rcases hrest d hd hst hfound with hin | hrec
    · rcases List.mem_cons.1 hin with rfl | hin
      · exact .inr (hdone hfound)
      · exact .inl hin
    · exact .inr (hrec.mono hs5)
  · refine ⟨.refl s3, fun d hd => (List.mem_filter.1 hd).1, fun d hd hst _ => .inl ?_⟩
    exact List.mem_filter.2 ⟨hd, decide_eq_true hst⟩

theorem stale_of_suffix {txs : List WalletTx} (h : s.stale = []) (hs : s.chain <:+ txs)
    (hext : (External.chain txs).apply s = some s') : s'.stale = [] := by
  cases hext
  show s.chain.filter _ ++ s.stale = []
  rw [h, List.append_nil, List.filter_eq_nil_iff]
  intro t ht hnot
  exact of_decide_eq_true hnot (hs.subset ht)

theorem growing_stale {P : GPool} (h : Reachable (gateway cfg) (growingChain N) {} P) :
    Sound cfg N P.state ∧ P.state.stale = [] := by
  refine truthful_invariant (K := fun s => s.stale = []) (fun P e hA => (Bool.and_eq_true_iff.1 hA).1) h rfl ?_ ?_
  · intro P i x o r s' _ _ _ hK _ hsem _ _
    cases o with
    | sql q =>
      obtain ⟨-, rfl⟩ := sem_sql (x := x) hsem
      exact hK
    | rpc c =>
      rcases sem_rpc (x := x) hsem with rfl | ⟨wallet, v, dest, amountCac, amount, t0, rfl, rfl, -, -, -, rfl⟩
      · exact hK
      · exact hK
  · intro P e s' hA _ hK hext _ _
    cases e with
    | signup referredBy =>
      obtain rfl := signup_eq hext
      exact hK
    | chain txs =>
      exact stale_of_suffix hK (of_decide_eq_true (Bool.and_eq_true_iff.1 hA).2) hext

theorem stakesKept_of_stale (h : s.stale = []) : StakesKept N s := by
  intro t ht _ _
  rwa [State.known, h, List.append_nil] at ht

theorem Sound.recorded_for (h : Sound cfg N s) (hkept : StakesKept N s) (hd : d ∈ s.db.stakeDeposits)
    (ho : d.funding = some o) (ht : t ∈ s.chain) (hstake : Staking.isCoinstake t.tx = true)
    (hspends : Staking.spends t.tx o = true)
      (hrecorded : Recorded s t) : ∃ r ∈ s.db.stakeRewards, r.depositId = d.id := by
  obtain ⟨r, hr, htxid⟩ := List.mem_map.1 hrecorded
  obtain ⟨d', hd', -, hid, -⟩ := h.rewards r hr
  obtain ⟨o', t', ho', ht', hstake', hspends', hrow⟩ := h.reward_on_chain hkept hd' hr hid.symm
  have hsame : t' = t := by
    refine h.chain_consistent t' ht' t ht ?_
    rw [← htxid, hrow]
    rfl
  subst hsame
  -- The coinstake spends the outputs of both deposits, which are then at one address.
  have hspent := (mem_spends_iff hstake).2 hspends
  have hspent' := (mem_spends_iff hstake).2 hspends'
  obtain ⟨out, hout, haddress, howns⟩ := h.linked.fundings d hd o ho t' ht' hspent
  obtain ⟨out', hout', haddress', -⟩ := h.linked.fundings d' hd' o' ho' t' ht' hspent'
  have hhome := (h.valid.home t' ht' hstake (o, out) hout hspent howns).1 (o', out') hout' hspent'
  have hat : d'.depositAddress = d.depositAddress := by
    rw [haddress, haddress'] at hhome
    exact Option.some.inj hhome
  exact ⟨r, hr, by rw [← hid, s.db.deposit_ext_address hd' hd hat]⟩

end

def netReward (chain : List WalletTx) (t : WalletTx) : Int :=
  grossReward chain t - Staking.poolFee cfg (grossReward chain t)

section

variable {cfg N} {s : State} {d : StakeDeposit} {t : WalletTx}

theorem nodup_stakesOf {chain : List WalletTx} (h : Chained WalletTx.entry chain) (o : COutPoint) :
    (stakesOf o chain).Nodup := by
  have hself : (stakesOf o chain).filter (fun t => Staking.isCoinstake t.tx) = stakesOf o chain :=
    List.filter_eq_self.2 fun t ht => isCoinstake_of_mem_stakesOf ht
  rw [← hself]
  exact (List.Nodup.of_map _ (nodup_stakes h)).sublist (stakesOf_sublist.filter _)

theorem Sound.rewardsOf_eq (h : Sound cfg N s) (hkept : StakesKept N s) (hd : d ∈ s.db.stakeDeposits)
    (hall : AllRecorded s d) (hsmall : ∀ t ∈ firstStakes s.chain d, SmallTx s.chain t) :
    s.db.rewardsOf d.id = ((firstStakes s.chain d).map (netReward cfg s.chain)).sum := by
  rw [Db.rewardsOf, sumWhere]
  rcases h.rewards_of hkept hd with hnone | ⟨r, hone⟩
  · have hfirst : firstStakes s.chain d = [] := by
      refine List.eq_nil_iff_forall_not_mem.2 fun t ht => ?_
      obtain ⟨o, ho, ht, hstake, hspends⟩ := mem_firstStakes.1 ht
      obtain ⟨r, hr, hid⟩ := h.recorded_for hkept hd ho ht hstake hspends (hall o ho t ht hstake hspends)
      exact List.filter_eq_nil_iff.1 hnone r hr (decide_eq_true hid)
    rw [hnone, hfirst]
    rfl
  · obtain ⟨hr, hid⟩ := List.mem_filter.1 (hone ▸ List.mem_singleton_self r)
    obtain ⟨o, t, ho, ht, hstake, hspends, hrow⟩ := h.reward_on_chain hkept hd hr (of_decide_eq_true hid)
    have hmem : t ∈ firstStakes s.chain d := mem_firstStakes.2 ⟨o, ho, ht, hstake, hspends⟩
    have hfirst : firstStakes s.chain d = [t] := by
      have hnodup : (firstStakes s.chain d).Nodup := by
        rw [firstStakes, depositStakes, ho]
        exact (nodup_stakesOf h.valid.chained o).filter _
      have hunique : ∀ a ∈ firstStakes s.chain d, ∀ b ∈ firstStakes s.chain d, a = b := by
        intro a ha b hb
        obtain ⟨o1, ho1, ha, hstake1, hspends1⟩ := mem_firstStakes.1 ha
        obtain ⟨o2, ho2, hb, hstake2, hspends2⟩ := mem_firstStakes.1 hb
        cases ho1.symm.trans ho2
        exact h.valid.chained.spent_once ha hb ((mem_spends_iff hstake1).2 hspends1) ((mem_spends_iff hstake2).2 hspends2)
      rcases eq_nil_or_singleton hnodup hunique with hnil | ⟨a, ha⟩
      · rw [hnil] at hmem
        cases hmem
      · rw [ha] at hmem ⊢
        rw [List.mem_singleton.1 hmem]
    rw [hone, hfirst, hrow, h.valid.recordedReward_eq ht hstake (hsmall t hmem)]
    rfl

end

theorem recorded_rewards {P P' : GPool} {xs : List Answer}
    (h : Reachable (gateway cfg) (growingChain N) {} P)
    (hpass : P.run (gateway cfg) (answeredRun N) (.spawn .watcherPass :: xs.map (.step P.procs.length)) = some P')
    (hdone : (P'.procs[P.procs.length]?.any fun p => p.2.returned) = true) (hd : d ∈ P'.state.db.stakeDeposits)
    (hactive : d.status = .active) (hshort : ShortHistory N P'.state d)
    (hsmall : ∀ t ∈ firstStakes P'.state.chain d, SmallTx P'.state.chain t) :
    P'.state.db.rewardsOf d.id = ((depositStakes P'.state.chain d).map (netReward cfg P'.state.chain)).sum ↔
      ((restakes P'.state.chain d).map (netReward cfg P'.state.chain)).sum = 0 := by
  have hgrowing : P.run (gateway cfg) (growingChain N) (.spawn .watcherPass :: xs.map (.step P.procs.length)) = some P' :=
    Pool.run_mono (fun _ _ hA => (Bool.and_eq_true_iff.1 hA).1) hpass
  obtain ⟨hsound, hstale⟩ := growing_stale (h.run hgrowing)
  have hmay : ∀ (P1 : GPool) (x : Answer) (o : Op), answeredRun N P1 (.step P.procs.length x) = true →
      P1.next P.procs.length = some o → (aloneSetting N).may o x P1.state := by
    intro P1 x o hA ho
    simp only [answeredRun, growingChain, truthfulRun, ho, Option.all_some, Bool.and_eq_true] at hA
    exact ⟨hA.1.1.1, hA.2⟩
  have hall := Pool.run_alone (S := aloneSetting N) rfl hmay watcherPass_records hpass hdone
  rw [hsound.rewardsOf_eq (stakesKept_of_stale hstale) hd (hall hsound.linked d hd hactive hshort) hsmall]
  have hsplit : ((firstStakes P'.state.chain d).map (netReward cfg P'.state.chain)).sum +
      ((restakes P'.state.chain d).map (netReward cfg P'.state.chain)).sum =
        ((depositStakes P'.state.chain d).map (netReward cfg P'.state.chain)).sum :=
    sumWhere_add_not
  omega

theorem sampleReward_recorded :
    ∃ (P P' : GPool) (d : StakeDeposit), Reachable (gateway {}) (growingChain sampleNode) {} P ∧
      P.run (gateway {}) (answeredRun sampleNode)
        (.spawn .watcherPass :: rewardPass.map (.step P.procs.length)) = some P' ∧
      d ∈ P'.state.db.stakeDeposits ∧ d.status = .active ∧ ShortHistory sampleNode P'.state d ∧
      (∀ t ∈ firstStakes P'.state.chain d, SmallTx P'.state.chain t) ∧ P'.state.db.rewardsOf d.id = 19 ∧
        (P'.state.db.rewardsOf d.id = ((depositStakes P'.state.chain d).map (netReward {} P'.state.chain)).sum ↔
        ((restakes P'.state.chain d).map (netReward {} P'.state.chain)).sum = 0) := by
  have hrun : ∃ P : GPool, Reachable (gateway {}) (growingChain sampleNode) {} P ∧
      (P.run (gateway {}) (answeredRun sampleNode) (.spawn .watcherPass :: rewardPass.map (.step P.procs.length))).any
        (fun P' => decide ((P'.procs[P.procs.length]?.any fun p => p.2.returned) = true ∧
          ∃ d ∈ P'.state.db.stakeDeposits, d.status = .active ∧ ShortHistory sampleNode P'.state d ∧
            (∀ t ∈ firstStakes P'.state.chain d, SmallTx P'.state.chain t) ∧ P'.state.db.rewardsOf d.id = 19)) = true :=
    Reachable.exists_of_run (sampleActive ++ [.ext (.chain [firstStake, sampleDeposit])]) (by decide +kernel)
  obtain ⟨P, hreach, hpass⟩ := hrun
  obtain ⟨P', hP', hend⟩ := (Option.any_eq_true _ _).1 hpass
  obtain ⟨hdone, d, hd, hactive, hshort, hsmall, hsum⟩ := of_decide_eq_true hend
  exact ⟨P, P', d, hreach, hP', hd, hactive, hshort, hsmall, hsum,
    recorded_rewards {} sampleNode hreach hP' hdone hd hactive hshort hsmall⟩

def secondStake : WalletTx := sampleStake 14 ⟨12, 1⟩ 1050

def sampleRestake : List GEvent :=
  .ext (.chain [secondStake, firstStake, sampleDeposit]) :: .spawn .watcherPass ::
    [.names ["stakingpool"], .none, .names ["stakingpool"], .none, .txout none, .txids [11, 12, 14], .none,
      .tx sampleDeposit.tx, .none, .none, .tx secondStake.tx].map (.step 3)

/-- **The second stake of a deposit is not credited.** Also a first stake is not credited as it is, where the amounts are
rounded. -/
theorem restake_not_credited :
    (∃ P : GPool, Reachable (gateway {}) (answeredRun sampleNode) {} P ∧ P.busy (fun _ => true) = false ∧
      ∃ d ∈ P.state.db.stakeDeposits, d.status = .active ∧ P.state.db.rewardsOf d.id = 19 ∧
        ((depositStakes P.state.chain d).map (netReward {} P.state.chain)).sum = 48) ∧
    ∃ P : GPool, Reachable (gateway {}) (answeredRun sampleNode) {} P ∧ P.busy (fun _ => true) = false ∧
      ∃ d ∈ P.state.db.stakeDeposits, d.status = .active ∧ restakes P.state.chain d = [] ∧
        P.state.db.rewardsOf d.id = 3 ∧
        ((depositStakes P.state.chain d).map (netReward {} P.state.chain)).sum = 2 := by
  refine ⟨Reachable.exists_of_run (sampleActive ++ sampleReward ++ sampleRestake) ?_,
    Reachable.exists_of_run roundedReward ?_⟩
  · decide +kernel
  · decide +kernel

end CodexaCoin.Gateway
