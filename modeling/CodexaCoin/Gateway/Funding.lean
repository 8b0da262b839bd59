import CodexaCoin.Gateway.Rewards

/-!
# The funds that are recorded

`_mark_funded_deposits` records the first output that `listunspent` lists at the address of a deposit, once.
-/

namespace CodexaCoin.Gateway

open Process Table History

variable (cfg : Config) (N : Node)

/-- The payments that an address has received. -/
def paymentsTo (a : Address) (chain : List WalletTx) : List (COutPoint × CTxOut) :=
  (outputs (chain.filter fun t => !Staking.isCoinstake t.tx)).filter fun c => decide (N.extract c.2.scriptPubKey = some a)

def received (a : Address) (chain : List WalletTx) : Int := ((paymentsTo N a chain).map (·.2.nValue)).sum

/-- Nothing is spent at an address, and no coinstake pays to it. -/
def Untouched (txs : List WalletTx) (a : Address) : Prop :=
  ∀ t ∈ txs, (∀ c ∈ outputs txs, N.extract c.2.scriptPubKey = some a → c.1 ∉ t.entry.spends) ∧
    (Staking.isCoinstake t.tx = true → ∀ c ∈ t.entry.creates, N.extract c.2.scriptPubKey ≠ some a)

instance (txs : List WalletTx) (a : Address) : Decidable (Untouched N txs a) := by
  unfold Untouched
  infer_instance

/-- A payment leaves the addresses of the deposits alone that await their funds. -/
def Op.leavesAwaiting (s : State) : Op → Answer → Bool
  | .rpc (.sendToAddress ..), .sent t => decide (∀ d ∈ s.db.stakeDeposits, d.status = .awaitingFunds →
      Untouched N (t :: s.chain) d.depositAddress)
  | _, _ => true

/-- `listunspent` lists all unspent outputs at the address. -/
def Op.listsAll (s : State) : Op → Answer → Bool
  | .rpc (.listUnspent a), .utxos l => decide (∀ c ∈ outputs s.chain, N.extract c.2.scriptPubKey = some a →
      c.1 ∈ utxos s.chain → ∃ u ∈ l, u.outpoint = c.1)
  | _, _ => true

/-- The answers are true, blocks are only added to the chain, and what was paid to a deposit stays there until the deposit
is marked active. -/
def fundingRun (P : GPool) (e : GEvent) : Bool :=
  growingChain N P e && match e with
    | .step i x => (P.next i).all fun o => o.leavesAwaiting N P.state x
    | .ext (.chain txs) => decide (∀ d ∈ P.state.db.stakeDeposits, d.status = .awaitingFunds →
        Untouched N txs d.depositAddress)
    | _ => true

def confirmedRun (P : GPool) (e : GEvent) : Bool :=
  fundingRun N P e && match e with
    | .step i x => (P.next i).all fun o => o.listsAll N P.state x
    | _ => true

/-- Deposits are funded with payments, and what was paid to those that await their funds is still there. -/
structure FundsKept (s : State) : Prop where
  stale : s.stale = []
  untouched : ∀ d ∈ s.db.stakeDeposits, d.status = .awaitingFunds → Untouched N s.chain d.depositAddress
  paid : ∀ d ∈ s.db.stakeDeposits, d.status ≠ .awaitingFunds → ∃ o out, d.funding = some o ∧
    d.amountSatoshis = some (readSatoshis out.nValue) ∧ (o, out) ∈ paymentsTo N d.depositAddress s.chain

def listingSetting : Prog.Setting Op Op.Res State Answer where
  sem := sem
  may o x s := o.listsAll N s x = true
  rely s s' := s' = s
  rely_refl _ := rfl
  rely_trans h h' := h'.trans h

def Unfunded (s : State) (d : StakeDeposit) : Prop :=
  ∀ c ∈ outputs s.chain, N.extract c.2.scriptPubKey = some d.depositAddress → c.1 ∉ utxos s.chain

section

variable {cfg N} {s s' : State} {a : Address} {c : COutPoint × CTxOut}

theorem mem_paymentsTo {chain : List WalletTx} :
    c ∈ paymentsTo N a chain ↔ (∃ t ∈ chain, Staking.isCoinstake t.tx = false ∧ c ∈ t.entry.creates) ∧
      N.extract c.2.scriptPubKey = some a := by
  simp only [paymentsTo, List.mem_filter, mem_created, Bool.not_eq_true', decide_eq_true_eq, and_assoc]

theorem paymentsTo_subset {chain chain' : List WalletTx} (h : chain ⊆ chain')
    (hc : c ∈ paymentsTo N a chain) : c ∈ paymentsTo N a chain' := by
  obtain ⟨⟨t, ht, hnot, hcreates⟩, ha⟩ := mem_paymentsTo.1 hc
  exact mem_paymentsTo.2 ⟨⟨t, h ht, hnot, hcreates⟩, ha⟩

theorem Untouched.mem_paymentsTo {chain : List WalletTx} (h : Untouched N chain a)
    (hc : c ∈ outputs chain) (ha : N.extract c.2.scriptPubKey = some a) : c ∈ paymentsTo N a chain := by
  obtain ⟨t, ht, hcreates⟩ := mem_created.1 hc
  refine Gateway.mem_paymentsTo.2 ⟨⟨t, ht, ?_, hcreates⟩, ha⟩
  cases hstake : Staking.isCoinstake t.tx with
  | false => rfl
  | true => exact absurd ha ((h t ht).2 hstake c hcreates)

/-! ## The steps keep the funds -/

theorem FundsKept.congr (h : FundsKept N s) (hdeposits : s'.db.stakeDeposits = s.db.stakeDeposits)
    (hchain : s.chain ⊆ s'.chain) (hstale : s'.stale = [])
    (huntouched : ∀ d ∈ s.db.stakeDeposits, d.status = .awaitingFunds → Untouched N s'.chain d.depositAddress) :
    FundsKept N s' := by
  refine ⟨hstale, ?_, ?_⟩
  · rw [hdeposits]
    exact huntouched
  · rw [hdeposits]
    intro d hd hst
    obtain ⟨o, out, hfunding, hamount, hpaid⟩ := h.paid d hd hst
    exact ⟨o, out, hfunding, hamount, paymentsTo_subset hchain hpaid⟩

theorem FundsKept.of_sql {q : Stmt} {x : Answer} (h : FundsKept N s) (hpre : (truthSetting cfg N).pre (.sql q) s)
    (htrue : Op.truthful N s (.sql q) x = true) (honce : Op.activatesAwaiting s (.sql q) = true) :
    FundsKept N (s.runSql q).2 := by
  have hsame : ∀ s' : State, s'.db.stakeDeposits = s.db.stakeDeposits → s'.chain = s.chain → s'.stale = s.stale →
      FundsKept N s' := by
    intro s' hdeposits hchain hstale
    exact h.congr hdeposits (hchain ▸ fun _ ht => ht) (hstale.trans h.stale) (hchain ▸ h.untouched)
  cases q with
  | insertDeposit v address =>
    refine ⟨h.stale, fun d hd hst => ?_, fun d hd hst => ?_⟩
    · rcases Db.mem_insertDeposit.1 hd with hd | ⟨-, rfl⟩
      · exact h.untouched d hd hst
      · -- Nobody has paid to the new address.
        have hfresh : ∀ c ∈ outputs s.chain, N.extract c.2.scriptPubKey ≠ some address := fun c hc =>
          (of_decide_eq_true htrue : ∀ c ∈ outputs s.known, N.extract c.2.scriptPubKey ≠ some address) c
            (created_subset (List.subset_append_left _ _) hc)
        exact fun t ht => ⟨fun c hc ha => absurd ha (hfresh c hc), fun _ c hc => hfresh c (mem_created.2 ⟨t, ht, hc⟩)⟩
    · rcases Db.mem_insertDeposit.1 hd with hd | ⟨-, rfl⟩
      · exact h.paid d hd hst
      · exact absurd rfl hst
  | activateDeposit id funding amount =>
    refine ⟨h.stale, fun d hd hst => ?_, fun d hd hst => ?_⟩
    · obtain ⟨d', hd', rfl⟩ := Db.mem_activateDeposit.1 hd
      split at hst
      · cases hst
      · next hid =>
        rw [if_neg hid]
        exact h.untouched d' hd' hst
    · obtain ⟨d', hd', rfl⟩ := Db.mem_activateDeposit.1 hd
      split
      · next hid =>
        obtain ⟨out, hout, haddress, rfl⟩ := hpre d' hd' hid
        have hawaiting : d'.status = .awaitingFunds := of_decide_eq_true honce d' hd' hid
        have hchain : (funding, out) ∈ outputs s.chain := by rwa [State.known, h.stale, List.append_nil] at hout
        exact ⟨funding, out, rfl, rfl, (h.untouched d' hd' hawaiting).mem_paymentsTo hchain haddress⟩
      · next hid =>
        rw [if_neg hid] at hst
        exact h.paid d' hd' hst
  | closeDeposits v =>
    refine ⟨h.stale, fun d hd hst => ?_, fun d hd hst => ?_⟩
    · obtain ⟨d', hd', rfl⟩ := Db.mem_closeDeposits.1 hd
      split at hst
      · cases hst
      · next hclosed =>
        rw [if_neg hclosed]
        exact h.untouched d' hd' hst
    · obtain ⟨d', hd', rfl⟩ := Db.mem_closeDeposits.1 hd
      split
      · next hclosed => exact h.paid d' hd' (by simp [hclosed.2])
      · next hclosed =>
        rw [if_neg hclosed] at hst
        exact h.paid d' hd' hst
  | insertReward reward => exact hsame _ (Db.insertReward_stakeDeposits reward) rfl rfl
  | _ => exact hsame _ rfl rfl rfl

theorem FundsKept.of_reachable {P : GPool} (h : Reachable (gateway cfg) (fundingRun N) {} P) :
    Sound cfg N P.state ∧ FundsKept N P.state := by
  refine truthful_invariant (K := FundsKept N) (fun P e hA => ?_) h ?_ ?_ ?_
  · simp only [fundingRun, growingChain, Bool.and_eq_true] at hA
    exact hA.1.1
  · exact ⟨rfl, fun _ hd => (List.not_mem_nil hd).elim, fun _ hd => (List.not_mem_nil hd).elim⟩
  · intro P i x o r s' hA ho _ hK hpre hsem _ _
    simp only [fundingRun, growingChain, truthfulRun, ho, Option.all_some, Bool.and_eq_true] at hA
    obtain ⟨⟨⟨htrue, honce⟩, -⟩, hleaves⟩ := hA
    cases o with
    | sql q =>
      obtain ⟨-, rfl⟩ := sem_sql (x := x) hsem
      exact hK.of_sql hpre htrue honce
    | rpc c =>
      rcases sem_rpc (x := x) hsem with rfl | ⟨wallet, v, dest, amountCac, amount, t, rfl, rfl, -, -, -, rfl⟩
      · exact hK
      · exact hK.congr rfl (List.subset_cons_self _ _) hK.stale (of_decide_eq_true hleaves)
  · intro P e s' hA _ hK hext _ _
    cases e with
    | signup referredBy =>
      obtain rfl := signup_eq hext
      exact hK.congr rfl (fun _ ht => ht) hK.stale hK.untouched
    | chain txs =>
      simp only [fundingRun, growingChain, Bool.and_eq_true, decide_eq_true_eq] at hA
      have hstale := stale_of_suffix hK.stale hA.1.2 hext
      cases hext
      exact hK.congr rfl hA.1.2.subset hstale hA.2

/-! ## A pass -/

theorem markFunded_lists {dep : StakeDeposit} :
    (Staking.markFunded cfg dep).Holds (listingSetting N) (fun _ s' => s'.chain = s.chain ∧
      ∀ d ∈ s'.db.stakeDeposits, d.status = .awaitingFunds → d ∈ s.db.stakeDeposits ∧ (d = dep → Unfunded N s d))
      (fun _ _ => True) s := by
  refine rpc_holds rfl rfl fun s1 hs1 => ⟨trivial, fun _ => trivial, fun x l hmay hsem => ?_⟩
  obtain rfl : s1 = s := hs1
  obtain rfl := utxos_of_sem hsem
  cases l with
  | nil =>
    rintro s2 hs2
    obtain rfl : s2 = s1 := hs2
    refine ⟨rfl, fun d hd _ => ⟨hd, ?_⟩⟩
    rintro rfl c hc ha hunspent
    obtain ⟨u, hu, -⟩ := of_decide_eq_true hmay c hc ha hunspent
    cases hu
  | cons u us =>
    refine sql_holds rfl fun s2 hs2 => ⟨trivial, fun _ _ => ?_⟩
    obtain rfl : s2 = s1 := hs2
    refine (creditReferralIfEligible_holds cfg (J := fun s' => s'.chain = s2.chain ∧ ∀ d ∈ s'.db.stakeDeposits,
      d.status = .awaitingFunds → d ∈ s2.db.stakeDeposits ∧ (d = dep → Unfunded N s2 d)) rfl ?_ (fun _ _ _ _ => trivial)
      (fun _ _ hJ => hJ) ?_).mono (fun _ _ hJ => hJ) fun _ _ _ => trivial
    · rintro _ _ hJ rfl
      exact hJ
    · refine ⟨rfl, fun d hd hst => ?_⟩
      obtain ⟨d', hd', rfl⟩ := Db.mem_activateDeposit.1 hd
      split at hst
      · cases hst
      · next hid =>
        rw [if_neg hid]
        exact ⟨hd', fun heq => absurd (congrArg StakeDeposit.id heq) hid⟩

/-- **A pass leaves no deposit waiting whose address has unspent outputs.** -/
theorem watcherPass_lists :
    (Staking.watcherPass cfg).Holds (listingSetting N)
      (fun _ s' => ∀ d ∈ s'.db.stakeDeposits, d.status = .awaitingFunds → Unfunded N s' d) (fun _ _ => True) s := by
  have hensure := ensureWalletLoaded_holds (S := listingSetting N) (s := s) .pool (J := fun _ => True) rfl
    (fun _ _ _ _ => trivial) (fun _ _ _ _ => trivial) trivial
  have hmark : (Staking.markFundedDeposits cfg).Holds (listingSetting N)
      (fun _ s' => ∀ d ∈ s'.db.stakeDeposits, d.status = .awaitingFunds → Unfunded N s' d) (fun _ _ => True) s := by
    refine Prog.Holds.bind (hensure.mono (fun _ s1 _ => ?_) fun _ _ _ => trivial)
    refine sql_holds rfl fun s2 _ => ⟨trivial, fun _ _ => ?_⟩
    have hloop := Prog.Holds.forM (S := listingSetting N) (E := fun _ _ => True) (s := s2)
      (l := s2.db.stakeDeposits.filter fun d => decide (d.status = .awaitingFunds)) (f := Staking.markFunded cfg)
      (J := fun rest s' => ∀ d ∈ s'.db.stakeDeposits, d.status = .awaitingFunds → d ∈ rest ∨ Unfunded N s' d) ?_ ?_ ?_
    · refine hloop.mono ?_ fun _ _ h => h
      exact fun _ s' hall d hd hst => (hall d hd hst).resolve_left List.not_mem_nil
    · rintro _ _ s' hJ rfl
      exact hJ
    · intro dep rest s3 hrest
      refine markFunded_lists.mono ?_ fun _ _ h => h
      rintro _ s4 ⟨hchain, hrows⟩ d hd hst
      obtain ⟨hold, hdep⟩ := hrows d hd hst
      have hsame : Unfunded N s3 d → Unfunded N s4 d := fun h => by rwa [Unfunded, hchain]
      rcases hrest d hold hst with hmem | hunfunded
      · rcases List.mem_cons.1 hmem with heq | hmem
        · exact .inr (hsame (hdep heq))
        · exact .inl hmem
      · exact .inr (hsame hunfunded)
    · exact fun d hd hst => .inl (List.mem_filter.2 ⟨hd, decide_eq_true hst⟩)
  refine Prog.Holds.bind (hmark.mono (fun _ s1 h1 => ?_) fun _ _ h => h)
  -- Rewards change neither the deposits nor the chain.
  have hreward : ∀ (s : State) (reward : StakeReward),
      (∀ d ∈ s.db.stakeDeposits, d.status = .awaitingFunds → Unfunded N s d) →
      ∀ d ∈ (s.runSql (.insertReward reward)).2.db.stakeDeposits, d.status = .awaitingFunds →
        Unfunded N (s.runSql (.insertReward reward)).2 d := by
    intro s reward hs d hd hst
    exact hs d (@Db.insertReward_stakeDeposits s.db reward ▸ hd) hst
  refine (attributeRewards_holds cfg (M := fun _ _ => True)
    (J := fun s' => ∀ d ∈ s'.db.stakeDeposits, d.status = .awaitingFunds → Unfunded N s' d) rfl ?_
    (fun _ _ _ _ _ _ => trivial) (fun _ _ _ _ => trivial) (fun _ _ _ _ _ => trivial) ?_ h1).mono (fun _ _ h => h)
    fun _ _ _ => trivial
  · rintro _ _ hJ rfl
    exact hJ
  · intro dep s2 h2 _
    refine (attributeDeposit_holds cfg rfl ?_ (fun _ _ _ => trivial) (fun s3 txid gross => hreward s3 _) h2).mono
      (fun _ _ h => ⟨h, fun _ _ => trivial⟩) fun _ _ h => h
    rintro _ _ hJ rfl
    exact hJ

/-! ## What was received -/

theorem paymentsTo_of_unfunded {d : StakeDeposit} (h : Sound cfg N s) (huntouched : Untouched N s.chain d.depositAddress)
    (hunfunded : Unfunded N s d) : paymentsTo N d.depositAddress s.chain = [] := by
  refine List.eq_nil_iff_forall_not_mem.2 ?_
  rintro ⟨k, out⟩ hc
  obtain ⟨⟨t, ht, -, hcreates⟩, ha⟩ := mem_paymentsTo.1 hc
  have hout : (k, out) ∈ outputs s.chain := mem_created.2 ⟨t, ht, hcreates⟩
  -- Nothing has spent it, so it is still there.
  have hlookup := h.valid.chained.lookup_of_not_spent hout fun t' ht' => (huntouched t' ht').1 (k, out) hout ha
  exact hunfunded (k, out) hout ha (Finmap.mem_iff.2 ⟨out, hlookup⟩)

end

theorem recorded_funds {P P' : GPool} {xs : List Answer} {d : StakeDeposit}
    (h : Reachable (gateway cfg) (fundingRun N) {} P)
    (hpass : P.run (gateway cfg) (confirmedRun N) (.spawn .watcherPass :: xs.map (.step P.procs.length)) = some P')
    (hdone : (P'.procs[P.procs.length]?.any fun p => p.2.returned) = true) (hd : d ∈ P'.state.db.stakeDeposits)
    (hpos : ∀ c ∈ paymentsTo N d.depositAddress P'.state.chain, 0 < c.2.nValue)
    (hsmall : ∀ c ∈ paymentsTo N d.depositAddress P'.state.chain, Small c.2) :
    d.amountSatoshis.getD 0 = received N d.depositAddress P'.state.chain ↔
      (paymentsTo N d.depositAddress P'.state.chain).length ≤ 1 := by
  have hfunding : P.run (gateway cfg) (fundingRun N) (.spawn .watcherPass :: xs.map (.step P.procs.length)) = some P' :=
    Pool.run_mono (fun _ _ hA => (Bool.and_eq_true_iff.1 hA).1) hpass
  obtain ⟨hsound, hkept⟩ := FundsKept.of_reachable (h.run hfunding)
  by_cases hst : d.status = .awaitingFunds
  · have hmay : ∀ (P1 : GPool) (x : Answer) (o : Op), confirmedRun N P1 (.step P.procs.length x) = true →
        P1.next P.procs.length = some o → (listingSetting N).may o x P1.state := by
      intro P1 x o hA ho
      simp only [confirmedRun, ho, Option.all_some, Bool.and_eq_true] at hA
      exact hA.2
    have hall := Pool.run_alone (S := listingSetting N) rfl hmay watcherPass_lists hpass hdone
    have hnone := paymentsTo_of_unfunded hsound (hkept.untouched d hd hst) (hall d hd hst)
    rw [received, hnone, (hsound.awaiting d hd hst).2]
    simp
  · obtain ⟨o, out, -, hamount, hpaid⟩ := hkept.paid d hd hst
    rw [hamount, Option.getD_some, readSatoshis_eq (hpos _ hpaid).le (hsmall _ hpaid), received]
    exact eq_sum_iff_length_le_one (f := fun c => c.2.nValue) hpaid hpos

def fundingPass : List Answer :=
  [.names ["stakingpool"], .none, .utxos [⟨⟨11, 0⟩, 1000⟩], .none, .none, .names ["stakingpool"], .none,
    .txout (some ⟨1000, [7]⟩)]

def sampleFunded (txs : List WalletTx) : List GEvent :=
  .spawn (.createDeposit 1) :: [.names ["stakingpool"], .address 7, .none, .done].map (.step 0) ++ [.ext (.chain txs)]

theorem sampleFunded_recorded :
    ∃ (P P' : GPool) (d : StakeDeposit), Reachable (gateway {}) (fundingRun sampleNode) {} P ∧
      P.run (gateway {}) (confirmedRun sampleNode) (.spawn .watcherPass :: fundingPass.map (.step P.procs.length)) =
        some P' ∧ d ∈ P'.state.db.stakeDeposits ∧
      (∀ c ∈ paymentsTo sampleNode d.depositAddress P'.state.chain, 0 < c.2.nValue ∧ Small c.2) ∧
      received sampleNode d.depositAddress P'.state.chain = 1000 ∧
      (d.amountSatoshis.getD 0 = received sampleNode d.depositAddress P'.state.chain ↔
        (paymentsTo sampleNode d.depositAddress P'.state.chain).length ≤ 1) := by
  have hrun : ∃ P : GPool, Reachable (gateway {}) (fundingRun sampleNode) {} P ∧
      (P.run (gateway {}) (confirmedRun sampleNode) (.spawn .watcherPass :: fundingPass.map (.step P.procs.length))).any
        (fun P' => decide ((P'.procs[P.procs.length]?.any fun p => p.2.returned) = true ∧
          ∃ d ∈ P'.state.db.stakeDeposits,
            (∀ c ∈ paymentsTo sampleNode d.depositAddress P'.state.chain, 0 < c.2.nValue ∧ Small c.2) ∧
            received sampleNode d.depositAddress P'.state.chain = 1000)) = true :=
    Reachable.exists_of_run (sampleFunded [sampleDeposit]) (by decide +kernel)
  obtain ⟨P, hreach, hpass⟩ := hrun
  obtain ⟨P', hP', hend⟩ := (Option.any_eq_true _ _).1 hpass
  obtain ⟨hdone, d, hd, hpaid, hreceived⟩ := of_decide_eq_true hend
  exact ⟨P, P', d, hreach, hP', hd, hpaid, hreceived, recorded_funds {} sampleNode hreach hP' hdone hd
    (fun c hc => (hpaid c hc).1) fun c hc => (hpaid c hc).2⟩

def smallDeposit : WalletTx := ⟨22, { vin := [⟨.null, [], 0, []⟩], vout := [⟨500, [7]⟩] }⟩

def twoPaymentsPass : List GEvent :=
  .spawn .watcherPass :: [.names ["stakingpool"], .none, .utxos [⟨⟨11, 0⟩, 1000⟩, ⟨⟨22, 0⟩, 500⟩], .none, .none,
    .names ["stakingpool"], .none, .txout (some ⟨1000, [7]⟩)].map (.step 1)

/-- **The second payment to a deposit is not recorded.** Nor is one payment of 3355443200000019 satoshis as it is. -/
theorem second_payment_not_recorded :
    (∃ P : GPool, Reachable (gateway {}) (confirmedRun sampleNode) {} P ∧ P.busy (fun _ => true) = false ∧
      ∃ d ∈ P.state.db.stakeDeposits, d.status = .active ∧ d.amountSatoshis = some 1000 ∧
        received sampleNode d.depositAddress P.state.chain = 1500) ∧
    ∃ P : GPool, Reachable (gateway {}) (confirmedRun sampleNode) {} P ∧ P.busy (fun _ => true) = false ∧
      ∃ d ∈ P.state.db.stakeDeposits, d.status = .active ∧ d.amountSatoshis = some 3355443200000020 ∧
        received sampleNode d.depositAddress P.state.chain = 3355443200000019 := by
  refine ⟨Reachable.exists_of_run (sampleFunded [smallDeposit, sampleDeposit] ++ twoPaymentsPass) ?_,
    Reachable.exists_of_run (activeOf 3355443200000019) ?_⟩
  · decide +kernel
  · decide +kernel

end CodexaCoin.Gateway
