import CodexaCoin.Gateway.Chain

/-!
# Answers that reflect the chain

Runs in which the node tells the truth, with what the database then says about the chain.
-/

namespace CodexaCoin.Gateway

open Process Table History

variable (cfg : Config) (N : Node)

/-- The answer reflects the chain at the time it is given. -/
def Op.truthful (s : State) : Op → Answer → Bool
  -- `getnewaddress` gives an address that nobody has paid to, and nobody learns it before the deposit is there.
  | .sql (.insertDeposit _ address), _ => decide (∀ c ∈ outputs s.known, N.extract c.2.scriptPubKey ≠ some address)
  | .rpc .getNewAddress, .address a => N.mine a
  | .rpc (.listUnspent a), .utxos l => l.all fun u => ((utxos s.chain).lookup u.outpoint).any fun out =>
      decide (out.nValue = u.amount ∧ N.extract out.scriptPubKey = some a)
  | .rpc (.getTxOut o), .txout r => decide (r = (utxos s.chain).lookup o)
  -- `getrawtransaction` also finds transactions that a reorganization has removed.
  | .rpc (.getRawTransaction txid), .tx tx => decide (⟨txid, tx⟩ ∈ s.known)
  | .rpc (.sendToAddress wallet _ _ _), .sent t =>
      decide (ValidChain N (t :: s.chain)) && decide (t.txid ∉ s.known.map (·.txid)) && !Staking.isCoinstake t.tx &&
        match wallet with
        | .pool => t.entry.spends.all fun o => N.spendable s.chain o && ((utxos s.chain).lookup o).any N.owns
        | .admin => t.entry.spends.all fun o => !((utxos s.chain).lookup o).any N.owns
  | _, _ => true

/-- A deposit is marked active only while it awaits its funds. -/
def Op.activatesAwaiting (s : State) : Op → Bool
  | .sql (.activateDeposit id _ _) => decide (∀ d ∈ s.db.stakeDeposits, d.id = id → d.status = .awaitingFunds)
  | _ => true

/-- The answers are true, the chains are valid, and deposits are activated once. -/
def truthfulRun : GPool → GEvent → Bool
  | P, .step i x => (P.next i).all fun o => o.truthful N P.state x && o.activatesAwaiting P.state
  | P, .ext (.chain txs) => decide (ValidChain N txs) && decide (Consistent (txs ++ P.state.known))
  | _, _ => true

/-! ## What the database says about the chain -/

abbrev InputsAre (known : List WalletTx) (vin : List CTxIn) (ins : List CTxOut) : Prop :=
  List.Forall₂ (fun i out => (i.prevout, out) ∈ outputs known) vin ins

/-- The deposit with an id is funded with an output at its address. -/
def Funds (s : State) (id : DepositId) (funding : COutPoint) (amount : Int) : Prop :=
  ∀ d ∈ s.db.stakeDeposits, d.id = id → ∃ out, (funding, out) ∈ outputs s.known ∧
    N.extract out.scriptPubKey = some d.depositAddress ∧ readSatoshis out.nValue = amount

/-- A reward is that of a known coinstake that spends the funding output of its deposit. -/
def Earned (s : State) (r : StakeReward) : Prop :=
  ∃ d ∈ s.db.stakeDeposits, ∃ o, d.id = r.depositId ∧ d.status ≠ .awaitingFunds ∧ d.funding = some o ∧
    ∃ t ∈ s.known, ∃ ins, Staking.isCoinstake t.tx = true ∧ Staking.spends t.tx o = true ∧
      InputsAre s.known t.tx.vin ins ∧
      r = Staking.rewardRow cfg d.id t.txid
        ((t.tx.vout.map fun out => readSatoshis out.nValue).sum - (ins.map fun out => readSatoshis out.nValue).sum)

/-- Deposits are recorded with outputs at their addresses, and rewards with coinstakes that spend them. -/
structure Sound (s : State) : Prop where
  valid : ValidChain N s.chain
  consistent : Consistent s.known
  resolved : ∀ t ∈ s.known, ∀ k ∈ t.entry.spends, ∃ out, (k, out) ∈ outputs s.known
  addresses : ∀ d ∈ s.db.stakeDeposits, N.mine d.depositAddress = true
  awaiting : ∀ d ∈ s.db.stakeDeposits, d.status = .awaitingFunds → d.funding = none ∧ d.amountSatoshis = none
  funded : ∀ d ∈ s.db.stakeDeposits, d.status ≠ .awaitingFunds → ∃ o out, d.funding = some o ∧
    d.amountSatoshis = some (readSatoshis out.nValue) ∧ (o, out) ∈ outputs s.known ∧
    N.extract out.scriptPubKey = some d.depositAddress
  rewards : ∀ r ∈ s.db.stakeRewards, Earned cfg s r

/-- The node learns more, and deposits keep their addresses, their users and how they were funded. -/
structure Grown (s s' : State) : Prop where
  known : s.known ⊆ s'.known
  deposits : ∀ d ∈ s.db.stakeDeposits, ∃ d' ∈ s'.db.stakeDeposits, d'.id = d.id ∧ d'.userId = d.userId ∧
    d'.depositAddress = d.depositAddress ∧
    (d.status ≠ .awaitingFunds → d'.status ≠ .awaitingFunds ∧ d'.funding = d.funding)

def truthSetting : Prog.Setting Op Op.Res State Answer where
  sem := sem
  may o x s := o.truthful N s x = true
  pre o s := match o with
    | .sql (.insertDeposit _ address) => N.mine address = true
    | .sql (.activateDeposit id funding amount) => Funds N s id funding amount
    | .sql (.insertReward reward) => Earned cfg s reward
    | _ => True
  rely := Grown
  rely_refl s := ⟨fun _ h => h, fun d hd => ⟨d, hd, rfl, rfl, rfl, fun h => ⟨h, rfl⟩⟩⟩
  rely_trans {s1 s2 s3} h h' := by
    refine ⟨fun _ ht => h'.known (h.known ht), fun d hd => ?_⟩
    obtain ⟨d2, hd2, hid, huser, haddress, hfunded⟩ := h.deposits d hd
    obtain ⟨d3, hd3, hid', huser', haddress', hfunded'⟩ := h'.deposits d2 hd2
    refine ⟨d3, hd3, hid'.trans hid, huser'.trans huser, haddress'.trans haddress, fun hst => ?_⟩
    obtain ⟨hst2, hfunding⟩ := hfunded hst
    exact ⟨(hfunded' hst2).1, (hfunded' hst2).2.trans hfunding⟩

section

variable {cfg N} {s s' : State} {x : Answer} {vin : List CTxIn} {a : Address} {txid : Uint256} {tx : CTransaction}
  {id : DepositId} {dep : StakeDeposit} {funding : COutPoint}

theorem Grown.outputs (h : Grown s s') {c : COutPoint × CTxOut} (hc : c ∈ outputs s.known) : c ∈ outputs s'.known :=
  created_subset h.known hc

theorem Grown.inputsAre (h : Grown s s') {ins : List CTxOut} (hins : InputsAre s.known vin ins) :
    InputsAre s'.known vin ins :=
  hins.imp fun _ _ hout => h.outputs hout

theorem Earned.grown {r : StakeReward} (h : Earned cfg s r) (hs : Grown s s') : Earned cfg s' r := by
  obtain ⟨d, hd, o, hid, hst, hfunding, t, ht, ins, hstake, hspends, hins, hr⟩ := h
  obtain ⟨d', hd', hid', -, -, hfunded⟩ := hs.deposits d hd
  obtain ⟨hst', hfunding'⟩ := hfunded hst
  refine ⟨d', hd', o, hid'.trans hid, hst', hfunding'.trans hfunding, t, hs.known ht, ins, hstake, hspends,
    hs.inputsAre hins, ?_⟩
  rw [hid']
  exact hr

/-! ## Answers -/

theorem utxos_of_sem {l : List Utxo}
    (h : sem (.rpc (.listUnspent a)) x s = some (.ok l, s')) : x = .utxos l := by
  cases x <;> cases h
  rfl

theorem tx_of_sem     (h : sem (.rpc (.getRawTransaction txid)) x s = some (.ok tx, s')) : x = .tx tx := by
  cases x <;> cases h
  rfl

theorem txout_of_sem {o : COutPoint} {r : Option CTxOut}
    (h : sem (.rpc (.getTxOut o)) x s = some (.ok r, s')) : x = .txout r := by
  cases x <;> cases h
  rfl

theorem txids_of_sem {l : List Uint256}
    (h : sem (.rpc (.listTransactions id)) x s = some (.ok l, s')) : x = .txids l := by
  cases x <;> cases h
  rfl

theorem address_of_sem (h : sem (.rpc .getNewAddress) x s = some (.ok a, s')) : x = .address a := by
  cases x <;> cases h
  rfl

theorem mem_outputs_of_listUnspent {l : List Utxo} {u : Utxo}
    (h : Op.truthful N s (.rpc (.listUnspent a)) (.utxos l) = true) (hu : u ∈ l) :
    ∃ out, (utxos s.chain).lookup u.outpoint = some out ∧ out.nValue = u.amount ∧
      N.extract out.scriptPubKey = some a := by
  obtain ⟨out, hout, hp⟩ := (Option.any_eq_true _ _).1 (List.all_eq_true.1 h u hu)
  exact ⟨out, hout, of_decide_eq_true hp⟩

theorem lookup_of_getTxOut {o : COutPoint} {r : Option CTxOut}
    (h : Op.truthful N s (.rpc (.getTxOut o)) (.txout r) = true) : (utxos s.chain).lookup o = r :=
  (of_decide_eq_true h).symm

theorem mem_known_of_getRawTransaction     (h : Op.truthful N s (.rpc (.getRawTransaction txid)) (.tx tx) = true) :
    ⟨txid, tx⟩ ∈ s.known :=
  of_decide_eq_true h

theorem mem_known_of_lookup {o : COutPoint} {out : CTxOut} (h : (utxos s.chain).lookup o = some out) :
    (o, out) ∈ outputs s.known :=
  created_subset (List.subset_append_left _ _) (lookup_unspent h)

/-! ## The triples of the requests -/

theorem pre_of_reads {o : Op} (ho : o.reads = true) : (truthSetting cfg N).pre o s := by
  cases o with
  | rpc c => trivial
  | sql q => cases q <;> trivial

theorem createDeposit_sound (userId : UserId) :
    (Request.prog cfg (.createDeposit userId)).Holds (truthSetting cfg N) (fun _ _ => True) (fun _ _ => True) s := by
  refine Prog.Holds.bind (Prog.Holds.mono (Q := fun _ _ => True) ?_ (fun _ _ _ _ _ => trivial) fun _ _ h => h)
  refine Prog.Holds.bind ?_
  have hensure := ensureWalletLoaded_holds (S := truthSetting cfg N) (s := s) .pool (J := fun _ => True) rfl
    (fun _ _ _ _ => trivial) (fun _ _ ho _ => pre_of_reads ho) trivial
  refine hensure.mono (fun _ s1 _ => ?_) fun _ _ _ => trivial
  refine rpc_holds rfl rfl fun s2 _ => ⟨trivial, fun _ => trivial, fun x a hmay hsem => ?_⟩
  obtain rfl := address_of_sem hsem
  refine sql_holds rfl fun s3 _ => ⟨hmay, fun _ _ => ?_⟩
  split
  · exact fun _ _ => trivial
  · refine rpc_holds rfl rfl fun s4 _ => ⟨trivial, fun _ => trivial, fun _ _ _ _ _ _ => trivial⟩

def HasRow (dep : StakeDeposit) (s : State) : Prop :=
  ∃ d ∈ s.db.stakeDeposits, d.id = dep.id ∧ d.depositAddress = dep.depositAddress

theorem HasRow.grown (h : HasRow dep s) (hs : Grown s s') : HasRow dep s' := by
  obtain ⟨d, hd, hid, haddress⟩ := h
  obtain ⟨d', hd', hid', -, haddress', -⟩ := hs.deposits d hd
  exact ⟨d', hd', hid'.trans hid, haddress'.trans haddress⟩

theorem markFunded_sound (hdep : HasRow dep s) :
    (Staking.markFunded cfg dep).Holds (truthSetting cfg N) (fun _ s' => ∀ d, HasRow d s → HasRow d s')
      (fun _ _ => True) s := by
  let J := fun s' : State => ∀ d, HasRow d s → HasRow d s'
  have hstable : ∀ s1 s2, J s1 → Grown s1 s2 → J s2 := fun s1 s2 hJ hs d hd => (hJ d hd).grown hs
  refine rpc_holds rfl rfl fun s1 hs1 => ⟨trivial, fun _ => trivial, fun x l hmay hsem => ?_⟩
  have hJ1 : J s1 := hstable s s1 (fun _ h => h) hs1
  obtain rfl := utxos_of_sem hsem
  cases l with
  | nil => exact fun s2 hs2 => hstable s1 s2 hJ1 hs2
  | cons u us =>
    obtain ⟨out, hout, hvalue, haddress⟩ := mem_outputs_of_listUnspent hmay List.mem_cons_self
    refine sql_holds rfl fun s2 hs2 => ⟨?_, fun _ _ => ?_⟩
    · intro d hd hid
      obtain ⟨d', hd', hid', haddress'⟩ := (hdep.grown hs1).grown hs2
      obtain rfl := s2.db.deposit_ext hd hd' (hid.trans hid'.symm)
      exact ⟨out, hs2.outputs (mem_known_of_lookup hout), haddress'.symm ▸ haddress, congrArg readSatoshis hvalue⟩
    · have hJ3 : J (s2.runSql (.activateDeposit dep.id u.outpoint (readSatoshis u.amount))).2 := by
        intro d hd
        obtain ⟨d', hd', hid, haddress⟩ := hstable s1 s2 hJ1 hs2 d hd
        refine ⟨_, Db.mem_activateDeposit.2 ⟨d', hd', rfl⟩, ?_⟩
        split
        · exact ⟨hid, haddress⟩
        · exact ⟨hid, haddress⟩
      refine (creditReferralIfEligible_holds cfg rfl hstable ?_ (fun _ _ hJ => hJ) hJ3).mono (fun _ _ hJ => hJ)
        fun _ _ _ => trivial
      intro q s4 hq _
      cases q <;> trivial

theorem sumInputs_sound {inTotal : Int} :
    (Staking.sumInputs inTotal vin).Holds (truthSetting cfg N)
      (fun total s' => Grown s s' ∧ ∃ ins, InputsAre s'.known vin ins ∧
        total = inTotal + (ins.map fun out => readSatoshis out.nValue).sum)
      (fun _ _ => True) s := by
  induction vin generalizing inTotal s with
  | nil => exact fun _ hs => ⟨hs, [], .nil, by simp⟩
  | cons i vin ih =>
    refine rpc_holds rfl rfl fun s1 hs1 => ⟨trivial, fun _ => trivial, fun x prevtx hmay hsem => ?_⟩
    obtain rfl := tx_of_sem hsem
    have hknown := mem_known_of_getRawTransaction hmay
    split
    · exact fun _ _ => trivial
    · next out hout =>
      refine ih.mono ?_ fun _ _ h => h
      rintro total s2 ⟨hs2, ins, hins, rfl⟩
      refine ⟨(truthSetting cfg N).rely_trans hs1 hs2, out :: ins, .cons ?_ hins, ?_⟩
      · exact hs2.outputs (mem_outputs.2 ⟨_, hknown, rfl, hout⟩)
      · rw [List.map_cons, List.sum_cons]
        omega

def HasFunding (dep : StakeDeposit) (s : State) : Prop :=
  ∃ d ∈ s.db.stakeDeposits, d.id = dep.id ∧ d.status ≠ .awaitingFunds ∧ d.funding = dep.funding

theorem HasFunding.grown (h : HasFunding dep s) (hs : Grown s s') : HasFunding dep s' := by
  obtain ⟨d, hd, hid, hst, hfunding⟩ := h
  obtain ⟨d', hd', hid', -, -, hfunded⟩ := hs.deposits d hd
  exact ⟨d', hd', hid'.trans hid, (hfunded hst).1, (hfunded hst).2.trans hfunding⟩

theorem Grown.insertReward (reward : StakeReward) : Grown s (s.runSql (.insertReward reward)).2 := by
  refine ⟨fun _ h => h, fun d hd => ⟨d, ?_, rfl, rfl, rfl, fun h => ⟨h, rfl⟩⟩⟩
  exact (@Db.insertReward_stakeDeposits s.db reward).symm ▸ hd

theorem creditCoinstake_sound (hdep : HasFunding dep s)
    (hfunding : dep.funding = some funding) :
    (Staking.creditCoinstake cfg dep funding txid).Holds (truthSetting cfg N) (fun _ s' => Grown s s')
      (fun _ _ => True) s := by
  have htrans : ∀ {s1 s2 s3}, Grown s1 s2 → Grown s2 s3 → Grown s1 s3 := (truthSetting cfg N).rely_trans
  refine sql_holds rfl fun s1 hs1 => ⟨trivial, fun _ _ => ?_⟩
  refine .ite (fun _ s2 hs2 => htrans hs1 hs2) fun _ => ?_
  refine tryRpc_holds rfl rfl fun s2 hs2 => ⟨trivial, fun x r hmay hsem => ?_⟩
  have hs12 := htrans hs1 hs2
  cases r with
  | error _ => exact fun s3 hs3 => htrans hs12 hs3
  | ok tx =>
    obtain rfl := tx_of_sem hsem
    have hknown := mem_known_of_getRawTransaction hmay
    refine .ite (fun htx => ?_) fun _ s3 hs3 => htrans hs12 hs3
    obtain ⟨hstake, hspends⟩ := Bool.and_eq_true_iff.1 htx
    refine Prog.Holds.bind (sumInputs_sound.mono ?_ fun _ _ h => h)
    rintro total s3 ⟨hs3, ins, hins, rfl⟩
    have hs13 := htrans hs12 hs3
    refine sql_holds (f := Prog.ret) rfl fun s4 hs4 => ⟨?_, fun _ _ s5 hs5 => ?_⟩
    · obtain ⟨d, hd, hid, hst, hfund⟩ := hdep.grown (htrans hs13 hs4)
      refine ⟨d, hd, funding, hid, hst, hfund.trans hfunding, ⟨txid, tx⟩, hs4.known (hs3.known hknown), ins, hstake,
        hspends, hs4.inputsAre hins, ?_⟩
      rw [hid, Int.zero_add]
    · exact htrans (htrans hs13 hs4) (htrans (.insertReward _) hs5)

theorem attributeDeposit_sound (hdep : HasFunding dep s) :
    (Staking.attributeDeposit cfg dep).Holds (truthSetting cfg N) (fun _ s' => Grown s s') (fun _ _ => True) s := by
  have htrans : ∀ {s1 s2 s3}, Grown s1 s2 → Grown s2 s3 → Grown s1 s3 := (truthSetting cfg N).rely_trans
  rw [Staking.attributeDeposit]
  split
  · exact fun _ hs => hs
  · next funding hfunding =>
    refine tryRpc_holds rfl rfl fun s1 hs1 => ⟨trivial, fun x r _ _ => ?_⟩
    cases r with
    | error _ => exact fun s2 hs2 => htrans hs1 hs2
    | ok stillUnspent =>
      cases stillUnspent with
      | some _ => exact fun s2 hs2 => htrans hs1 hs2
      | none =>
        refine rpc_holds rfl rfl fun s2 hs2 => ⟨trivial, fun _ => trivial, fun x history _ _ => ?_⟩
        refine Prog.Holds.forM (J := fun _ s' => Grown s s') (fun _ _ _ h => htrans h) ?_ (htrans hs1 hs2)
        intro txid _ s3 hs3
        exact (creditCoinstake_sound (hdep.grown hs3) hfunding).mono (fun _ _ h => htrans hs3 h) fun _ _ h => h

/-- **A pass records what it has read.** -/
theorem watcherPass_sound :
    (Staking.watcherPass cfg).Holds (truthSetting cfg N) (fun _ _ => True) (fun _ _ => True) s := by
  have hmark := markFundedDeposits_holds cfg (S := truthSetting cfg N) (s := s) (J := fun _ => True) (M := HasRow) rfl
    (fun _ _ _ _ => trivial) (fun _ _ _ _ h hs => h.grown hs) (fun _ _ ho _ => pre_of_reads ho)
    (fun _ _ d hd _ => ⟨d, hd, rfl, rfl⟩)
    (fun dep s _ hdep => (markFunded_sound hdep).mono (fun _ _ h => ⟨trivial, fun d _ => h d⟩) fun _ _ h => h) trivial
  refine Prog.Holds.bind (hmark.mono (fun _ s1 _ => ?_) fun _ _ h => h)
  refine attributeRewards_holds cfg (J := fun _ => True) (M := HasFunding) rfl (fun _ _ _ _ => trivial)
    (fun _ _ _ _ h hs => h.grown hs) (fun _ _ ho _ => pre_of_reads ho) (fun _ _ d hd hst => ⟨d, hd, rfl, ?_, rfl⟩) ?_
    trivial
  · rw [hst]
    simp
  · intro dep s2 _ hdep
    exact (attributeDeposit_sound hdep).mono (fun _ _ h => ⟨trivial, fun _ hd => hd.grown h⟩) fun _ _ h => h

theorem prog_sound (t : Request) :
    (t.prog cfg).Holds (truthSetting cfg N) (fun _ _ => True) (fun _ _ => True) s := by
  have hother : (∀ o, t.ops o → ∀ s, (truthSetting cfg N).pre o s) →
      (t.prog cfg).Holds (truthSetting cfg N) (fun _ _ => True) (fun _ _ => True) s := by
    intro ht
    refine .of_within (J := fun _ => True) (prog_within t) (fun _ _ _ _ => trivial) ?_ trivial
    exact fun o s ho _ => ⟨ht o ho s, fun _ _ _ _ _ => trivial⟩
  cases t with
  | createDeposit userId => exact createDeposit_sound userId
  | watcherPass => exact watcherPass_sound
  | withdraw userId amount toAddress =>
    refine hother fun o ho s => ?_
    cases o with
    | rpc c => trivial
    | sql q => cases q <;> trivial
  | referralWithdraw userId toAddress =>
    refine hother fun o ho s => ?_
    cases o with
    | rpc c => trivial
    | sql q => cases q <;> trivial

/-! ## The steps keep the database sound -/

theorem Sound.congr (h : Sound cfg N s) (hdb : s'.db.stakeDeposits = s.db.stakeDeposits)
    (hrewards : s'.db.stakeRewards = s.db.stakeRewards) (hknown : s.known ⊆ s'.known) (hvalid : ValidChain N s'.chain)
    (hconsistent : Consistent s'.known) (hnew : ∀ t ∈ s'.known, t ∈ s'.chain ∨ t ∈ s.known) :
    Grown s s' ∧ Sound cfg N s' := by
  have hgrown : Grown s s' := by
    refine ⟨hknown, fun d hd => ⟨d, ?_, rfl, rfl, rfl, fun h => ⟨h, rfl⟩⟩⟩
    rw [hdb]
    exact hd
  refine ⟨hgrown, hvalid, hconsistent, ?_, ?_, ?_, ?_, ?_⟩
  · intro t ht k hk
    rcases hnew t ht with ht | ht
    · obtain ⟨out, hout⟩ := hvalid.chained.spent_created ht hk
      exact ⟨out, created_subset (List.subset_append_left _ _) hout⟩
    · obtain ⟨out, hout⟩ := h.resolved t ht k hk
      exact ⟨out, hgrown.outputs hout⟩
  · rw [hdb]
    exact h.addresses
  · rw [hdb]
    exact h.awaiting
  · rw [hdb]
    intro d hd hst
    obtain ⟨o, out, hfunding, hamount, hout, haddress⟩ := h.funded d hd hst
    exact ⟨o, out, hfunding, hamount, hgrown.outputs hout, haddress⟩
  · rw [hrewards]
    exact fun r hr => (h.rewards r hr).grown hgrown

theorem Sound.insertDeposit (h : Sound cfg N s) (v : UserId) {address : Address} (hmine : N.mine address = true) :
    Grown s (s.runSql (.insertDeposit v address)).2 ∧ Sound cfg N (s.runSql (.insertDeposit v address)).2 := by
  have hgrown : Grown s (s.runSql (.insertDeposit v address)).2 :=
    ⟨fun _ h => h, fun d hd => ⟨d, Db.mem_insertDeposit.2 (.inl hd), rfl, rfl, rfl, fun h => ⟨h, rfl⟩⟩⟩
  refine ⟨hgrown, h.valid, h.consistent, h.resolved, ?_, ?_, ?_, ?_⟩
  · intro d hd
    rcases Db.mem_insertDeposit.1 hd with hd | ⟨-, rfl⟩
    · exact h.addresses d hd
    · exact hmine
  · intro d hd hst
    rcases Db.mem_insertDeposit.1 hd with hd | ⟨-, rfl⟩
    · exact h.awaiting d hd hst
    · exact ⟨rfl, rfl⟩
  · intro d hd hst
    rcases Db.mem_insertDeposit.1 hd with hd | ⟨-, rfl⟩
    · exact h.funded d hd hst
    · exact absurd rfl hst
  · intro r hr
    exact (h.rewards r (@Db.insertDeposit_stakeRewards s.db v address ▸ hr)).grown hgrown

theorem Sound.activateDeposit {amount : Int} (h : Sound cfg N s)
    (hfunds : Funds N s id funding amount)
    (hawaiting : ∀ d ∈ s.db.stakeDeposits, d.id = id → d.status = .awaitingFunds) :
    Grown s (s.runSql (.activateDeposit id funding amount)).2 ∧
      Sound cfg N (s.runSql (.activateDeposit id funding amount)).2 := by
  have hgrown : Grown s (s.runSql (.activateDeposit id funding amount)).2 := by
    refine ⟨fun _ h => h, fun d hd => ⟨_, Db.mem_activateDeposit.2 ⟨d, hd, rfl⟩, ?_⟩⟩
    split
    · next hid => exact ⟨rfl, rfl, rfl, fun hst => absurd (hawaiting d hd hid) hst⟩
    · exact ⟨rfl, rfl, rfl, fun hst => ⟨hst, rfl⟩⟩
  refine ⟨hgrown, h.valid, h.consistent, h.resolved, ?_, ?_, ?_, ?_⟩
  · intro d hd
    obtain ⟨d', hd', rfl⟩ := Db.mem_activateDeposit.1 hd
    split
    · exact h.addresses d' hd'
    · exact h.addresses d' hd'
  · intro d hd hst
    obtain ⟨d', hd', rfl⟩ := Db.mem_activateDeposit.1 hd
    split at hst
    · cases hst
    · next hid =>
      rw [if_neg hid]
      exact h.awaiting d' hd' hst
  · intro d hd hst
    obtain ⟨d', hd', rfl⟩ := Db.mem_activateDeposit.1 hd
    split
    · next hid =>
      obtain ⟨out, hout, haddress, rfl⟩ := hfunds d' hd' hid
      exact ⟨funding, out, rfl, rfl, hout, haddress⟩
    · next hid =>
      rw [if_neg hid] at hst
      exact h.funded d' hd' hst
  · exact fun r hr => (h.rewards r hr).grown hgrown

theorem Sound.insertReward {reward : StakeReward} (h : Sound cfg N s) (hearned : Earned cfg s reward) :
    Grown s (s.runSql (.insertReward reward)).2 ∧ Sound cfg N (s.runSql (.insertReward reward)).2 := by
  have hdeposits : (s.runSql (.insertReward reward)).2.db.stakeDeposits = s.db.stakeDeposits :=
    Db.insertReward_stakeDeposits reward
  refine ⟨.insertReward reward, h.valid, h.consistent, h.resolved, ?_, ?_, ?_, ?_⟩
  · rw [hdeposits]
    exact h.addresses
  · rw [hdeposits]
    exact h.awaiting
  · rw [hdeposits]
    exact h.funded
  · intro r hr
    rcases Db.mem_insertReward hr with hr | rfl
    · exact (h.rewards r hr).grown (.insertReward reward)
    · exact hearned.grown (.insertReward r)

theorem Sound.closeDeposits (h : Sound cfg N s) (v : UserId) :
    Grown s (s.runSql (.closeDeposits v)).2 ∧ Sound cfg N (s.runSql (.closeDeposits v)).2 := by
  have hgrown : Grown s (s.runSql (.closeDeposits v)).2 := by
    refine ⟨fun _ h => h, fun d hd => ⟨_, Db.mem_closeDeposits.2 ⟨d, hd, rfl⟩, ?_⟩⟩
    split
    · exact ⟨rfl, rfl, rfl, fun _ => ⟨by simp, rfl⟩⟩
    · exact ⟨rfl, rfl, rfl, fun hst => ⟨hst, rfl⟩⟩
  refine ⟨hgrown, h.valid, h.consistent, h.resolved, ?_, ?_, ?_, fun r hr => (h.rewards r hr).grown hgrown⟩
  · intro d hd
    obtain ⟨d', hd', rfl⟩ := Db.mem_closeDeposits.1 hd
    split
    · exact h.addresses d' hd'
    · exact h.addresses d' hd'
  · intro d hd hst
    obtain ⟨d', hd', rfl⟩ := Db.mem_closeDeposits.1 hd
    split at hst
    · cases hst
    · next hclosed =>
      rw [if_neg hclosed]
      exact h.awaiting d' hd' hst
  · intro d hd hst
    obtain ⟨d', hd', rfl⟩ := Db.mem_closeDeposits.1 hd
    split
    · next hclosed => exact h.funded d' hd' (by simp [hclosed.2])
    · next hclosed =>
      rw [if_neg hclosed] at hst
      exact h.funded d' hd' hst

theorem Sound.of_step {o : Op} {r : o.Res} (h : Sound cfg N s) (hpre : (truthSetting cfg N).pre o s)
    (htrue : o.truthful N s x = true) (honce : o.activatesAwaiting s = true) (hsem : sem o x s = some (r, s')) :
    Grown s s' ∧ Sound cfg N s' := by
  cases o with
  | rpc c =>
    rcases sem_rpc hsem with rfl | ⟨wallet, v, dest, amountCac, amount, t, rfl, rfl, -, -, -, rfl⟩
    · exact h.congr rfl rfl (fun _ h => h) h.valid h.consistent fun _ ht => .inr ht
    · simp only [Op.truthful, Bool.and_eq_true, decide_eq_true_eq] at htrue
      obtain ⟨⟨⟨hvalid, hfresh⟩, -⟩, -⟩ := htrue
      have hnew : ∀ t' ∈ t :: s.known, t' ∈ t :: s.chain ∨ t' ∈ s.known := by
        intro t' ht'
        rcases List.mem_cons.1 ht' with rfl | ht'
        · exact .inl List.mem_cons_self
        · exact .inr ht'
      refine h.congr rfl rfl (List.subset_cons_self _ _) hvalid ?_ hnew
      intro t1 ht1 t2 ht2 heq
      rcases List.mem_cons.1 ht1 with rfl | ht1
      · rcases List.mem_cons.1 ht2 with rfl | ht2
        · rfl
        · exact absurd (List.mem_map_of_mem ht2) (heq ▸ hfresh)
      · rcases List.mem_cons.1 ht2 with rfl | ht2
        · exact absurd (List.mem_map_of_mem ht1) (heq ▸ hfresh)
        · exact h.consistent t1 ht1 t2 ht2 heq
  | sql q =>
    obtain ⟨-, rfl⟩ := sem_sql hsem
    have hsame : ∀ s' : State, s'.db.stakeDeposits = s.db.stakeDeposits → s'.db.stakeRewards = s.db.stakeRewards →
        s'.chain = s.chain → s'.stale = s.stale → Grown s s' ∧ Sound cfg N s' := by
      intro s' hdeposits hrewards hchain hstale
      have hknown : s'.known = s.known := by rw [State.known, State.known, hchain, hstale]
      exact h.congr hdeposits hrewards (hknown ▸ fun _ h => h) (hchain ▸ h.valid) (hknown ▸ h.consistent)
        fun _ ht => .inr (hknown ▸ ht)
    cases q with
    | insertDeposit v address => exact h.insertDeposit v hpre
    | activateDeposit id funding amount => exact h.activateDeposit hpre (of_decide_eq_true honce)
    | insertReward reward => exact h.insertReward hpre
    | closeDeposits v => exact h.closeDeposits v
    | _ => exact hsame _ rfl rfl rfl rfl

theorem Sound.of_chain {txs : List WalletTx} (h : Sound cfg N s) (hvalid : ValidChain N txs)
    (hconsistent : Consistent (txs ++ s.known)) (hext : (External.chain txs).apply s = some s') :
    Grown s s' ∧ Sound cfg N s' := by
  cases hext
  have hold : ∀ t ∈ s.known, t ∈ txs ++ (s.chain.filter (fun t => decide (t ∉ txs)) ++ s.stale) := by
    intro t ht
    rcases List.mem_append.1 ht with ht | ht
    · by_cases hmem : t ∈ txs
      · exact List.mem_append_left _ hmem
      · exact List.mem_append_right _ (List.mem_append_left _ (List.mem_filter.2 ⟨ht, decide_eq_true hmem⟩))
    · exact List.mem_append_right _ (List.mem_append_right _ ht)
  -- All of it was known, or is new.
  have hsub : ∀ t ∈ txs ++ (s.chain.filter (fun t => decide (t ∉ txs)) ++ s.stale), t ∈ txs ++ s.known := by
    intro t ht
    simp only [List.mem_append, List.mem_filter, State.known] at ht ⊢
    rcases ht with ht | ⟨ht, -⟩ | ht
    · exact .inl ht
    · exact .inr (.inl ht)
    · exact .inr (.inr ht)
  refine h.congr rfl rfl hold hvalid ?_ fun t ht => List.mem_append.1 (hsub t ht)
  exact fun t ht t' ht' => hconsistent t (hsub t ht) t' (hsub t' ht')

/-- **The rule of true answers.** -/
theorem truthful_invariant {A : GPool → GEvent → Bool} {K : State → Prop} {P : GPool}
    (hA : ∀ P e, A P e = true → truthfulRun N P e = true) (h : Reachable (gateway cfg) A {} P) (hinit : K {})
    (hstep : ∀ P i x o r s', A P (.step i x) = true → P.next i = some o → Sound cfg N P.state → K P.state →
      (truthSetting cfg N).pre o P.state → sem o x P.state = some (r, s') → Grown P.state s' → Sound cfg N s' → K s')
    (hext : ∀ P e s', A P (.ext e) = true → Sound cfg N P.state → K P.state → e.apply P.state = some s' →
      Grown P.state s' → Sound cfg N s' → K s') :
    Sound cfg N P.state ∧ K P.state := by
  refine (h.cooperative (S := truthSetting cfg N) (J := fun s => Sound cfg N s ∧ K s) rfl ?_ ?_ ?_ ?_ ?_).1
  · refine ⟨⟨⟨trivial, ?_, ?_⟩, ?_, ?_, ?_, ?_, ?_, ?_⟩, hinit⟩ <;> exact fun _ h => (List.not_mem_nil h).elim
  · exact fun P t _ _ => prog_sound t
  · intro P i x o hP ho
    have htrue := hA P _ hP
    simp only [truthfulRun, ho, Option.all_some, Bool.and_eq_true] at htrue
    exact htrue.1
  · rintro P i x o r s' hP ho ⟨hsound, hK⟩ hpre hsem
    have htrue := hA P _ hP
    simp only [truthfulRun, ho, Option.all_some, Bool.and_eq_true] at htrue
    obtain ⟨hgrown, hsound'⟩ := hsound.of_step hpre htrue.1 htrue.2 hsem
    exact ⟨hgrown, hsound', hstep P i x o r s' hP ho hsound hK hpre hsem hgrown hsound'⟩
  · rintro P e s' hP ⟨hsound, hK⟩ hs'
    replace hs' : e.apply P.state = some s' := hs'
    have hkeep : Grown P.state s' ∧ Sound cfg N s' := by
      cases e with
      | signup referredBy =>
        obtain rfl := signup_eq hs'
        exact hsound.congr rfl rfl (fun _ h => h) hsound.valid hsound.consistent fun _ ht => .inr ht
      | chain txs =>
        have htrue := hA P _ hP
        simp only [truthfulRun, Bool.and_eq_true, decide_eq_true_eq] at htrue
        exact hsound.of_chain htrue.1 htrue.2 hs'
    exact ⟨hkeep.1, hkeep.2, hext P e s' hP hsound hK hs' hkeep.1 hkeep.2⟩

end

end CodexaCoin.Gateway
