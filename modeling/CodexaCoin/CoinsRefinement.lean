import CodexaCoin.CoinsCache

/-!
# Runs of the coin caches

Sequences of operations on a stack of views, next to the same operations on plain maps.
-/

namespace CodexaCoin

open Check CoinMap WriteBack

/-! ## Operations -/

/-- An operation on a stack of views. `AddCoin` and `SpendCoin` work on the top; the other ones leave what a view shows
alone and may be called on any view, `depth` levels below the top or on the database. -/
inductive CacheOp where
  | addCoin (o : COutPoint) (coin : Coin) (possible_overwrite : Bool)
  | spendCoin (o : COutPoint)
  | getCoin (depth : Nat) (o : COutPoint)
  | accessCoin (depth : Nat) (o : COutPoint)
  | uncache (depth : Nat) (o : COutPoint)
  | sync (depth : Nat)
  | flush (depth : Nat)
  /-- A new cache over the top. -/
  | push
  /-- The cache at the top is destroyed, with what it has not written. -/
  | pop
deriving DecidableEq

namespace CoinsView

def atDepth (f : CoinsView → BlockCheck (Option Coin × CoinsView)) : Nat → CoinsView →
    BlockCheck (Option Coin × CoinsView)
  | d + 1, .cache c base => do
    let r ← atDepth f d base
    .ok (r.1, .cache c r.2)
  | _, v => f v

def step (mem : Coin → BitVec 64) (v : CoinsView) : CacheOp → BlockCheck (Option Coin × CoinsView)
  | .addCoin o coin possible_overwrite => do
    let v' ← addCoin mem o coin possible_overwrite v
    .ok (none, v')
  | .spendCoin o => .ok (spendCoin mem o v)
  | .getCoin depth o => atDepth (fun v => .ok (getCoin mem o v)) depth v
  | .accessCoin depth o => atDepth (fun v => .ok (accessCoin mem o v)) depth v
  | .uncache depth o => atDepth (fun v => .ok (none, uncache mem o v)) depth v
  | .sync depth => atDepth (fun v => (sync mem v).map fun v' => (none, v')) depth v
  | .flush depth => atDepth (fun v => (flush mem v).map fun v' => (none, v')) depth v
  | .push => .ok (none, .cache {} v)
  | .pop =>
    match v with
    | .cache _ (.cache c base) => .ok (none, .cache c base)
    | _ => .error (.abort "the last cache stays")

def run (mem : Coin → BitVec 64) : CoinsView → List CacheOp → BlockCheck (List (Option Coin) × CoinsView)
  | v, [] => .ok ([], v)
  | v, op :: ops => do
    let r ← step mem v op
    let s ← run mem r.2 ops
    .ok (r.1 :: s.1, s.2)

end CoinsView

/-! ## The same operations on plain maps -/

namespace PlainMaps

def atDepth (f : List CoinMap → Option Coin × List CoinMap) : Nat → List CoinMap → Option Coin × List CoinMap
  | d + 1, m :: m' :: ms =>
    let r := atDepth f d (m' :: ms)
    (r.1, m :: r.2)
  | _, ms => f ms

def onTop (m : CoinMap) : CacheOp → BlockCheck CoinMap
  | .addCoin o coin possible_overwrite =>
    m.addCoin o coin.out coin.nHeight coin.fCoinBase coin.fCoinStake coin.nTime possible_overwrite
  | .spendCoin o => .ok (m.erase o)
  | _ => .ok m

def topCoin (ms : List CoinMap) (o : COutPoint) : Option Coin := ms.head?.bind fun m => m.lookup o

def writeBack : List CoinMap → List CoinMap
  | m :: _ :: ms => m :: m :: ms
  | ms => ms

/-- One operation on the maps, with the coin it answers with. -/
def step (ms : List CoinMap) (op : CacheOp) : BlockCheck (Option Coin × List CoinMap) :=
  match op with
  | .getCoin depth o | .accessCoin depth o => .ok (atDepth (fun ms => (topCoin ms o, ms)) depth ms)
  | .sync depth | .flush depth => .ok (atDepth (fun ms => (none, writeBack ms)) depth ms)
  | .uncache _ _ => .ok (none, ms)
  | .push => .ok (none, ms.head?.toList ++ ms)
  | .pop =>
    match ms with
    | _ :: m :: m' :: ms => .ok (none, m :: m' :: ms)
    | _ => .error (.abort "the last cache stays")
  | .addCoin _ _ _ => do
    let m' ← onTop (ms.headD ∅) op
    .ok (none, m' :: ms.tail)
  | .spendCoin o => do
    let m' ← onTop (ms.headD ∅) op
    .ok (topCoin ms o, m' :: ms.tail)

def run : List CoinMap → List CacheOp → BlockCheck (List (Option Coin) × List CoinMap)
  | ms, [] => .ok ([], ms)
  | ms, op :: ops => do
    let r ← step ms op
    let s ← run r.2 ops
    .ok (r.1 :: s.1, s.2)

end PlainMaps

namespace PlainMaps

variable {f : List CoinMap → Option Coin × List CoinMap} {ms ms' : List CoinMap} {op : CacheOp} {a : Option Coin}
  {ops : List CacheOp} {answers : List (Option Coin)} {m : CoinMap}

theorem atDepth_length (hf : ∀ ms, (f ms).2.length = ms.length) (d : Nat) (ms : List CoinMap) :
    (atDepth f d ms).2.length = ms.length := by
  induction d generalizing ms with
  | zero => exact hf ms
  | succ d ih =>
    rcases ms with _ | ⟨m, _ | ⟨m', rest⟩⟩
    · exact hf _
    · exact hf _
    · simp [atDepth, ih]

theorem atDepth_head (hf : ∀ ms, (f ms).2.head? = ms.head?) (d : Nat) (ms : List CoinMap) :
    (atDepth f d ms).2.head? = ms.head? := by
  cases d with
  | zero => exact hf ms
  | succ d =>
    rcases ms with _ | ⟨m, _ | ⟨m', rest⟩⟩
    · exact hf _
    · exact hf _
    · rfl

theorem atDepth_none (d : Nat) (ms : List CoinMap) : atDepth (fun ms => (none, ms)) d ms = (none, ms) := by
  induction d generalizing ms with
  | zero => rfl
  | succ d ih =>
    rcases ms with _ | ⟨m, _ | ⟨m', rest⟩⟩
    · rfl
    · rfl
    · rw [atDepth, ih]

theorem writeBack_length (ms : List CoinMap) : (writeBack ms).length = ms.length := by
  rcases ms with _ | ⟨m, _ | ⟨m', rest⟩⟩ <;> rfl

theorem writeBack_head (ms : List CoinMap) : (writeBack ms).head? = ms.head? := by
  rcases ms with _ | ⟨m, _ | ⟨m', rest⟩⟩ <;> rfl

theorem atDepth_writeBack (d : Nat) (ms : List CoinMap) (hd : d + 1 < ms.length) :
    (atDepth (fun ms => (none, writeBack ms)) d ms).2[d + 1]? =
      (atDepth (fun ms => (none, writeBack ms)) d ms).2[d]? := by
  induction d generalizing ms with
  | zero =>
    rcases ms with _ | ⟨m, _ | ⟨m', rest⟩⟩
    · cases hd
    · simp at hd
    · rfl
  | succ d ih =>
    rcases ms with _ | ⟨m, _ | ⟨m', rest⟩⟩
    · cases hd
    · simp at hd
    · exact ih (m' :: rest) (by simpa using hd)

theorem step_length (h : step ms op = .ok (a, ms')) (hlen : 2 ≤ ms.length) : 2 ≤ ms'.length := by
  have htail : ms.tail.length = ms.length - 1 := List.length_tail
  cases op with
  | addCoin o coin possible_overwrite =>
    obtain ⟨m', -, h⟩ := bind_eq_ok.1 h
    cases h
    simp only [List.length_cons]
    omega
  | spendCoin o =>
    obtain ⟨m', -, h⟩ := bind_eq_ok.1 h
    cases h
    simp only [List.length_cons]
    omega
  | getCoin depth o | accessCoin depth o =>
    have hms : (atDepth _ depth ms).2 = ms' := congrArg Prod.snd (Except.ok.inj h)
    rwa [← hms, atDepth_length fun _ => rfl]
  | uncache depth o =>
    cases h
    exact hlen
  | sync depth | flush depth =>
    have hms : (atDepth _ depth ms).2 = ms' := congrArg Prod.snd (Except.ok.inj h)
    rwa [← hms, atDepth_length writeBack_length]
  | push =>
    cases h
    rw [List.length_append]
    omega
  | pop =>
    rcases ms with _ | ⟨_, _ | ⟨m, _ | ⟨m', rest⟩⟩⟩ <;> simp only [step] at h <;> cases h
    simp

theorem step_head (h : step ms op = .ok (a, ms')) (hop : op ≠ .pop) (hm : ms.head? = some m) :
    ∃ m', onTop m op = .ok m' ∧ ms'.head? = some m' := by
  have hheadD : ms.headD ∅ = m := by rw [List.headD_eq_head?_getD, hm, Option.getD_some]
  cases op with
  | addCoin o coin possible_overwrite =>
    obtain ⟨m', hadd, h⟩ := bind_eq_ok.1 h
    cases h
    exact ⟨m', hheadD ▸ hadd, rfl⟩
  | spendCoin o =>
    obtain ⟨m', hspend, h⟩ := bind_eq_ok.1 h
    cases h
    exact ⟨m', hheadD ▸ hspend, rfl⟩
  | getCoin depth o | accessCoin depth o =>
    have hms : (atDepth _ depth ms).2 = ms' := congrArg Prod.snd (Except.ok.inj h)
    exact ⟨m, rfl, hms ▸ (atDepth_head (fun _ => rfl) depth ms).trans hm⟩
  | uncache depth o =>
    cases h
    exact ⟨m, rfl, hm⟩
  | sync depth | flush depth =>
    have hms : (atDepth _ depth ms).2 = ms' := congrArg Prod.snd (Except.ok.inj h)
    exact ⟨m, rfl, hms ▸ (atDepth_head writeBack_head depth ms).trans hm⟩
  | push =>
    cases h
    exact ⟨m, rfl, by rw [hm]; rfl⟩
  | pop => exact absurd rfl hop

theorem run_cons_eq_ok (h : run ms (op :: ops) = .ok (answers, ms')) :
    ∃ a ms1 rest, step ms op = .ok (a, ms1) ∧ run ms1 ops = .ok (rest, ms') ∧ answers = a :: rest := by
  obtain ⟨⟨a, ms1⟩, hstep, h⟩ := bind_eq_ok.1 h
  obtain ⟨⟨rest, ms2⟩, hrun, h⟩ := bind_eq_ok.1 h
  cases h
  exact ⟨a, ms1, rest, hstep, hrun, rfl⟩

/-- **Without `pop` the map at the top is a single map** under the same operations. -/
theorem run_head (h : run ms ops = .ok (answers, ms')) (hops : CacheOp.pop ∉ ops)
    (hm : ms.head? = some m) : ∃ m', ops.foldlM onTop m = .ok m' ∧ ms'.head? = some m' := by
  induction ops generalizing ms answers m with
  | nil =>
    cases h
    exact ⟨m, rfl, hm⟩
  | cons op ops ih =>
    obtain ⟨a, ms1, rest, hstep, hrun, -⟩ := run_cons_eq_ok h
    rw [List.mem_cons, not_or] at hops
    obtain ⟨m1, htop, hm1⟩ := step_head hstep (Ne.symm hops.1) hm
    obtain ⟨m', hfold, hm'⟩ := ih hrun hops.2 hm1
    exact ⟨m', by rw [List.foldlM_cons, htop]; exact hfold, hm'⟩

theorem run_getLast (h : run ms ops = .ok (answers, ms')) (hlast : ops.getLast? = some op) :
    ∃ ms1 a, step ms1 op = .ok (a, ms') := by
  induction ops generalizing ms answers with
  | nil => cases hlast
  | cons op' ops ih =>
    obtain ⟨a, ms1, rest, hstep, hrun, -⟩ := run_cons_eq_ok h
    cases ops with
    | nil =>
      cases hlast
      cases hrun
      exact ⟨ms, a, hstep⟩
    | cons op'' ops => exact ih hrun (by rwa [List.getLast?_cons_cons] at hlast)

end PlainMaps

/-! ## The refinement -/

namespace CoinsView

variable {mem : Coin → BitVec 64} {v : CoinsView} {ms ms' : List CoinMap} {op : CacheOp} {a : Option Coin}
  {ops : List CacheOp} {answers : List (Option Coin)}

/-- The view `d` levels below the top. -/
def level : Nat → CoinsView → CoinsView
  | d + 1, .cache _ base => level d base
  | _, v => v

theorem Models.level_contents (h : Models mem v ms) {d : Nat} {m : CoinMap} (hm : ms[d]? = some m) (o : COutPoint) :
    (v.level d).contents o = m.lookup o := by
  induction d generalizing v ms with
  | zero =>
    obtain ⟨m', rest, rfl⟩ := h.exists_cons
    cases hm
    exact h.contents_eq o
  | succ d ih =>
    cases v with
    | db coins =>
      cases h
      cases hm
    | cache c base =>
      obtain ⟨m', rest, rfl⟩ := h.exists_cons
      exact ih h.2.2 hm

theorem Models.level_bottom (h : Models mem v ms) {d : Nat} (hd : ms.length ≤ d + 1) : v.level (d + 1) = v.level d := by
  induction d generalizing v ms with
  | zero =>
    cases v with
    | db coins => rfl
    | cache c base =>
      obtain ⟨m, rest, rfl⟩ := h.exists_cons
      obtain ⟨m', rest', rfl⟩ := h.2.2.exists_cons
      simp at hd
  | succ d ih =>
    cases v with
    | db coins => rfl
    | cache c base =>
      obtain ⟨m, rest, rfl⟩ := h.exists_cons
      exact ih h.2.2 (by simpa using hd)

theorem atDepth_models {f : CoinsView → BlockCheck (Option Coin × CoinsView)}
    {g : List CoinMap → Option Coin × List CoinMap}
    (hf : ∀ v ms, Models mem v ms →
      ∃ v', f v = .ok ((g ms).1, v') ∧ Models mem v' (g ms).2 ∧ v'.contents = v.contents)
    (h : Models mem v ms) (d : Nat) :
    ∃ v', atDepth f d v = .ok ((PlainMaps.atDepth g d ms).1, v') ∧ Models mem v' (PlainMaps.atDepth g d ms).2 ∧
      v'.contents = v.contents := by
  induction d generalizing v ms with
  | zero =>
    rw [atDepth, PlainMaps.atDepth]
    · exact hf v ms h
    · simp
    · simp
  | succ d ih =>
    cases v with
    | db coins =>
      cases h
      exact hf (.db coins) [coins] rfl
    | cache c base =>
      obtain ⟨m, rest, rfl⟩ := h.exists_cons
      obtain ⟨m', rest', rfl⟩ := h.2.2.exists_cons
      obtain ⟨base', hok, hmodels, hsame⟩ := ih h.2.2
      obtain ⟨hcache, hcontents⟩ := h.rebase hmodels hsame
      exact ⟨.cache c base', by rw [atDepth, hok]; rfl, hcache, hcontents⟩

theorem getCoin_atDepth (h : Models mem v ms) (d : Nat) (o : COutPoint) :
    ∃ v', atDepth (fun v => .ok (getCoin mem o v)) d v =
        .ok ((PlainMaps.atDepth (fun ms => (PlainMaps.topCoin ms o, ms)) d ms).1, v') ∧
      Models mem v' (PlainMaps.atDepth (fun ms => (PlainMaps.topCoin ms o, ms)) d ms).2 := by
  have hf : ∀ v ms, Models mem v ms → ∃ v', (.ok (getCoin mem o v) : BlockCheck (Option Coin × CoinsView)) =
      .ok (PlainMaps.topCoin ms o, v') ∧ Models mem v' ms ∧ v'.contents = v.contents := by
    intro v ms h
    obtain ⟨hanswer, hmodels, hsame⟩ := getCoin_models h o
    obtain ⟨m, rest, rfl⟩ := h.exists_cons
    have htop : (getCoin mem o v).1 = PlainMaps.topCoin (m :: rest) o := hanswer.trans (h.contents_eq o)
    exact ⟨(getCoin mem o v).2, by rw [← htop], hmodels, hsame⟩
  obtain ⟨v', hok, hmodels, -⟩ := atDepth_models (f := fun v => .ok (getCoin mem o v))
    (g := fun ms => (PlainMaps.topCoin ms o, ms)) hf h d
  exact ⟨v', hok, hmodels⟩

theorem writeBack_atDepth {f : CoinsView → BlockCheck CoinsView} (hdb : ∀ coins, f (.db coins) = .ok (.db coins))
    (hcache : ∀ c base m m2 ms, Models mem (.cache c base) (m :: m2 :: ms) →
      ∃ v', f (.cache c base) = .ok v' ∧ Models mem v' (m :: m :: ms))
    (h : Models mem v ms) (d : Nat) :
    ∃ v', atDepth (fun v => (f v).map fun v' => (none, v')) d v =
        .ok ((PlainMaps.atDepth (fun ms => (none, PlainMaps.writeBack ms)) d ms).1, v') ∧
      Models mem v' (PlainMaps.atDepth (fun ms => (none, PlainMaps.writeBack ms)) d ms).2 := by
  have hf : ∀ v ms, Models mem v ms → ∃ v', ((f v).map fun v' => ((none : Option Coin), v')) = .ok (none, v') ∧
      Models mem v' (PlainMaps.writeBack ms) ∧ v'.contents = v.contents := by
    intro v ms h
    cases v with
    | db coins =>
      cases h
      exact ⟨.db coins, by rw [hdb]; rfl, rfl, rfl⟩
    | cache c base =>
      obtain ⟨m, rest, rfl⟩ := h.exists_cons
      obtain ⟨m2, rest', rfl⟩ := h.2.2.exists_cons
      obtain ⟨v', hok, hmodels⟩ := hcache c base m m2 rest' h
      refine ⟨v', by rw [hok]; rfl, hmodels, funext fun o => ?_⟩
      rw [hmodels.contents_eq, h.contents_eq]
  obtain ⟨v', hok, hmodels, -⟩ := atDepth_models (f := fun v => (f v).map fun v' => (none, v'))
    (g := fun ms => (none, PlainMaps.writeBack ms)) hf h d
  exact ⟨v', hok, hmodels⟩

/-- **One operation keeps every view next to its map**, and its answer is that of the maps. -/
theorem step_models (h : Models mem v ms) (hlen : 2 ≤ ms.length) (hplain : PlainMaps.step ms op = .ok (a, ms')) :
    ∃ v', v.step mem op = .ok (a, v') ∧ Models mem v' ms' := by
  obtain ⟨m, rest, rfl⟩ := h.exists_cons
  cases v with
  | db coins =>
    cases h
    simp at hlen
  | cache c base =>
    cases op with
    | addCoin o coin possible_overwrite =>
      obtain ⟨m', hadd, hplain⟩ := bind_eq_ok.1 hplain
      cases hplain
      obtain ⟨c', hok, hmodels⟩ := addCoin_models h hadd
      exact ⟨.cache c' base, by rw [step, hok]; rfl, hmodels⟩
    | spendCoin o =>
      obtain ⟨m', hspend, hplain⟩ := bind_eq_ok.1 hplain
      cases hspend
      cases hplain
      obtain ⟨c', base', hok, hmodels⟩ := spendCoin_models h o
      exact ⟨.cache c' base', by rw [step, hok]; rfl, hmodels⟩
    | getCoin depth o =>
      obtain ⟨v', hok, hmodels⟩ := getCoin_atDepth h depth o
      have hresult := Except.ok.inj hplain
      rw [hresult] at hok hmodels
      exact ⟨v', hok, hmodels⟩
    | accessCoin depth o =>
      obtain ⟨v', hok, hmodels⟩ := getCoin_atDepth h depth o
      have hresult := Except.ok.inj hplain
      rw [hresult] at hok hmodels
      refine ⟨v', ?_, hmodels⟩
      simp only [step, accessCoin_eq_getCoin]
      exact hok
    | uncache depth o =>
      cases hplain
      obtain ⟨v', hok, hmodels, -⟩ := atDepth_models (f := fun v => .ok (none, uncache mem o v))
        (g := fun ms => (none, ms)) (fun v ms h => ⟨uncache mem o v, rfl, uncache_models h o⟩) h depth
      rw [PlainMaps.atDepth_none] at hok hmodels
      exact ⟨v', hok, hmodels⟩
    | sync depth =>
      obtain ⟨v', hok, hmodels⟩ := writeBack_atDepth (f := sync mem) (fun _ => rfl) (fun c base m m2 ms h => by
        obtain ⟨c', base', hok, hmodels⟩ := sync_models h
        exact ⟨_, hok, hmodels⟩) h depth
      have hresult := Except.ok.inj hplain
      rw [hresult] at hok hmodels
      exact ⟨v', hok, hmodels⟩
    | flush depth =>
      obtain ⟨v', hok, hmodels⟩ := writeBack_atDepth (f := flush mem) (fun _ => rfl) (fun c base m m2 ms h => by
        obtain ⟨base', hok, hmodels⟩ := flush_models h
        exact ⟨_, hok, hmodels⟩) h depth
      have hresult := Except.ok.inj hplain
      rw [hresult] at hok hmodels
      exact ⟨v', hok, hmodels⟩
    | push =>
      cases hplain
      refine ⟨.cache {} (.cache c base), rfl, fun o => ?_, .empty, h⟩
      rw [AList.lookup_empty, see_none]
      exact h.contents_eq o
    | pop =>
      obtain ⟨m2, rest', rfl⟩ := h.2.2.exists_cons
      cases rest' with
      | nil => cases hplain
      | cons m3 rest' =>
        cases hplain
        cases base with
        | db coins => cases h.2.2
        | cache c2 base2 => exact ⟨.cache c2 base2, rfl, h.2.2⟩

theorem run_models (h : Models mem v ms) (hlen : 2 ≤ ms.length) (hplain : PlainMaps.run ms ops = .ok (answers, ms')) :
    ∃ v', v.run mem ops = .ok (answers, v') ∧ Models mem v' ms' := by
  induction ops generalizing v ms answers with
  | nil =>
    cases hplain
    exact ⟨v, rfl, h⟩
  | cons op ops ih =>
    obtain ⟨a, ms1, rest, hstep, hrun, rfl⟩ := PlainMaps.run_cons_eq_ok hplain
    obtain ⟨v1, hok1, h1⟩ := step_models h hlen hstep
    obtain ⟨v', hok, h'⟩ := ih h1 (PlainMaps.step_length hstep hlen) hrun
    exact ⟨v', by rw [run, hok1]; show (run mem v1 ops >>= _) = _; rw [hok]; rfl, h'⟩

end CoinsView

open CoinsView in
theorem coinsView_refines (mem : Coin → BitVec 64) (coins : CoinMap) {ops : List CacheOp}
    {answers : List (Option Coin)} {ms : List CoinMap} (h : PlainMaps.run [coins, coins] ops = .ok (answers, ms)) :
    ∃ v, CoinsView.run mem (.cache {} (.db coins)) ops = .ok (answers, v) ∧ v.sanityCheck mem = true ∧
      (∀ d m, ms[d]? = some m → ∀ o, (v.level d).contents o = m.lookup o) ∧
      (CacheOp.pop ∉ ops → ∃ m, ops.foldlM PlainMaps.onTop coins = .ok m ∧ ms.head? = some m) ∧
      ∀ d, ops.getLast? = some (.flush d) ∨ ops.getLast? = some (.sync d) →
        ∀ o, (v.level (d + 1)).contents o = (v.level d).contents o := by
  have hstart : Models mem (.cache {} (.db coins)) [coins, coins] := by
    refine ⟨fun o => ?_, .empty, rfl⟩
    rw [AList.lookup_empty, see_none]
    rfl
  obtain ⟨v, hok, hmodels⟩ := run_models hstart (Nat.le_refl 2) h
  refine ⟨v, hok, hmodels.sanityCheck, fun d m hm o => hmodels.level_contents hm o,
    fun hops => PlainMaps.run_head h hops rfl, fun d hlast o => ?_⟩
  -- the last operation has left the two maps equal, unless it was called on the database
  have hwritten : ∃ ms1, ms = (PlainMaps.atDepth (fun ms => (none, PlainMaps.writeBack ms)) d ms1).2 := by
    rcases hlast with hlast | hlast
    · obtain ⟨ms1, a, hstep⟩ := PlainMaps.run_getLast h hlast
      exact ⟨ms1, (congrArg Prod.snd (Except.ok.inj hstep)).symm⟩
    · obtain ⟨ms1, a, hstep⟩ := PlainMaps.run_getLast h hlast
      exact ⟨ms1, (congrArg Prod.snd (Except.ok.inj hstep)).symm⟩
  obtain ⟨ms1, hms⟩ := hwritten
  have hlength : ms.length = ms1.length := by rw [hms, PlainMaps.atDepth_length PlainMaps.writeBack_length]
  by_cases hd : d + 1 < ms.length
  · have hequal : ms[d + 1]? = ms[d]? := by
      rw [hms]
      exact PlainMaps.atDepth_writeBack d ms1 (by omega)
    obtain ⟨m, hm⟩ : ∃ m, ms[d + 1]? = some m := ⟨ms[d + 1], List.getElem?_eq_getElem hd⟩
    rw [hmodels.level_contents hm, hmodels.level_contents (hequal ▸ hm)]
  · rw [hmodels.level_bottom (by omega)]

def sampleCoin (nValue : Nat) : Coin where
  out := ⟨nValue, [opChecksig]⟩
  fCoinBase := false
  fCoinStake := false
  nHeight := 1
  nTime := 0
  unspent := by simp

def sampleOps : List CacheOp :=
  let o : COutPoint := ⟨7, 0⟩
  [.addCoin o (sampleCoin 1) false, .push, .getCoin 0 o, .spendCoin o, .getCoin 0 o, .getCoin 1 o, .sync 0,
    .addCoin o (sampleCoin 2) false, .uncache 0 o, .flush 0, .pop, .accessCoin 0 o, .flush 0]

theorem sampleOps_refines : ∃ answers ms v, PlainMaps.run [∅, ∅] sampleOps = .ok (answers, ms) ∧
    answers.getLast? = some none ∧ some (sampleCoin 2) ∈ answers ∧
    CoinsView.run (fun _ => 32) (.cache {} (.db ∅)) sampleOps = .ok (answers, v) ∧
      v.sanityCheck (fun _ => 32) = true := by
  have hplain : holdsOk (fun r : List (Option Coin) × List CoinMap =>
      decide (r.1.getLast? = some none ∧ some (sampleCoin 2) ∈ r.1)) (PlainMaps.run [∅, ∅] sampleOps) = true := by
    decide +kernel
  obtain ⟨⟨answers, ms⟩, hrun, hanswers⟩ := holdsOk_iff.1 hplain
  obtain ⟨hlast, hcoin⟩ := of_decide_eq_true hanswers
  obtain ⟨v, hok, hsanity, -⟩ := coinsView_refines (fun _ => 32) ∅ hrun
  exact ⟨answers, ms, v, hrun, hlast, hcoin, hok, hsanity⟩

end CodexaCoin
