import CodexaCoin.Coins
import CodexaCoin.Lib.WriteBack

/-!
# The caches over the coin database

`CCoinsViewCache` of `coins.cpp` and the write loop of `CCoinsViewDB`. Views stand on each other; `Models` gives for each
of them the finite map that it stands for, and every operation keeps it.
-/

namespace CodexaCoin

open Check CoinMap WriteBack

abbrev CCoinsCacheEntry := WriteBack.Entry Coin

abbrev CCoinsMap := AList fun _ : COutPoint => CCoinsCacheEntry

structure CCoinsViewCache where
  cacheCoins : CCoinsMap := ∅
  cachedCoinsUsage : BitVec 64 := 0

/-- A view: the coin database, or a cache over another view. -/
inductive CoinsView where
  | db (coins : CoinMap)
  | cache (c : CCoinsViewCache) (base : CoinsView)

section Model

variable (mem : Coin → BitVec 64)

def CCoinsCacheEntry.dynamicMemoryUsage (e : CCoinsCacheEntry) : BitVec 64 := (e.value.map mem).getD 0

namespace CCoinsViewCache

variable (c : CCoinsViewCache) (o : COutPoint)

/-- Write an entry; the usage of the old one goes and that of the new one comes. -/
def store (e : CCoinsCacheEntry) : CCoinsViewCache where
  cacheCoins := c.cacheCoins.insert o e
  cachedCoinsUsage := c.cachedCoinsUsage - ((c.cacheCoins.lookup o).map (CCoinsCacheEntry.dynamicMemoryUsage mem)).getD 0
    + CCoinsCacheEntry.dynamicMemoryUsage mem e

def remove : CCoinsViewCache where
  cacheCoins := c.cacheCoins.erase o
  cachedCoinsUsage := c.cachedCoinsUsage - ((c.cacheCoins.lookup o).map (CCoinsCacheEntry.dynamicMemoryUsage mem)).getD 0

def addCoin (coin : Coin) (possible_overwrite : Bool) : BlockCheck CCoinsViewCache :=
  if isUnspendable coin.out.scriptPubKey then .ok c
  else
    let slot := c.cacheCoins.lookup o
    if !possible_overwrite && (slot.bind (·.value)).isSome then
      .error (.abort "Attempted to overwrite an unspent coin (when possible_overwrite is false)")
    else
      let fresh := !possible_overwrite && !((slot.map (·.dirty)).getD false)
      .ok (c.store mem o ⟨some coin, true, fresh || (slot.map (·.fresh)).getD false⟩)

def uncache : CCoinsViewCache :=
  match c.cacheCoins.lookup o with
  | some e => if !e.dirty && !e.fresh then c.remove mem o else c
  | none => c

/-- One round of the loop of `CCoinsViewCache::BatchWrite`. -/
def batchWriteEntry (it : (_ : COutPoint) × CCoinsCacheEntry) : BlockCheck CCoinsViewCache :=
  if !it.2.dirty then .ok c
  else
    match c.cacheCoins.lookup it.1 with
    | none =>
      if !(it.2.fresh && it.2.value.isNone) then .ok (c.store mem it.1 ⟨it.2.value, true, it.2.fresh⟩) else .ok c
    | some itUs =>
      if it.2.fresh && itUs.value.isSome then
        .error (.abort "FRESH flag misapplied to coin that exists in parent cache")
      else if itUs.fresh && it.2.value.isNone then .ok (c.remove mem it.1)
      else .ok (c.store mem it.1 { itUs with value := it.2.value, dirty := true })

/-- One round of the second loop of `Sync`. -/
def syncEntry (it : (_ : COutPoint) × CCoinsCacheEntry) : CCoinsViewCache :=
  if it.2.value.isNone then c.remove mem it.1
  else { c with cacheCoins := c.cacheCoins.insert it.1 ⟨it.2.value, false, false⟩ }

/-- The attributes of an entry in `SanityCheck`. -/
def attr (e : CCoinsCacheEntry) : Nat :=
  (if e.dirty then 1 else 0) + (if e.fresh then 2 else 0) + (if e.value.isNone then 4 else 0)

def sanityCheck : Bool :=
  (c.cacheCoins.entries.all fun it => decide (attr it.2 ≠ 2 ∧ attr it.2 ≠ 4 ∧ attr it.2 ≠ 7)) &&
    decide ((c.cacheCoins.entries.map fun it => CCoinsCacheEntry.dynamicMemoryUsage mem it.2).sum = c.cachedCoinsUsage)

end CCoinsViewCache

namespace CoinsView

/-- The end of `FetchCoin`: cache what the base has found. -/
def cacheFound (c : CCoinsViewCache) (o : COutPoint) (found : Option Coin × CoinsView) :
    Option CCoinsCacheEntry × CCoinsViewCache × CoinsView :=
  match found.1 with
  | none => (none, c, found.2)
  | some coin => (some { value := some coin }, c.store mem o { value := some coin }, found.2)

def getCoin (o : COutPoint) : CoinsView → Option Coin × CoinsView
  | .db coins => (coins.lookup o, .db coins)
  | .cache c base =>
    match c.cacheCoins.lookup o with
    | some e => (e.value, .cache c base)
    | none =>
      let r := cacheFound mem c o (getCoin o base)
      (r.1.bind (·.value), .cache r.2.1 r.2.2)

def fetchCoin (o : COutPoint) (c : CCoinsViewCache) (base : CoinsView) :
    Option CCoinsCacheEntry × CCoinsViewCache × CoinsView :=
  match c.cacheCoins.lookup o with
  | some e => (some e, c, base)
  | none => cacheFound mem c o (getCoin mem o base)

def accessCoin (o : COutPoint) : CoinsView → Option Coin × CoinsView
  | .db coins => (coins.lookup o, .db coins)
  | .cache c base =>
    let r := fetchCoin mem o c base
    (r.1.bind (·.value), .cache r.2.1 r.2.2)

def addCoin (o : COutPoint) (coin : Coin) (possible_overwrite : Bool) : CoinsView → BlockCheck CoinsView
  | .db coins => .ok (.db coins)
  | .cache c base => do
    let c' ← c.addCoin mem o coin possible_overwrite
    .ok (.cache c' base)

def spendCoin (o : COutPoint) : CoinsView → Option Coin × CoinsView
  | .db coins => (none, .db coins)
  | .cache c base =>
    let r := fetchCoin mem o c base
    match r.1 with
    | none => (none, .cache r.2.1 r.2.2)
    | some e =>
      if e.fresh then (e.value, .cache (r.2.1.remove mem o) r.2.2)
      else (e.value, .cache (r.2.1.store mem o { e with value := none, dirty := true }) r.2.2)

/-- One round of the loop of `CCoinsViewDB::BatchWrite`. -/
def dbWriteEntry (coins : CoinMap) (it : (_ : COutPoint) × CCoinsCacheEntry) : CoinMap :=
  if it.2.dirty then
    match it.2.value with
    | none => coins.erase it.1
    | some coin => coins.insert it.1 coin
  else coins

def batchWrite (mapCoins : CCoinsMap) : CoinsView → BlockCheck CoinsView
  | .db coins => .ok (.db (mapCoins.entries.foldl dbWriteEntry coins))
  | .cache c base => do
    let c' ← mapCoins.entries.foldlM (CCoinsViewCache.batchWriteEntry mem) c
    .ok (.cache c' base)

def uncache (o : COutPoint) : CoinsView → CoinsView
  | .db coins => .db coins
  | .cache c base => .cache (c.uncache mem o) base

def flush : CoinsView → BlockCheck CoinsView
  | .db coins => .ok (.db coins)
  | .cache c base => do
    let base' ← batchWrite mem c.cacheCoins base
    .ok (.cache {} base')

def sync : CoinsView → BlockCheck CoinsView
  | .db coins => .ok (.db coins)
  | .cache c base => do
    let base' ← batchWrite mem c.cacheCoins base
    .ok (.cache (c.cacheCoins.entries.foldl (CCoinsViewCache.syncEntry mem) c) base')

/-- `SanityCheck` of every cache of a stack. -/
def sanityCheck : CoinsView → Bool
  | .db _ => true
  | .cache c base => c.sanityCheck mem && sanityCheck base

end CoinsView

end Model

/-! ## One cache -/

section Cache

variable {mem : Coin → BitVec 64} {c : CCoinsViewCache} {o o' : COutPoint} {e : CCoinsCacheEntry}

/-- `cachedCoinsUsage` is the sum that `SanityCheck` recomputes. -/
def CCoinsViewCache.Accounts (mem : Coin → BitVec 64) (c : CCoinsViewCache) : Prop :=
  (c.cacheCoins.entries.map fun it => CCoinsCacheEntry.dynamicMemoryUsage mem it.2).sum = c.cachedCoinsUsage

theorem CCoinsViewCache.accounts_iff : c.Accounts mem ↔
    FinmapSum.wsum (fun _ e => CCoinsCacheEntry.dynamicMemoryUsage mem e) c.cacheCoins.toFinmap =
      c.cachedCoinsUsage := by
  rw [Accounts, FinmapSum.wsum, AList.toFinmap_entries, Multiset.map_coe, Multiset.sum_coe]

namespace CCoinsViewCache

theorem store_lookup (e : CCoinsCacheEntry) : (c.store mem o e).cacheCoins.lookup o = some e :=
  AList.lookup_insert _

theorem store_lookup_ne (e : CCoinsCacheEntry) (h : o' ≠ o) :
    (c.store mem o e).cacheCoins.lookup o' = c.cacheCoins.lookup o' :=
  AList.lookup_insert_ne h

theorem remove_lookup : (c.remove mem o).cacheCoins.lookup o = none :=
  AList.lookup_erase _ _

theorem remove_lookup_ne (h : o' ≠ o) : (c.remove mem o).cacheCoins.lookup o' = c.cacheCoins.lookup o' :=
  AList.lookup_erase_ne h

theorem Accounts.remove (h : c.Accounts mem) (o : COutPoint) : (c.remove mem o).Accounts mem := by
  rw [accounts_iff] at h ⊢
  have hsum := FinmapSum.wsum_eq_lookup_add_erase (fun _ e => CCoinsCacheEntry.dynamicMemoryUsage mem e)
    c.cacheCoins.toFinmap o
  rw [h, Finmap.lookup_toFinmap] at hsum
  rw [CCoinsViewCache.remove, ← Finmap.erase_toFinmap, hsum]
  exact (add_sub_cancel_left _ _).symm

theorem Accounts.store (h : c.Accounts mem) (o : COutPoint) (e : CCoinsCacheEntry) : (c.store mem o e).Accounts mem := by
  have hrest := accounts_iff.1 (h.remove o)
  rw [accounts_iff, CCoinsViewCache.store, ← Finmap.insert_toFinmap, FinmapSum.wsum_insert, Finmap.erase_toFinmap]
  rw [CCoinsViewCache.remove] at hrest
  rw [hrest, add_comm]

end CCoinsViewCache

end Cache

namespace CCoinsViewCache

/-- A cache that accounts for its entries and keeps its promises about the view below. -/
structure Sound (mem : Coin → BitVec 64) (below : COutPoint → Option Coin) (c : CCoinsViewCache) : Prop where
  accounts : c.Accounts mem
  slots : ∀ o, SlotSound (c.cacheCoins.lookup o) (below o)

variable {mem : Coin → BitVec 64} {below : COutPoint → Option Coin} {c : CCoinsViewCache} {o : COutPoint}
  {e : CCoinsCacheEntry}

theorem Sound.empty : Sound mem below {} :=
  ⟨rfl, fun o => by simp⟩

theorem Sound.store (h : c.Sound mem below) (he : e.Sound (below o)) : (c.store mem o e).Sound mem below := by
  refine ⟨h.accounts.store o e, fun o' => ?_⟩
  by_cases ho : o' = o
  · subst ho
    rw [store_lookup]
    exact slotSound_some.2 he
  · rw [store_lookup_ne e ho]
    exact h.slots o'

theorem Sound.remove (h : c.Sound mem below) (o : COutPoint) : (c.remove mem o).Sound mem below := by
  refine ⟨h.accounts.remove o, fun o' => ?_⟩
  by_cases ho : o' = o
  · subst ho
    rw [remove_lookup]
    exact slotSound_none
  · rw [remove_lookup_ne ho]
    exact h.slots o'

theorem see_store (e : CCoinsCacheEntry) (o' : COutPoint) :
    see ((c.store mem o e).cacheCoins.lookup o') (below o') =
      if o' = o then e.value else see (c.cacheCoins.lookup o') (below o') := by
  split
  · next ho =>
    subst ho
    rw [store_lookup, see_some]
  · next ho => rw [store_lookup_ne e ho]

theorem see_remove (o' : COutPoint) :
    see ((c.remove mem o).cacheCoins.lookup o') (below o') =
      if o' = o then below o' else see (c.cacheCoins.lookup o') (below o') := by
  split
  · next ho =>
    subst ho
    rw [remove_lookup, see_none]
  · next ho => rw [remove_lookup_ne ho]

/-- **The flags pass `SanityCheck`.** -/
theorem Sound.sanityCheck (h : c.Sound mem below) : c.sanityCheck mem = true := by
  unfold CCoinsViewCache.sanityCheck
  rw [Bool.and_eq_true, List.all_eq_true, decide_eq_true_eq]
  refine ⟨fun it hit => ?_, h.accounts⟩
  have hlookup : c.cacheCoins.lookup it.1 = some it.2 := AList.mem_lookup_iff.2 hit
  have hflags := (h.slots it.1 it.2 hlookup).flags
  have hgone := (h.slots it.1 it.2 hlookup).gone
  rw [decide_eq_true_eq]
  unfold attr
  cases hvalue : it.2.value with
  | none =>
    obtain ⟨hdirty, hfresh⟩ := hgone hvalue
    simp [hdirty, hfresh]
  | some coin =>
    cases hdirty : it.2.dirty with
    | true => cases it.2.fresh <;> simp
    | false =>
      obtain ⟨hfresh, -⟩ := hflags.1 hdirty
      simp [hfresh]

end CCoinsViewCache

/-! ## Views and the maps they stand for -/

namespace CoinsView

/-- The coins that a view shows. -/
def contents : CoinsView → COutPoint → Option Coin
  | .db coins => fun o => coins.lookup o
  | .cache c base => fun o => see (c.cacheCoins.lookup o) (contents base o)

/-- A stack of sound caches, and for each view, from the top down, the map that it stands for. -/
def Models (mem : Coin → BitVec 64) : CoinsView → List CoinMap → Prop
  | .db coins, ms => ms = [coins]
  | .cache c base, m :: ms =>
    (∀ o, see (c.cacheCoins.lookup o) (base.contents o) = m.lookup o) ∧ c.Sound mem base.contents ∧ Models mem base ms
  | .cache _ _, [] => False

variable {mem : Coin → BitVec 64} {v base : CoinsView} {c : CCoinsViewCache} {m : CoinMap} {ms : List CoinMap}
  {o : COutPoint}

theorem Models.contents_eq (h : Models mem v (m :: ms)) (o : COutPoint) : v.contents o = m.lookup o := by
  cases v with
  | db coins =>
    cases h
    rfl
  | cache c base => exact h.1 o

theorem Models.exists_cons (h : Models mem v ms) : ∃ m rest, ms = m :: rest := by
  cases v with
  | db coins => exact ⟨_, _, h⟩
  | cache c base =>
    cases ms with
    | nil => exact h.elim
    | cons m rest => exact ⟨m, rest, rfl⟩

/-- **Every view of a modelled stack passes its checks.** -/
theorem Models.sanityCheck (h : Models mem v ms) : v.sanityCheck mem = true := by
  induction v generalizing ms with
  | db coins => rfl
  | cache c base ih =>
    obtain ⟨m, rest, rfl⟩ := h.exists_cons
    rw [CoinsView.sanityCheck, Bool.and_eq_true]
    exact ⟨h.2.1.sanityCheck, ih h.2.2⟩

theorem Models.rebase {base' : CoinsView} {ms' : List CoinMap} (h : Models mem (.cache c base) (m :: ms))
    (hbase : Models mem base' ms') (hcontents : base'.contents = base.contents) :
    Models mem (.cache c base') (m :: ms') ∧ (CoinsView.cache c base').contents = (CoinsView.cache c base).contents := by
  refine ⟨⟨?_, ?_, hbase⟩, ?_⟩
  · rw [hcontents]
    exact h.1
  · rw [hcontents]
    exact h.2.1
  · simp only [contents, hcontents]

/-! ### Reading -/

/-- What `FetchCoin` does to a cache and its base. -/
structure Fetched (mem : Coin → BitVec 64) (o : COutPoint) (c : CCoinsViewCache) (base : CoinsView) (ms : List CoinMap)
    (r : Option CCoinsCacheEntry × CCoinsViewCache × CoinsView) : Prop where
  slot : r.2.1.cacheCoins.lookup o = r.1
  value : r.1.bind (·.value) = see (c.cacheCoins.lookup o) (base.contents o)
  seen : ∀ o', see (r.2.1.cacheCoins.lookup o') (base.contents o') = see (c.cacheCoins.lookup o') (base.contents o')
  sound : r.2.1.Sound mem base.contents
  models : Models mem r.2.2 ms
  same : r.2.2.contents = base.contents

theorem cacheFound_fetched {found : Option Coin × CoinsView} (hc : c.Sound mem base.contents)
    (hslot : c.cacheCoins.lookup o = none) (hfound : found.1 = base.contents o) (hbase : Models mem found.2 ms)
    (hcontents : found.2.contents = base.contents) : Fetched mem o c base ms (cacheFound mem c o found) := by
  unfold cacheFound
  cases hcoin : found.1 with
  | none =>
    refine ⟨hslot, ?_, fun o' => rfl, hc, hbase, hcontents⟩
    rw [hslot, see_none, ← hfound, hcoin]
    rfl
  | some coin =>
    have hbelow : base.contents o = some coin := hfound.symm.trans hcoin
    refine ⟨CCoinsViewCache.store_lookup _, ?_, fun o' => ?_, hc.store (.loaded hbelow), hbase, hcontents⟩
    · rw [hslot, see_none, hbelow]
      rfl
    · rw [CCoinsViewCache.see_store]
      split
      · next ho =>
        subst ho
        rw [hslot, see_none, hbelow]
      · rfl

/-- **`GetCoin` answers with the coin of the map**, and no view changes what it shows. -/
theorem getCoin_models (h : Models mem v ms) (o : COutPoint) :
    (getCoin mem o v).1 = v.contents o ∧ Models mem (getCoin mem o v).2 ms ∧
      (getCoin mem o v).2.contents = v.contents := by
  induction v generalizing ms with
  | db coins => exact ⟨rfl, h, rfl⟩
  | cache c base ih =>
    obtain ⟨m, rest, rfl⟩ := h.exists_cons
    obtain ⟨hseen, hsound, hbase⟩ := h
    rw [getCoin]
    cases hslot : c.cacheCoins.lookup o with
    | some e =>
      refine ⟨?_, ⟨hseen, hsound, hbase⟩, rfl⟩
      simp only [contents, hslot, see_some]
    | none =>
      obtain ⟨hanswer, hmodels, hcontents⟩ := ih hbase
      have hfetched := cacheFound_fetched hsound hslot hanswer hmodels hcontents
      refine ⟨hfetched.value, ⟨fun o' => ?_, ?_, hfetched.models⟩, ?_⟩
      · rw [hfetched.same, hfetched.seen, hseen]
      · rw [hfetched.same]
        exact hfetched.sound
      · funext o'
        simp only [contents]
        rw [hfetched.same, hfetched.seen]

theorem fetchCoin_fetched (hc : c.Sound mem base.contents) (hbase : Models mem base ms) (o : COutPoint) :
    Fetched mem o c base ms (fetchCoin mem o c base) := by
  unfold fetchCoin
  cases hslot : c.cacheCoins.lookup o with
  | some e =>
    refine ⟨hslot, ?_, fun o' => rfl, hc, hbase, rfl⟩
    rw [hslot]
    rfl
  | none =>
    obtain ⟨hanswer, hmodels, hcontents⟩ := getCoin_models hbase o
    exact cacheFound_fetched hc hslot hanswer hmodels hcontents

theorem accessCoin_eq_getCoin (o : COutPoint) (v : CoinsView) : accessCoin mem o v = getCoin mem o v := by
  cases v with
  | db coins => rfl
  | cache c base =>
    rw [accessCoin, getCoin, fetchCoin]
    cases c.cacheCoins.lookup o <;> rfl

end CoinsView

/-! ### Writing -/

namespace CCoinsViewCache

variable {mem : Coin → BitVec 64} {below : COutPoint → Option Coin} {c : CCoinsViewCache}
  {it : (_ : COutPoint) × CCoinsCacheEntry} {es : List ((_ : COutPoint) × CCoinsCacheEntry)}

theorem batchWriteEntry_absorb (hc : c.Accounts mem) (hdirty : it.2.dirty = true)
    (hit : it.2.Sound (see (c.cacheCoins.lookup it.1) (below it.1))) :
    ∃ c', c.batchWriteEntry mem it = .ok c' ∧ c'.Accounts mem ∧
      c'.cacheCoins.lookup it.1 = absorb it.2 (c.cacheCoins.lookup it.1) ∧
      ∀ o, o ≠ it.1 → c'.cacheCoins.lookup o = c.cacheCoins.lookup o := by
  have hstore := fun e => (⟨hc.store it.1 e, store_lookup e, fun o ho => store_lookup_ne e ho⟩ :
    (c.store mem it.1 e).Accounts mem ∧ (c.store mem it.1 e).cacheCoins.lookup it.1 = some e ∧
      ∀ o, o ≠ it.1 → (c.store mem it.1 e).cacheCoins.lookup o = c.cacheCoins.lookup o)
  unfold batchWriteEntry
  rw [hdirty, Bool.not_true, if_neg Bool.false_ne_true]
  cases hslot : c.cacheCoins.lookup it.1 with
  | none =>
    simp only [absorb]
    by_cases hcond : (it.2.fresh && it.2.value.isNone) = true
    · rw [hcond]
      exact ⟨c, rfl, hc, by rw [hslot, if_pos rfl], fun _ _ => rfl⟩
    · rw [Bool.not_eq_true] at hcond
      rw [hcond]
      exact ⟨_, rfl, hstore _⟩
  | some itUs =>
    rw [hslot] at hit
    have hthrow : (it.2.fresh && itUs.value.isSome) = false := by
      cases hfresh : it.2.fresh with
      | false => rfl
      | true => rw [hit.meets_none hfresh]; rfl
    simp only [absorb, hthrow, Bool.false_eq_true, if_false]
    by_cases hcond : (itUs.fresh && it.2.value.isNone) = true
    · rw [hcond]
      exact ⟨_, rfl, hc.remove _, remove_lookup, fun o ho => remove_lookup_ne ho⟩
    · rw [Bool.not_eq_true] at hcond
      rw [hcond]
      exact ⟨_, rfl, hstore _⟩

theorem batchWriteEntry_spec (hc : c.Sound mem below)
    (hit : it.2.Sound (see (c.cacheCoins.lookup it.1) (below it.1))) :
    ∃ c', c.batchWriteEntry mem it = .ok c' ∧ c'.Sound mem below ∧
      ∀ o, see (c'.cacheCoins.lookup o) (below o) =
        if o = it.1 then it.2.value else see (c.cacheCoins.lookup o) (below o) := by
  cases hdirty : it.2.dirty with
  | false =>
    refine ⟨c, by simp [batchWriteEntry, hdirty], hc, fun o => ?_⟩
    split
    · next ho => rw [ho, hit.clean hdirty]
    · rfl
  | true =>
    obtain ⟨c', hok, haccounts, hlookup, hother⟩ := batchWriteEntry_absorb hc.accounts hdirty hit
    refine ⟨c', hok, ⟨haccounts, fun o => ?_⟩, fun o => ?_⟩
    · by_cases ho : o = it.1
      · rw [ho, hlookup]
        exact SlotSound.absorb hit (hc.slots it.1)
      · rw [hother o ho]
        exact hc.slots o
    · split
      · next ho =>
        rw [ho, hlookup]
        exact see_absorb hit (hc.slots it.1)
      · next ho => rw [hother o ho]

/-- **The loop of `BatchWrite`**: the cache then shows what the child showed. -/
theorem batchWriteEntries_spec (hnodup : es.NodupKeys)
    (hc : c.Sound mem below) (hes : ∀ it ∈ es, it.2.Sound (see (c.cacheCoins.lookup it.1) (below it.1))) :
    ∃ c', es.foldlM (batchWriteEntry mem) c = .ok c' ∧ c'.Sound mem below ∧
      ∀ o, see (c'.cacheCoins.lookup o) (below o) = see (es.dlookup o) (see (c.cacheCoins.lookup o) (below o)) := by
  induction es generalizing c with
  | nil => exact ⟨c, rfl, hc, fun o => rfl⟩
  | cons it es ih =>
    rw [List.nodupKeys_cons] at hnodup
    obtain ⟨c1, hok1, hc1, hseen1⟩ := batchWriteEntry_spec hc (hes it List.mem_cons_self)
    have hes1 : ∀ it' ∈ es, it'.2.Sound (see (c1.cacheCoins.lookup it'.1) (below it'.1)) := by
      intro it' hmem
      have hne : it'.1 ≠ it.1 := fun heq => hnodup.1 (heq ▸ List.mem_keys_of_mem hmem)
      rw [hseen1, if_neg hne]
      exact hes it' (List.mem_cons_of_mem it hmem)
    obtain ⟨c', hok, hc', hseen⟩ := ih hnodup.2 hc1 hes1
    refine ⟨c', by rw [List.foldlM_cons, hok1]; exact hok, hc', fun o => ?_⟩
    rw [hseen, hseen1]
    by_cases ho : o = it.1
    · subst ho
      rw [if_pos rfl, List.dlookup_eq_none.2 hnodup.1, List.dlookup_cons_eq]
      rfl
    · rw [if_neg ho, List.dlookup_cons_ne _ _ ho]

theorem syncEntry_spec (hc : c.Accounts mem) (hlookup : c.cacheCoins.lookup it.1 = some it.2) :
    (syncEntry mem c it).Accounts mem ∧ (syncEntry mem c it).cacheCoins.lookup it.1 = settle it.2 ∧
      ∀ o, o ≠ it.1 → (syncEntry mem c it).cacheCoins.lookup o = c.cacheCoins.lookup o := by
  unfold syncEntry settle
  cases hvalue : it.2.value with
  | none => exact ⟨hc.remove _, remove_lookup, fun o ho => remove_lookup_ne ho⟩
  | some coin =>
    -- the flags do not count for the usage
    have hsame : ({ c with cacheCoins := c.cacheCoins.insert it.1 ⟨some coin, false, false⟩ } : CCoinsViewCache) =
        c.store mem it.1 ⟨some coin, false, false⟩ := by
      simp [CCoinsViewCache.store, hlookup, CCoinsCacheEntry.dynamicMemoryUsage, hvalue]
    rw [Option.isNone_some, if_neg Bool.false_ne_true, hsame]
    exact ⟨hc.store _ _, store_lookup _, fun o ho => store_lookup_ne _ ho⟩

/-- **The second loop of `Sync`** settles every entry. -/
theorem syncEntries_spec (hnodup : es.NodupKeys)
    (hc : c.Accounts mem) (hes : ∀ it ∈ es, c.cacheCoins.lookup it.1 = some it.2) :
    (es.foldl (syncEntry mem) c).Accounts mem ∧
      ∀ o, (es.foldl (syncEntry mem) c).cacheCoins.lookup o =
        match es.dlookup o with
        | none => c.cacheCoins.lookup o
        | some e => settle e := by
  induction es generalizing c with
  | nil => exact ⟨hc, fun o => rfl⟩
  | cons it es ih =>
    rw [List.nodupKeys_cons] at hnodup
    obtain ⟨hc1, hlookup1, hother1⟩ := syncEntry_spec hc (hes it List.mem_cons_self)
    have hne : ∀ it' ∈ es, it'.1 ≠ it.1 := fun it' hmem heq => hnodup.1 (heq ▸ List.mem_keys_of_mem hmem)
    obtain ⟨hacc, hrest⟩ := ih hnodup.2 hc1 fun it' hmem => by
      rw [hother1 _ (hne it' hmem)]
      exact hes it' (List.mem_cons_of_mem it hmem)
    refine ⟨hacc, fun o => ?_⟩
    rw [List.foldl_cons, hrest]
    by_cases ho : o = it.1
    · subst ho
      rw [List.dlookup_eq_none.2 hnodup.1, List.dlookup_cons_eq]
      exact hlookup1
    · rw [List.dlookup_cons_ne _ _ ho, hother1 o ho]

end CCoinsViewCache

namespace CoinsView

variable {mem : Coin → BitVec 64} {v base : CoinsView} {c : CCoinsViewCache} {m m' : CoinMap} {ms : List CoinMap}
  {o : COutPoint} {m2 : CoinMap}

theorem dbWriteEntries_lookup {es : List ((_ : COutPoint) × CCoinsCacheEntry)} (hnodup : es.NodupKeys) {coins : CoinMap}
    (hes : ∀ it ∈ es, it.2.Sound (coins.lookup it.1)) (o : COutPoint) :
    (es.foldl dbWriteEntry coins).lookup o = see (es.dlookup o) (coins.lookup o) := by
  induction es generalizing coins with
  | nil => rfl
  | cons it es ih =>
    rw [List.nodupKeys_cons] at hnodup
    have hstep : ∀ o, (dbWriteEntry coins it).lookup o = if o = it.1 then it.2.value else coins.lookup o := by
      intro o
      unfold dbWriteEntry
      by_cases ho : o = it.1
      · subst ho
        rw [if_pos rfl]
        split
        · split
          · next hvalue => rw [Finmap.lookup_erase, hvalue]
          · next coin hvalue => rw [Finmap.lookup_insert, hvalue]
        · next hclean => exact ((hes it List.mem_cons_self).clean (Bool.eq_false_iff.2 hclean)).symm
      · rw [if_neg ho]
        split
        · split
          · exact Finmap.lookup_erase_ne ho
          · exact Finmap.lookup_insert_of_ne _ ho
        · rfl
    have hes1 : ∀ it' ∈ es, it'.2.Sound ((dbWriteEntry coins it).lookup it'.1) := by
      intro it' hmem
      have hne : it'.1 ≠ it.1 := fun heq => hnodup.1 (heq ▸ List.mem_keys_of_mem hmem)
      rw [hstep, if_neg hne]
      exact hes it' (List.mem_cons_of_mem it hmem)
    rw [List.foldl_cons, ih hnodup.2 hes1, hstep]
    by_cases ho : o = it.1
    · subst ho
      rw [if_pos rfl, List.dlookup_eq_none.2 hnodup.1, List.dlookup_cons_eq]
      rfl
    · rw [if_neg ho, List.dlookup_cons_ne _ _ ho]

/-- **`BatchWrite` of a child** makes the view show what the child shows; nothing is thrown. -/
theorem batchWrite_spec {mapCoins : CCoinsMap} (h : Models mem v (m :: ms))
    (hchild : ∀ o, SlotSound (mapCoins.lookup o) (v.contents o))
    (hm : ∀ o, see (mapCoins.lookup o) (v.contents o) = m'.lookup o) :
    ∃ v', batchWrite mem mapCoins v = .ok v' ∧ Models mem v' (m' :: ms) := by
  have hentries : ∀ it ∈ mapCoins.entries, it.2.Sound (v.contents it.1) := fun it hit =>
    hchild it.1 it.2 (AList.mem_lookup_iff.2 hit)
  cases v with
  | db coins =>
    cases h
    refine ⟨_, rfl, ?_⟩
    have hcoins : mapCoins.entries.foldl dbWriteEntry m = m' := by
      apply Finmap.ext_lookup
      intro o
      rw [dbWriteEntries_lookup mapCoins.nodupKeys hentries]
      exact hm o
    rw [Models, hcoins]
  | cache c base =>
    obtain ⟨hseen, hsound, hbase⟩ := h
    obtain ⟨c', hok, hc', hseen'⟩ := CCoinsViewCache.batchWriteEntries_spec mapCoins.nodupKeys hsound hentries
    refine ⟨.cache c' base, by rw [batchWrite, hok]; rfl, fun o => ?_, hc', hbase⟩
    rw [hseen']
    exact hm o

theorem flush_models (h : Models mem (.cache c base) (m :: m2 :: ms)) :
    ∃ base', flush mem (.cache c base) = .ok (.cache {} base') ∧ Models mem (.cache {} base') (m :: m :: ms) := by
  obtain ⟨hseen, hsound, hbase⟩ := h
  obtain ⟨base', hok, hmodels⟩ := batchWrite_spec hbase hsound.slots hseen
  refine ⟨base', by rw [flush, hok]; rfl, fun o => ?_, .empty, hmodels⟩
  rw [AList.lookup_empty, see_none]
  exact hmodels.contents_eq o

theorem sync_models (h : Models mem (.cache c base) (m :: m2 :: ms)) :
    ∃ c' base', sync mem (.cache c base) = .ok (.cache c' base') ∧ Models mem (.cache c' base') (m :: m :: ms) := by
  obtain ⟨hseen, hsound, hbase⟩ := h
  obtain ⟨base', hok, hmodels⟩ := batchWrite_spec hbase hsound.slots hseen
  obtain ⟨haccounts, hlookup⟩ := CCoinsViewCache.syncEntries_spec c.cacheCoins.nodupKeys hsound.accounts
    fun it hit => AList.mem_lookup_iff.2 hit
  -- the base shows the value of each entry now
  have hslot : ∀ o, (c.cacheCoins.entries.foldl (CCoinsViewCache.syncEntry mem) c).cacheCoins.lookup o =
      (c.cacheCoins.lookup o).bind settle := by
    intro o
    rw [hlookup]
    show (match c.cacheCoins.lookup o with
      | none => c.cacheCoins.lookup o
      | some e => settle e) = _
    cases c.cacheCoins.lookup o <;> rfl
  have hbelow : ∀ o e, c.cacheCoins.lookup o = some e → base'.contents o = e.value := by
    intro o e he
    rw [hmodels.contents_eq, ← hseen, he, see_some]
  refine ⟨_, base', by rw [sync, hok]; rfl, fun o => ?_, ⟨haccounts, fun o => ?_⟩, hmodels⟩
  · rw [hslot, ← hmodels.contents_eq]
    cases he : c.cacheCoins.lookup o with
    | none => rfl
    | some e =>
      rw [Option.bind_some, hbelow o e he]
      exact see_settle e
  · rw [hslot]
    cases he : c.cacheCoins.lookup o with
    | none => exact slotSound_none
    | some e =>
      rw [Option.bind_some, hbelow o e he]
      exact settle_sound e

theorem uncache_models (h : Models mem v ms) (o : COutPoint) :
    Models mem (uncache mem o v) ms ∧ (uncache mem o v).contents = v.contents := by
  cases v with
  | db coins => exact ⟨h, rfl⟩
  | cache c base =>
    obtain ⟨m, rest, rfl⟩ := h.exists_cons
    rw [uncache, CCoinsViewCache.uncache]
    cases hslot : c.cacheCoins.lookup o with
    | none => exact ⟨h, rfl⟩
    | some e =>
      dsimp only
      split
      · next hflags =>
        rw [Bool.and_eq_true, Bool.not_eq_true', Bool.not_eq_true'] at hflags
        obtain ⟨hseen, hsound, hbase⟩ := h
        have hdrop := (hsound.slots o e hslot).drop hflags.1
        have hsame : ∀ o', see ((c.remove mem o).cacheCoins.lookup o') (base.contents o') =
            see (c.cacheCoins.lookup o') (base.contents o') := by
          intro o'
          rw [CCoinsViewCache.see_remove]
          split
          · next ho => rw [ho, hslot, see_some, hdrop]
          · rfl
        exact ⟨⟨fun o' => (hsame o').trans (hseen o'), hsound.remove o, hbase⟩, funext hsame⟩
      · exact ⟨h, rfl⟩

/-- **`AddCoin`** puts the coin where the map puts it, if the map has not aborted. -/
theorem addCoin_models {coin : Coin} {possible_overwrite : Bool} (h : Models mem (.cache c base) (m :: ms))
    (hplain : m.addCoin o coin.out coin.nHeight coin.fCoinBase coin.fCoinStake coin.nTime possible_overwrite = .ok m') :
    ∃ c', addCoin mem o coin possible_overwrite (.cache c base) = .ok (.cache c' base) ∧
      Models mem (.cache c' base) (m' :: ms) := by
  obtain ⟨hseen, hsound, hbase⟩ := h
  simp only [CoinMap.addCoin, dif_pos coin.unspent] at hplain
  simp only [addCoin, CCoinsViewCache.addCoin]
  split at hplain
  · next hscript =>
    cases hplain
    exact ⟨c, by rw [if_pos hscript]; rfl, hseen, hsound, hbase⟩
  · next hscript =>
    split at hplain
    · cases hplain
    · next hfree =>
      cases hplain
      -- an unspent entry of the cache is one of the map
      have hkeep : ¬ (!possible_overwrite && ((c.cacheCoins.lookup o).bind (·.value)).isSome) = true := by
        intro hthrow
        rw [Bool.and_eq_true] at hthrow hfree
        have hmap := hseen o
        cases hslot : c.cacheCoins.lookup o with
        | none =>
          rw [hslot] at hthrow
          cases hthrow.2
        | some e =>
          rw [hslot] at hthrow hmap
          exact hfree ⟨hthrow.1, by rw [haveCoin, ← hmap]; exact hthrow.2⟩
      have hnew : Entry.Sound ⟨some coin, true,
        (!possible_overwrite && !(((c.cacheCoins.lookup o).map (·.dirty)).getD false))
          || ((c.cacheCoins.lookup o).map (·.fresh)).getD false⟩ (base.contents o) := by
        cases possible_overwrite with
        | true => exact (hsound.slots o).overwritten coin
        | false =>
          refine (hsound.slots o).added ?_ coin
          rw [hseen]
          simpa [haveCoin] using hfree
      refine ⟨_, by rw [if_neg hscript, if_neg hkeep]; rfl, fun o' => ?_, hsound.store hnew, hbase⟩
      rw [CCoinsViewCache.see_store, hseen]
      split
      · next ho =>
        subst ho
        rw [Finmap.lookup_insert]
      · next ho => rw [Finmap.lookup_insert_of_ne _ ho]

/-- **`SpendCoin`** moves the coin of the map out. -/
theorem spendCoin_models (h : Models mem (.cache c base) (m :: ms)) (o : COutPoint) :
    ∃ c' base', spendCoin mem o (.cache c base) = (m.lookup o, .cache c' base') ∧
      Models mem (.cache c' base') (m.erase o :: ms) := by
  obtain ⟨hseen, hsound, hbase⟩ := h
  have hfetched := fetchCoin_fetched hsound hbase o
  simp only [spendCoin]
  generalize fetchCoin mem o c base = r at hfetched
  obtain ⟨slot, c1, base1⟩ := r
  obtain ⟨hslot, hvalue, hseen1, hsound1, hbase1, hsame⟩ := hfetched
  dsimp only at hslot hvalue hseen1 hsound1 hbase1 hsame ⊢
  rw [← hsame] at hseen1 hsound1
  rw [hseen] at hvalue
  cases slot with
  | none =>
    have hnone : m.lookup o = none := hvalue.symm
    refine ⟨c1, base1, by rw [hnone], fun o' => ?_, hsound1, hbase1⟩
    rw [hseen1, hsame, hseen]
    by_cases ho : o' = o
    · rw [ho, Finmap.lookup_erase, hnone]
    · rw [Finmap.lookup_erase_ne ho]
  | some e =>
    have hentry : e.value = m.lookup o := hvalue
    have he := hsound1.slots o e hslot
    cases hfresh : e.fresh with
    | true =>
      refine ⟨c1.remove mem o, base1, by simp [hfresh, hentry], fun o' => ?_, hsound1.remove o, hbase1⟩
      rw [CCoinsViewCache.see_remove]
      split
      · next ho => rw [ho, Finmap.lookup_erase, he.absent hfresh]
      · next ho => rw [hseen1, hsame, hseen, Finmap.lookup_erase_ne ho]
    | false =>
      refine ⟨c1.store mem o ⟨none, true, false⟩, base1,
        by simp [hfresh, hentry], fun o' => ?_, hsound1.store .removed, hbase1⟩
      rw [CCoinsViewCache.see_store]
      split
      · next ho => rw [ho, Finmap.lookup_erase]
      · next ho => rw [hseen1, hsame, hseen, Finmap.lookup_erase_ne ho]

end CoinsView

end CodexaCoin
