import CodexaCoin.Lib.FinmapSum

/-!
# Ledgers

A ledger is a finite map; an `Entry` spends some of its keys and creates others.
-/

namespace Ledger

open FinmapSum

variable {K V : Type*}

abbrev State (K V : Type*) := Finmap fun _ : K => V

/-- A list of keys to spend and a list of items to create. -/
structure Entry (K V : Type*) where
  spends : List K
  creates : List (K × V)

def total {M : Type*} [AddCommMonoid M] (w : V → M) (m : State K V) : M :=
  wsum (fun _ v => w v) m

@[simp] theorem total_empty {M : Type*} [AddCommMonoid M] (w : V → M) : total w (∅ : State K V) = 0 := rfl

variable [DecidableEq K]

def spend (m : State K V) (ks : List K) : State K V :=
  ks.foldl (fun m k => m.erase k) m

def create (m : State K V) (kvs : List (K × V)) : State K V :=
  kvs.foldl (fun m kv => m.insert kv.1 kv.2) m

def Entry.apply (e : Entry K V) (m : State K V) : State K V :=
  create (spend m e.spends) e.creates

@[simp] theorem spend_nil (m : State K V) : spend m [] = m := rfl

@[simp] theorem spend_cons (m : State K V) (k : K) (ks : List K) : spend m (k :: ks) = spend (m.erase k) ks := rfl

@[simp] theorem create_nil (m : State K V) : create m [] = m := rfl

@[simp] theorem create_cons (m : State K V) (kv : K × V) (kvs : List (K × V)) :
    create m (kv :: kvs) = create (m.insert kv.1 kv.2) kvs := rfl

/-! ## Lookups -/

section Lookup

variable {m : State K V} {k : K} {v : V} {kvs : List (K × V)}

theorem lookup_spend (m : State K V) (ks : List K) (k : K) :
    (spend m ks).lookup k = if k ∈ ks then none else m.lookup k := by
  induction ks generalizing m with
  | nil => simp
  | cons k' ks ih =>
    rw [spend_cons, ih]
    by_cases hk : k = k'
    · subst hk; simp
    · simp [hk, Finmap.lookup_erase_ne hk]

theorem lookup_create_of_notMem (h : k ∉ kvs.map Prod.fst) :
    (create m kvs).lookup k = m.lookup k := by
  induction kvs generalizing m with
  | nil => rfl
  | cons kv kvs ih =>
    rw [List.map_cons, List.mem_cons, not_or] at h
    rw [create_cons, ih h.2, Finmap.lookup_insert_of_ne _ h.1]

theorem lookup_create_of_mem (hnodup : (kvs.map Prod.fst).Nodup) (h : (k, v) ∈ kvs) :
    (create m kvs).lookup k = some v := by
  induction kvs generalizing m with
  | nil => cases h
  | cons kv kvs ih =>
    rw [List.map_cons, List.nodup_cons] at hnodup
    rw [create_cons]
    rcases List.mem_cons.1 h with rfl | h
    · rw [lookup_create_of_notMem hnodup.1, Finmap.lookup_insert]
    · exact ih hnodup.2 h

theorem lookup_create (h : (create m kvs).lookup k = some v) :
    (k, v) ∈ kvs ∨ m.lookup k = some v := by
  induction kvs generalizing m with
  | nil => exact .inr h
  | cons kv kvs ih =>
    rcases ih h with hmem | hold
    · exact .inl (List.mem_cons_of_mem kv hmem)
    · by_cases hk : k = kv.1
      · subst hk
        rw [Finmap.lookup_insert] at hold
        cases hold
        exact .inl List.mem_cons_self
      · rw [Finmap.lookup_insert_of_ne _ hk] at hold
        exact .inr hold

end Lookup

/-! ## Totals -/

section Totals

variable {M : Type*} [AddCommMonoid M] (w : V → M) {m : State K V} {ks : List K} {vs : List V}

theorem forall₂_lookup_erase {k : K} (hk : k ∉ ks)
    (h : List.Forall₂ (fun k v => m.lookup k = some v) ks vs) :
    List.Forall₂ (fun k' v => (m.erase k).lookup k' = some v) ks vs := by
  induction h with
  | nil => exact .nil
  | cons h _ ih =>
    rw [List.mem_cons, not_or] at hk
    exact .cons (by rwa [Finmap.lookup_erase_ne (Ne.symm hk.1)]) (ih hk.2)

theorem total_spend (hnodup : ks.Nodup)
    (h : List.Forall₂ (fun k v => m.lookup k = some v) ks vs) :
    total w m = (vs.map w).sum + total w (spend m ks) := by
  induction ks generalizing m vs with
  | nil => cases h; simp
  | cons k ks ih =>
    cases h with
    | @cons _ v _ vs hkv hrest =>
      rw [List.nodup_cons] at hnodup
      have hstep : total w m = w v + total w (m.erase k) := wsum_eq_add_erase (fun _ v => w v) hkv
      rw [hstep, ih hnodup.2 (forall₂_lookup_erase hnodup.1 hrest), spend_cons, List.map_cons, List.sum_cons, add_assoc]

theorem total_create {kvs : List (K × V)} (hnodup : (kvs.map Prod.fst).Nodup)
    (hfresh : ∀ k ∈ kvs.map Prod.fst, k ∉ m) : total w (create m kvs) = total w m + (kvs.map fun kv => w kv.2).sum := by
  induction kvs generalizing m with
  | nil => simp
  | cons kv kvs ih =>
    rw [List.map_cons, List.nodup_cons] at hnodup
    have hkv : kv.1 ∉ m := hfresh _ (by simp)
    have hstep : total w (m.insert kv.1 kv.2) = w kv.2 + total w m := wsum_insert_of_notMem (fun _ v => w v) hkv
    have hfresh' : ∀ k ∈ kvs.map Prod.fst, k ∉ m.insert kv.1 kv.2 := by
      intro k hk hmem
      rcases Finmap.mem_insert.1 hmem with rfl | hmem
      · exact hnodup.1 hk
      · exact hfresh k (by simp [hk]) hmem
    rw [create_cons, ih hnodup.2 hfresh', hstep, List.map_cons, List.sum_cons, add_comm (w kv.2), add_assoc]

end Totals

/-! ## Valid entries -/

section Valid

variable {m : State K V} {e : Entry K V} {vs : List V} {kvs : List (K × V)} {ks : List K}

/-- An entry that can be applied: it spends the items `vs` of the state, each once, and creates fresh keys. -/
structure Valid (m : State K V) (e : Entry K V) (vs : List V) : Prop where
  spends_nodup : e.spends.Nodup
  spends_lookup : List.Forall₂ (fun k v => m.lookup k = some v) e.spends vs
  creates_nodup : (e.creates.map Prod.fst).Nodup
  creates_fresh : ∀ k ∈ e.creates.map Prod.fst, k ∉ spend m e.spends

/-- **The change of a total.** -/
theorem total_apply {M : Type*} [AddCommGroup M] (w : V → M) (h : Valid m e vs) :
    total w (e.apply m) = total w m - (vs.map w).sum + (e.creates.map fun kv => w kv.2).sum := by
  rw [Entry.apply, total_create w h.creates_nodup h.creates_fresh, total_spend w h.spends_nodup h.spends_lookup]
  simp

theorem Valid.lookup_apply (h : Valid m e vs) {k : K} {v : V} (hk : k ∉ e.spends) (hv : m.lookup k = some v) :
    (e.apply m).lookup k = some v := by
  have hspent : (spend m e.spends).lookup k = some v := by rw [lookup_spend, if_neg hk, hv]
  have hnew : k ∉ e.creates.map Prod.fst := fun hmem =>
    h.creates_fresh k hmem (Finmap.mem_iff.2 ⟨v, hspent⟩)
  rw [Entry.apply, lookup_create_of_notMem hnew, hspent]

theorem forall_apply {P : K → V → Prop} (hm : ∀ k v, m.lookup k = some v → P k v)
    (he : ∀ kv ∈ e.creates, P kv.1 kv.2) : ∀ k v, (e.apply m).lookup k = some v → P k v := by
  intro k v hv
  rcases lookup_create hv with hnew | hold
  · exact he _ hnew
  · rw [lookup_spend] at hold
    split at hold
    · cases hold
    · exact hm k v hold

theorem spend_create (hfresh : ∀ k ∈ kvs.map Prod.fst, k ∉ m)
    (hks : ∀ k, k ∈ ks ↔ k ∈ kvs.map Prod.fst) : spend (create m kvs) ks = m := by
  apply Finmap.ext_lookup
  intro k
  rw [lookup_spend]
  by_cases hk : k ∈ kvs.map Prod.fst
  · rw [if_pos ((hks k).2 hk), Finmap.lookup_eq_none.2 (hfresh k hk)]
  · rw [if_neg fun h => hk ((hks k).1 h), lookup_create_of_notMem hk]

theorem create_spend (hnodup : (kvs.map Prod.fst).Nodup)
    (hks : ∀ k, k ∈ kvs.map Prod.fst ↔ k ∈ ks) (hlookup : ∀ kv ∈ kvs, m.lookup kv.1 = some kv.2) :
    create (spend m ks) kvs = m := by
  apply Finmap.ext_lookup
  intro k
  by_cases hk : k ∈ kvs.map Prod.fst
  · obtain ⟨⟨k', v⟩, hkv, rfl⟩ := List.mem_map.1 hk
    rw [lookup_create_of_mem hnodup hkv, hlookup _ hkv]
  · rw [lookup_create_of_notMem hk, lookup_spend, if_neg fun h => hk ((hks k).2 h)]

end Valid

/-! ## Runs -/

section Runs

/-- The state after a run of entries. -/
def replay (m : State K V) (es : List (Entry K V)) : State K V :=
  es.foldl (fun m e => e.apply m) m

/-- The sum of `f` over a list of things with entries, each in the state that the ones before it leave. -/
def sumReplay {T : Type*} {M : Type*} [AddCommMonoid M] (entry : T → Entry K V) (f : State K V → T → M) :
    State K V → List T → M
  | _, [] => 0
  | m, t :: ts => f m t + sumReplay entry f ((entry t).apply m) ts

end Runs

end Ledger
