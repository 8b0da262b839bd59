import CodexaCoin.Primitives
import CodexaCoin.Lib.Paging

/-!
# The history of an address

`address_history` of `vps-gateway/app.py`, and a client that reads page after page, each below the smallest height of
the one before.
-/

namespace CodexaCoin.Gateway

open Paging

/-! ## The handler -/

/-- An entry of `listtransactions`, as far as it is used. -/
structure Entry where
  txid : Uint256
  height : Option Nat
deriving DecidableEq, Repr

structure HistoryPage where
  transactions : List Entry
  hasMore : Bool

/-- Whether an entry is left out because of `before_height`. -/
def tooRecent (beforeHeight : Option Nat) (t : Entry) : Bool :=
  match beforeHeight, t.height with
  | some before, some height => decide (before ≤ height)
  | _, _ => false

def collectTxs (beforeHeight : Option Nat) : (seen : List Uint256) → List Entry → List Entry
  | _, [] => []
  | seen, t :: raw =>
    if t.txid ∈ seen then collectTxs beforeHeight seen raw
    else if tooRecent beforeHeight t then collectTxs beforeHeight (t.txid :: seen) raw
    else t :: collectTxs beforeHeight (t.txid :: seen) raw

def sortKey (t : Entry) : Bool ×ₗ Int := toLex (t.height.isNone, -((t.height.getD 0 : Nat) : Int))

/-- `txs.sort`, which is stable. -/
def sortTxs (txs : List Entry) : List Entry := txs.insertionSort fun a b => sortKey a ≤ sortKey b

def addressHistory (raw : List Entry) (limit : Nat) (beforeHeight : Option Nat) : HistoryPage :=
  let txs := sortTxs (collectTxs beforeHeight [] raw)
  ⟨txs.take limit, decide (limit < txs.length)⟩

/-- `listtransactions` with a count, of all entries from the oldest to the most recent. -/
def listTransactions (entries : List Entry) (count : Nat) : List Entry := entries.drop (entries.length - count)

def smallestHeight (txs : List Entry) : Option Nat := (txs.filterMap (·.height)).min?

def fetchPages (entries : List Entry) (limit : Nat) : (fuel : Nat) → Option Nat → Option (List (List Entry))
  | 0, _ => none
  | fuel + 1, beforeHeight =>
    let page := addressHistory (listTransactions entries (max (limit * 2) 100)) limit beforeHeight
    if !page.hasMore then some [page.transactions]
    else match smallestHeight page.transactions with
      | none => some [page.transactions]
      | some height => (fetchPages entries limit fuel (some height)).map (page.transactions :: ·)

/-! ## What is on a page -/

def Entry.confirmed (t : Entry) : Bool := t.height.isSome

def Entry.blockHeight (t : Entry) : Nat := t.height.getD 0

theorem collectTxs_eq (beforeHeight : Option Nat) (seen : List Uint256) (raw : List Entry) :
    collectTxs beforeHeight seen raw = (collectTxs none seen raw).filter fun t => !tooRecent beforeHeight t := by
  induction raw generalizing seen with
  | nil => rfl
  | cons t raw ih =>
    rw [collectTxs, collectTxs]
    by_cases hseen : t.txid ∈ seen
    · rw [if_pos hseen, if_pos hseen, ih]
    · have hnone : tooRecent none t = false := rfl
      rw [if_neg hseen, if_neg hseen, hnone, if_neg Bool.false_ne_true, List.filter_cons, ih]
      cases tooRecent beforeHeight t <;> rfl

theorem confirmed_of_sortKey_le {a b : Entry} (h : sortKey a ≤ sortKey b) (hb : b.confirmed = true) :
    a.confirmed = true ∧ b.blockHeight ≤ a.blockHeight := by
  rw [sortKey, sortKey, Prod.Lex.toLex_le_toLex] at h
  rcases a with ⟨ta, _ | m⟩ <;> rcases b with ⟨tb, _ | n⟩
  · cases hb
  · rcases h with h | h
    · exact absurd (show true < false from h) (by decide)
    · cases h.1
  · cases hb
  · simpa [Entry.confirmed, Entry.blockHeight] using h

section Pages

variable (raw : List Entry)

def orderedTxs : List Entry := sortTxs (collectTxs none [] raw)

def confirmedTxs : List Entry := (orderedTxs raw).filter (·.confirmed)

def unconfirmedTxs : List Entry := (orderedTxs raw).filter (!·.confirmed)

def below : Option Nat → List Entry → List Entry
  | none, txs => txs
  | some before, txs => txs.filter fun t => t.blockHeight < before

variable {raw}

variable (raw) in
theorem pairwise_orderedTxs : (orderedTxs raw).Pairwise fun a b => sortKey a ≤ sortKey b :=
  List.pairwise_insertionSort _ _

theorem descending_confirmedTxs : Descending Entry.blockHeight (confirmedTxs raw) := by
  have h := (pairwise_orderedTxs raw).filter (·.confirmed)
  refine List.Pairwise.imp_of_mem ?_ h
  intro a b _ hb hle
  exact (confirmed_of_sortKey_le hle (List.mem_filter.1 hb).2).2

theorem orderedTxs_eq : orderedTxs raw = confirmedTxs raw ++ unconfirmedTxs raw := by
  unfold confirmedTxs unconfirmedTxs
  have h := pairwise_orderedTxs raw
  generalize orderedTxs raw = l at h
  induction l with
  | nil => rfl
  | cons t l ih =>
    obtain ⟨ht, hl⟩ := List.pairwise_cons.1 h
    cases hconf : t.confirmed with
    | true =>
      rw [List.filter_cons_of_pos hconf, List.filter_cons_of_neg (by simp [hconf]), List.cons_append, ← ih hl]
    | false =>
      have hnone : l.filter (·.confirmed) = [] := by
        refine List.filter_eq_nil_iff.2 fun b hb hbc => ?_
        exact absurd (confirmed_of_sortKey_le (ht b hb) hbc).1 (by simp [hconf])
      have hrest := ih hl
      rw [hnone, List.nil_append] at hrest
      rw [List.filter_cons_of_neg (by simp [hconf]), List.filter_cons_of_pos (by simp [hconf]), hnone, List.nil_append,
        ← hrest]

/-- **What the handler cuts its page from.** -/
theorem sortTxs_collectTxs (beforeHeight : Option Nat) :
    sortTxs (collectTxs beforeHeight [] raw) = below beforeHeight (confirmedTxs raw) ++ unconfirmedTxs raw := by
  rw [collectTxs_eq, sortTxs, ← filter_insertionSort]
  show (orderedTxs raw).filter _ = _
  rw [orderedTxs_eq, List.filter_append]
  congr 1
  · cases beforeHeight with
    | none => exact List.filter_eq_self.2 fun t _ => rfl
    | some before =>
      refine List.filter_congr fun t ht => ?_
      obtain ⟨height, hheight⟩ := Option.isSome_iff_exists.1 (List.mem_filter.1 ht).2
      simp only [tooRecent, hheight, Entry.blockHeight, Option.getD_some, ← decide_not, Nat.not_le]
  · refine List.filter_eq_self.2 fun t ht => ?_
    have hnone : t.height = none := by simpa [Entry.confirmed] using (List.mem_filter.1 ht).2
    cases beforeHeight <;> simp [tooRecent, hnone]

variable (raw) in
/-- **A page.** -/
theorem addressHistory_eq (limit : Nat) (beforeHeight : Option Nat) : addressHistory raw limit beforeHeight =
    ⟨(below beforeHeight (confirmedTxs raw) ++ unconfirmedTxs raw).take limit,
      decide (limit < (below beforeHeight (confirmedTxs raw)).length + (unconfirmedTxs raw).length)⟩ := by
  rw [addressHistory, sortTxs_collectTxs, List.length_append]

theorem confirmed_of_mem_confirmedTxs {t : Entry} (h : t ∈ confirmedTxs raw) : t.confirmed = true :=
  (List.mem_filter.1 h).2

theorem sublist_below (beforeHeight : Option Nat) (txs : List Entry) : (below beforeHeight txs).Sublist txs := by
  cases beforeHeight with
  | none => exact List.Sublist.refl _
  | some before => exact List.filter_sublist

variable {beforeHeight : Option Nat} {limit : Nat}

theorem filter_page : (((below beforeHeight (confirmedTxs raw) ++ unconfirmedTxs raw).take limit).filter (·.confirmed)) =
    (below beforeHeight (confirmedTxs raw)).take limit := by
  have hconf : ((below beforeHeight (confirmedTxs raw)).take limit).filter (·.confirmed) =
      (below beforeHeight (confirmedTxs raw)).take limit :=
    List.filter_eq_self.2 fun t ht =>
      confirmed_of_mem_confirmedTxs ((sublist_below _ _).subset (List.mem_of_mem_take ht))
  have hnone : ∀ k, ((unconfirmedTxs raw).take k).filter (·.confirmed) = [] := fun k =>
    List.filter_eq_nil_iff.2 fun t ht => by simpa using (List.mem_filter.1 (List.mem_of_mem_take ht)).2
  rw [List.take_append, List.filter_append, hconf, hnone, List.append_nil]

theorem smallestHeight_page :
    smallestHeight ((below beforeHeight (confirmedTxs raw) ++ unconfirmedTxs raw).take limit) =
      ((below beforeHeight (confirmedTxs raw)).take limit).getLast?.map Entry.blockHeight := by
  have hheights : ∀ l : List Entry, l.filterMap (·.height) = (l.filter (·.confirmed)).map Entry.blockHeight := by
    intro l
    induction l with
    | nil => rfl
    | cons t l ih =>
      cases hheight : t.height with
      | none => simp [hheight, ih, Entry.confirmed]
      | some height => simp [hheight, ih, Entry.confirmed, Entry.blockHeight]
  have hdesc : Descending Entry.blockHeight ((below beforeHeight (confirmedTxs raw)).take limit) :=
    descending_confirmedTxs.sublist ((List.take_sublist _ _).trans (sublist_below _ _))
  rw [smallestHeight, hheights, filter_page]
  cases hlast : ((below beforeHeight (confirmedTxs raw)).take limit).getLast? with
  | none =>
    rw [List.getLast?_eq_none_iff.1 hlast]
    rfl
  | some x =>
    refine List.min?_eq_some_iff.2 ⟨List.mem_map_of_mem (List.mem_of_getLast? hlast), fun b hb => ?_⟩
    obtain ⟨t, ht, rfl⟩ := List.mem_map.1 hb
    exact le_of_getLast? hdesc hlast t ht

theorem below_blockHeight {txs : List Entry} {x : Entry} (hx : x ∈ below beforeHeight txs) :
    below (some x.blockHeight) txs = (below beforeHeight txs).filter fun t => t.blockHeight < x.blockHeight := by
  cases beforeHeight with
  | none => rfl
  | some before =>
    have hlt := of_decide_eq_true (List.mem_filter.1 hx).2
    simp only [below, List.filter_filter]
    refine List.filter_congr fun t _ => ?_
    rw [← Bool.decide_and, decide_eq_decide]
    omega

end Pages

/-! ## All pages -/

section Fetching

variable {entries : List Entry} {limit fuel : Nat} {beforeHeight : Option Nat} {pages : List (List Entry)}

variable (entries limit) in
def window : List Entry := listTransactions entries (max (limit * 2) 100)

theorem fetchPages_succ : fetchPages entries limit (fuel + 1) beforeHeight =
    let confirmed := below beforeHeight (confirmedTxs (window entries limit))
    let page := (confirmed ++ unconfirmedTxs (window entries limit)).take limit
    if confirmed.length + (unconfirmedTxs (window entries limit)).length ≤ limit then some [page]
    else match (confirmed.take limit).getLast? with
      | none => some [page]
      | some x => (fetchPages entries limit fuel (some x.blockHeight)).map (page :: ·) := by
  have hpage : addressHistory (listTransactions entries (max (limit * 2) 100)) limit beforeHeight = _ :=
    addressHistory_eq (window entries limit) limit beforeHeight
  rw [fetchPages, hpage]
  dsimp only
  rw [smallestHeight_page]
  by_cases hmore : (below beforeHeight (confirmedTxs (window entries limit))).length +
      (unconfirmedTxs (window entries limit)).length ≤ limit
  · rw [if_pos hmore, if_pos (by simpa using hmore)]
  · rw [if_neg hmore, if_neg (by simpa using hmore)]
    cases ((below beforeHeight (confirmedTxs (window entries limit))).take limit).getLast? <;> rfl

/-- **What the client gets**: the confirmed transactions on all pages are those that paging by height delivers. -/
theorem fetchPages_delivers (hlimit : 1 ≤ limit) (h : fetchPages entries limit fuel beforeHeight = some pages) :
    Delivers Entry.blockHeight limit (below beforeHeight (confirmedTxs (window entries limit)))
      (pages.flatten.filter (·.confirmed)) := by
  induction fuel generalizing beforeHeight pages with
  | zero => cases h
  | succ fuel ih =>
    rw [fetchPages_succ] at h
    dsimp only at h
    have hsingle : [(below beforeHeight (confirmedTxs (window entries limit)) ++
        unconfirmedTxs (window entries limit)).take limit].flatten.filter (·.confirmed) =
        (below beforeHeight (confirmedTxs (window entries limit))).take limit := by
      rw [List.flatten_singleton, filter_page]
    split at h
    next hle =>
      cases h
      rw [hsingle, List.take_of_length_le (by omega)]
      exact .last (by omega)
    next hmore =>
      split at h
      next hnone =>
        cases h
        have hempty : below beforeHeight (confirmedTxs (window entries limit)) = [] := by
          rcases List.take_eq_nil_iff.1 (List.getLast?_eq_none_iff.1 hnone) with h | h
          · omega
          · exact h
        rw [hsingle, hempty, List.take_nil]
        exact .last (Nat.zero_le _)
      next x hx =>
        obtain ⟨rest, hrest, rfl⟩ := Option.map_eq_some_iff.1 h
        have hdeliver := ih hrest
        rw [List.flatten_cons, List.filter_append, filter_page]
        have hmem : x ∈ below beforeHeight (confirmedTxs (window entries limit)) :=
          List.mem_of_mem_take (List.mem_of_getLast? hx)
        rw [below_blockHeight hmem] at hdeliver
        by_cases hlt : limit < (below beforeHeight (confirmedTxs (window entries limit))).length
        · exact .more hlt hx hdeliver
        · -- all confirmed transactions are on the page, so nothing is left below the last of them
          have hdesc := descending_confirmedTxs.sublist (sublist_below beforeHeight (confirmedTxs (window entries limit)))
          rw [filter_lt_eq hdesc hx, List.drop_of_length_le (by omega)] at hdeliver
          have hnil := List.sublist_nil.1 (hdeliver.sublist List.Pairwise.nil)
          rw [hnil, List.append_nil, List.take_of_length_le (by omega)]
          exact .last (by omega)

theorem fetchPages_eq_some (h : (below beforeHeight (confirmedTxs (window entries limit))).length < fuel) :
    ∃ pages, fetchPages entries limit fuel beforeHeight = some pages := by
  induction fuel generalizing beforeHeight with
  | zero => exact absurd h (Nat.not_lt_zero _)
  | succ fuel ih =>
    rw [fetchPages_succ]
    dsimp only
    split
    · exact ⟨_, rfl⟩
    · split
      · exact ⟨_, rfl⟩
      next x hx =>
        have hmem : x ∈ below beforeHeight (confirmedTxs (window entries limit)) :=
          List.mem_of_mem_take (List.mem_of_getLast? hx)
        have hless : (below (some x.blockHeight) (confirmedTxs (window entries limit))).length < fuel := by
          rw [below_blockHeight hmem]
          have hx : ¬ decide (x.blockHeight < x.blockHeight) = true := by simp
          have := List.length_filter_lt_length_iff_exists.2
            (⟨x, hmem, hx⟩ : ∃ t ∈ below beforeHeight (confirmedTxs (window entries limit)),
              ¬ decide (t.blockHeight < x.blockHeight) = true)
          omega
        obtain ⟨rest, hrest⟩ := ih hless
        exact ⟨_, by rw [hrest]; rfl⟩

theorem fetchPages_mono (h : fetchPages entries limit fuel beforeHeight = some pages) :
    fetchPages entries limit (fuel + 1) beforeHeight = some pages := by
  induction fuel generalizing beforeHeight pages with
  | zero => cases h
  | succ fuel ih =>
    rw [fetchPages_succ] at h ⊢
    dsimp only at h ⊢
    split
    next hle => rwa [if_pos hle] at h
    next hmore =>
      rw [if_neg hmore] at h
      split
      next hnone => rwa [hnone] at h
      next x hx =>
        rw [hx] at h
        obtain ⟨rest, hrest, rfl⟩ := Option.map_eq_some_iff.1 h
        rw [ih hrest]
        rfl

theorem sublist_collectTxs (seen : List Uint256) (raw : List Entry) : (collectTxs none seen raw).Sublist raw := by
  induction raw generalizing seen with
  | nil => exact List.Sublist.refl _
  | cons t raw ih =>
    rw [collectTxs]
    split
    · exact (ih seen).cons t
    · exact (ih _).cons_cons t

theorem nodup_collectTxs (seen : List Uint256) (raw : List Entry) :
    ((collectTxs none seen raw).map (·.txid)).Nodup ∧ ∀ t ∈ collectTxs none seen raw, t.txid ∉ seen := by
  induction raw generalizing seen with
  | nil => exact ⟨List.nodup_nil, by simp [collectTxs]⟩
  | cons t raw ih =>
    rw [collectTxs]
    split
    · exact ih seen
    next hseen =>
      obtain ⟨hnodup, hout⟩ := ih (t.txid :: seen)
      rw [if_neg (show ¬ tooRecent none t = true from Bool.false_ne_true)]
      refine ⟨List.nodup_cons.2 ⟨fun hmem => ?_, hnodup⟩, List.forall_mem_cons.2 ⟨hseen, fun u hu hmem => ?_⟩⟩
      · obtain ⟨u, hu, heq⟩ := List.mem_map.1 hmem
        exact hout u hu (heq ▸ List.mem_cons_self)
      · exact hout u hu (List.mem_cons_of_mem _ hmem)

theorem exists_mem_collectTxs {seen : List Uint256} {raw : List Entry} {e : Entry} (he : e ∈ raw)
    (hseen : e.txid ∉ seen) :
    ∃ t ∈ collectTxs none seen raw, t.txid = e.txid := by
  induction raw generalizing seen with
  | nil => cases he
  | cons t raw ih =>
    rw [collectTxs]
    by_cases heq : t.txid = e.txid
    · rw [if_neg (heq ▸ hseen), if_neg (show ¬ tooRecent none t = true from Bool.false_ne_true)]
      exact ⟨t, List.mem_cons_self, heq⟩
    · have he : e ∈ raw := (List.mem_cons.1 he).resolve_left fun h => heq (congrArg Entry.txid h).symm
      split
      · exact ih he hseen
      · rw [if_neg (show ¬ tooRecent none t = true from Bool.false_ne_true)]
        have hseen' : e.txid ∉ t.txid :: seen := fun hmem => (List.mem_cons.1 hmem).elim (fun h => heq h.symm) hseen
        obtain ⟨u, hu, heq'⟩ := ih he hseen'
        exact ⟨u, List.mem_cons_of_mem _ hu, heq'⟩

end Fetching

/-! ## Completeness -/

/-- The entries of a wallet for an address, from the oldest to the most recent. -/
structure WalletHistory where
  entries : List Entry
  height_eq : ∀ e ∈ entries, ∀ e' ∈ entries, e.txid = e'.txid → e.height = e'.height

namespace WalletHistory

variable (history : WalletHistory) (limit : ℕ+)

def transactions : List Entry := (history.entries.filter (·.confirmed)).dedup

/-- Every confirmed transaction is on exactly one page, and there only once. -/
def ExactlyOnce (pages : List (List Entry)) : Prop :=
  ∀ e ∈ history.entries, e.confirmed = true → (pages.flatten.map (·.txid)).count e.txid = 1

/-- Every confirmed transaction has one of the most recent entries. -/
def InWindow : Prop :=
  ∀ e ∈ history.entries, e.confirmed = true → e ∈ listTransactions history.entries (max (limit * 2) 100)

/-- The transactions of a block, counted from the most recent one, fall into one page. -/
def BlocksUndivided : Prop :=
  ∀ e ∈ history.entries, e.confirmed = true →
    above Entry.blockHeight history.transactions e.blockHeight / limit =
      (above Entry.blockHeight history.transactions e.blockHeight +
        same Entry.blockHeight history.transactions e.blockHeight - 1) / limit

variable {history limit}

theorem eq_of_txid_eq {e e' : Entry} (he : e ∈ history.entries) (he' : e' ∈ history.entries)
    (h : e.txid = e'.txid) : e = e' := by
  have hheight := history.height_eq e he e' he' h
  cases e
  cases e'
  simp_all

theorem mem_window {e : Entry} (h : e ∈ window history.entries limit) : e ∈ history.entries := List.mem_of_mem_drop h

theorem mem_orderedTxs {e : Entry} : e ∈ orderedTxs (window history.entries limit) ↔
    e ∈ window history.entries limit := by
  rw [orderedTxs, sortTxs, List.mem_insertionSort]
  refine ⟨fun h => (sublist_collectTxs _ _).subset h, fun h => ?_⟩
  obtain ⟨t, ht, heq⟩ := exists_mem_collectTxs h (List.not_mem_nil (a := e.txid))
  have hmem := mem_window ((sublist_collectTxs _ _).subset ht)
  rwa [← eq_of_txid_eq hmem (mem_window h) heq]

theorem nodup_orderedTxs (raw : List Entry) : (orderedTxs raw).Nodup := by
  rw [orderedTxs, sortTxs, (List.perm_insertionSort _ _).nodup_iff]
  exact (nodup_collectTxs [] raw).1.of_map _

theorem mem_confirmedTxs {e : Entry} :
    e ∈ confirmedTxs (window history.entries limit) ↔ e ∈ window history.entries limit ∧ e.confirmed = true := by
  rw [confirmedTxs, List.mem_filter, mem_orderedTxs]

theorem mem_transactions {e : Entry} : e ∈ history.transactions ↔ e ∈ history.entries ∧ e.confirmed = true := by
  rw [transactions, List.mem_dedup, List.mem_filter]

theorem nodup_confirmedTxs (raw : List Entry) : (confirmedTxs raw).Nodup := (nodup_orderedTxs raw).filter _

theorem perm_transactions (h : history.InWindow limit) :
    (confirmedTxs (window history.entries limit)).Perm history.transactions := by
  have hnodup : history.transactions.Nodup := List.nodup_dedup _
  refine (List.perm_ext_iff_of_nodup (nodup_confirmedTxs _) hnodup).2 fun e => ?_
  rw [mem_confirmedTxs, mem_transactions]
  exact ⟨fun ⟨hmem, hc⟩ => ⟨mem_window hmem, hc⟩, fun ⟨hmem, hc⟩ => ⟨h e hmem hc, hc⟩⟩

variable {pages : List (List Entry)} {fuel : Nat} {beforeHeight : Option Nat}

theorem mem_of_mem_page {t : Entry} (h : t ∈ (below beforeHeight (confirmedTxs (window history.entries limit)) ++
    unconfirmedTxs (window history.entries limit)).take limit) : t ∈ history.entries := by
  have hmem : t ∈ orderedTxs (window history.entries limit) := by
    rcases List.mem_append.1 (List.mem_of_mem_take h) with h | h
    · exact List.mem_of_mem_filter ((sublist_below _ _).subset h)
    · exact List.mem_of_mem_filter h
  exact mem_window (mem_orderedTxs.1 hmem)

theorem mem_of_mem_pages (h : fetchPages history.entries limit fuel beforeHeight = some pages) :
    ∀ t ∈ pages.flatten, t ∈ history.entries := by
  induction fuel generalizing beforeHeight pages with
  | zero => cases h
  | succ fuel ih =>
    rw [fetchPages_succ] at h
    dsimp only at h
    split at h
    · cases h
      simpa using fun t => mem_of_mem_page
    · split at h
      · cases h
        simpa using fun t => mem_of_mem_page
      · obtain ⟨rest, hrest, rfl⟩ := Option.map_eq_some_iff.1 h
        intro t ht
        rcases List.mem_append.1 ht with ht | ht
        · exact mem_of_mem_page ht
        · exact ih hrest t ht

theorem count_txid (h : fetchPages history.entries limit fuel beforeHeight = some pages) {e : Entry}
    (he : e ∈ history.entries) (hc : e.confirmed = true) :
    (pages.flatten.map (·.txid)).count e.txid = (pages.flatten.filter (·.confirmed)).count e := by
  rw [List.count_filter hc, List.count, List.countP_map, List.count]
  refine List.countP_congr fun t ht => ?_
  have hmem := mem_of_mem_pages h t ht
  simp only [Function.comp_apply, beq_iff_eq]
  exact ⟨eq_of_txid_eq hmem he, congrArg Entry.txid⟩

theorem exactlyOnce_iff (h : fetchPages history.entries limit fuel none = some pages) : history.ExactlyOnce pages ↔
    ∀ e ∈ history.entries, e.confirmed = true → e ∈ pages.flatten.filter (·.confirmed) := by
  have hsub : (pages.flatten.filter (·.confirmed)).Sublist (confirmedTxs (window history.entries limit)) :=
    (fetchPages_delivers limit.pos h).sublist descending_confirmedTxs
  have hnodup := (nodup_confirmedTxs _).sublist hsub
  refine forall₃_congr fun e he hc => ?_
  rw [count_txid h he hc]
  exact ⟨fun h => List.count_pos_iff.1 (by omega), fun hmem => List.count_eq_one_of_mem hnodup hmem⟩

/-- **When paging is complete.** -/
theorem exactlyOnce_iff_inWindow (h : fetchPages history.entries limit fuel none = some pages) :
    history.ExactlyOnce pages ↔ history.InWindow limit ∧ history.BlocksUndivided limit := by
  have hdeliver := fetchPages_delivers limit.pos h
  have hsub := hdeliver.sublist descending_confirmedTxs
  have hall : history.InWindow limit → (pages.flatten.filter (·.confirmed) = confirmedTxs (window history.entries limit) ↔
      history.BlocksUndivided limit) := by
    intro hwindow
    have hperm := perm_transactions hwindow
    refine (hdeliver.eq_iff limit.pos descending_confirmedTxs).trans ?_
    refine (separated_iff_countP limit.pos descending_confirmedTxs).trans ?_
    have habove : ∀ k, above Entry.blockHeight (confirmedTxs (window history.entries limit)) k =
        above Entry.blockHeight history.transactions k := fun k => hperm.countP_eq _
    have hsame : ∀ k, same Entry.blockHeight (confirmedTxs (window history.entries limit)) k =
        same Entry.blockHeight history.transactions k := fun k => hperm.countP_eq _
    simp only [habove, hsame, hperm.mem_iff, mem_transactions, and_imp, BlocksUndivided]
  rw [exactlyOnce_iff h]
  constructor
  · intro honce
    have hwindow : history.InWindow limit := fun e he hc => (mem_confirmedTxs.1 (hsub.subset (honce e he hc))).1
    refine ⟨hwindow, (hall hwindow).1 (hsub.eq_of_length_le ?_)⟩
    refine (List.subperm_of_subset (nodup_confirmedTxs _) fun e he => ?_).length_le
    obtain ⟨hmem, hc⟩ := mem_confirmedTxs.1 he
    exact honce e (mem_window hmem) hc
  · rintro ⟨hwindow, hblocks⟩ e he hc
    have heq : pages.flatten.filter (·.confirmed) = _ := (hall hwindow).2 hblocks
    rw [heq]
    exact mem_confirmedTxs.2 ⟨hwindow e he hc, hc⟩

theorem length_confirmedTxs_le (history : WalletHistory) (limit : ℕ+) :
    (confirmedTxs (window history.entries limit)).length ≤ history.entries.length := by
  have hsort : (orderedTxs (window history.entries limit)).length ≤ (window history.entries limit).length := by
    rw [orderedTxs, sortTxs, List.length_insertionSort]
    exact (sublist_collectTxs _ _).length_le
  exact (List.length_filter_le _ _).trans (hsort.trans (List.drop_sublist _ _).length_le)

end WalletHistory

theorem pages_exactlyOnce_iff (history : WalletHistory) (limit : ℕ+) :
    ∃ pages, (∀ fuel, history.entries.length < fuel → fetchPages history.entries limit fuel none = some pages) ∧
      (history.ExactlyOnce pages ↔ history.InWindow limit ∧ history.BlocksUndivided limit) := by
  have hlen := history.length_confirmedTxs_le limit
  have hfirst : (below none (confirmedTxs (window history.entries limit))).length < history.entries.length + 1 :=
    Nat.lt_succ_of_le hlen
  obtain ⟨pages, hpages⟩ := fetchPages_eq_some hfirst
  refine ⟨pages, fun fuel hfuel => ?_, WalletHistory.exactlyOnce_iff_inWindow hpages⟩
  induction fuel, hfuel using Nat.le_induction with
  | base => exact hpages
  | succ fuel _ ih => exact fetchPages_mono ih

def sameBlock : WalletHistory where
  entries := [⟨1, some 5⟩, ⟨2, some 5⟩]
  height_eq := by decide

/-- **The second transaction of a block is lost** when a page ends between them. -/
theorem sameBlock_not_exactlyOnce : ∃ pages, fetchPages sameBlock.entries 1 3 none = some pages ∧
    pages = [[⟨1, some 5⟩], []] ∧ ¬ sameBlock.ExactlyOnce pages := by
  refine ⟨_, by decide +kernel, rfl, fun h => ?_⟩
  exact absurd (h ⟨2, some 5⟩ (by decide) rfl) (by decide)

end CodexaCoin.Gateway
