import Mathlib

/-!
# Paging by a key

A list in descending order of a key is handed out in pages of `n` items; the next page is asked for by the key of the last
item of a page, and only items with a smaller key are on it.
-/

namespace Paging

variable {α : Type} {key : α → Nat} {n : Nat} {l out : List α}

variable (key) in
abbrev Descending (l : List α) : Prop := l.Pairwise fun a b => key b ≤ key a

variable (key n) in
inductive Delivers : List α → List α → Prop
  | last {l : List α} : l.length ≤ n → Delivers l l
  | more {l out : List α} {x : α} : n < l.length → (l.take n).getLast? = some x →
      Delivers (l.filter fun a => key a < key x) out → Delivers l (l.take n ++ out)

/-! ## Pages -/

theorem le_of_getLast? (hl : Descending key l) {x : α} (hx : l.getLast? = some x) : ∀ a ∈ l, key x ≤ key a := by
  obtain ⟨init, rfl⟩ := List.getLast?_eq_some_iff.1 hx
  obtain ⟨-, -, hle⟩ := List.pairwise_append.1 hl
  intro a ha
  rcases List.mem_append.1 ha with ha | ha
  · exact hle a ha x (List.mem_singleton_self x)
  · rw [List.mem_singleton.1 ha]

theorem filter_lt_eq (hl : Descending key l) {x : α} (hx : (l.take n).getLast? = some x) :
    (l.filter fun a => key a < key x) = (l.drop n).filter fun a => key a < key x := by
  have hpage : ((l.take n).filter fun a => decide (key a < key x)) = [] := by
    refine List.filter_eq_nil_iff.2 fun a ha => ?_
    have := le_of_getLast? (hl.sublist (List.take_sublist n l)) hx a ha
    simpa using this
  conv_lhs => rw [← List.take_append_drop n l, List.filter_append, hpage, List.nil_append]

theorem Delivers.sublist (h : Delivers key n l out) (hl : Descending key l) : out.Sublist l := by
  induction h with
  | last => exact List.Sublist.refl _
  | @more l out x _ hx _ ih =>
    have hrest := ih (hl.filter _)
    rw [filter_lt_eq hl hx] at hrest
    have happend := (List.Sublist.refl (l.take n)).append (hrest.trans List.filter_sublist)
    rwa [List.take_append_drop] at happend

variable (key n l) in
def Separated : Prop := ∀ i a b, l[(i + 1) * n - 1]? = some a → l[(i + 1) * n]? = some b → key a ≠ key b

theorem separated_of_length_le (h : l.length ≤ n) : Separated key n l := by
  intro i a b _ hb
  have hlt := (List.getElem?_eq_some_iff.1 hb).1
  have hmul : 1 * n ≤ (i + 1) * n := Nat.mul_le_mul_right n (by omega)
  omega

theorem separated_iff_drop (hn : 1 ≤ n) {x : α} (hx : (l.take n).getLast? = some x) (hlt : n < l.length) :
    Separated key n l ↔ (∀ b, l[n]? = some b → key x ≠ key b) ∧ Separated key n (l.drop n) := by
  have hlast : l[n - 1]? = some x := by
    rw [List.getLast?_eq_getElem?, List.length_take_of_le (by omega), List.getElem?_take] at hx
    rwa [if_pos (by omega)] at hx
  have hnext : ∀ i, (l.drop n)[(i + 1) * n - 1]? = l[(i + 1 + 1) * n - 1]? ∧
      (l.drop n)[(i + 1) * n]? = l[(i + 1 + 1) * n]? := by
    intro i
    have hpos := Nat.le_mul_of_pos_left n (show 0 < i + 1 by omega)
    have hsucc : (i + 1 + 1) * n = (i + 1) * n + n := Nat.succ_mul (i + 1) n
    rw [List.getElem?_drop, List.getElem?_drop]
    exact ⟨congrArg (l[·]?) (by omega), congrArg (l[·]?) (by omega)⟩
  constructor
  · refine fun h => ⟨fun b hb => h 0 x b (by simpa using hlast) (by simpa using hb),
      fun i a b ha hb => h (i + 1) a b ?_ ?_⟩
    · rwa [← (hnext i).1]
    · rwa [← (hnext i).2]
  · rintro ⟨hfirst, hrest⟩ i a b ha hb
    cases i with
    | zero =>
      rw [Nat.zero_add, Nat.one_mul] at ha hb
      rw [hlast] at ha
      cases ha
      exact hfirst b hb
    | succ i => exact hrest i a b ((hnext i).1.trans ha) ((hnext i).2.trans hb)

/-- **Nothing is left out exactly when no boundary separates items with the same key.** -/
theorem Delivers.eq_iff (hn : 1 ≤ n) (h : Delivers key n l out) (hl : Descending key l) : out = l ↔
    Separated key n l := by
  induction h with
  | last hle => exact ⟨fun _ => separated_of_length_le hle, fun _ => rfl⟩
  | @more l out x hlt hx hout ih =>
    have hfilter := filter_lt_eq hl hx
    have hdrop : Descending key (l.drop n) := hl.sublist (List.drop_sublist n l)
    have hsub : out.Sublist (l.filter fun a => key a < key x) := hout.sublist (hl.filter _)
    have hrest : (l.filter fun a => key a < key x) = l.drop n ↔ ∀ b, l[n]? = some b → key x ≠ key b := by
      rw [hfilter, List.filter_eq_self]
      constructor
      · intro h b hb
        have hmem : b ∈ l.drop n := List.mem_of_getElem? (i := 0) (by rw [List.getElem?_drop]; exact hb)
        have := of_decide_eq_true (h b hmem)
        omega
      · intro h a ha
        obtain ⟨-, -, hle⟩ := List.pairwise_append.1
          (show Descending key (l.take n ++ l.drop n) by rwa [List.take_append_drop])
        have hpage := hle x (List.mem_of_getLast? hx) l[n]
          (by rw [List.drop_eq_getElem_cons hlt]; exact List.mem_cons_self)
        have hhead : key a ≤ key l[n] := by
          rw [List.drop_eq_getElem_cons hlt] at ha hdrop
          rcases List.mem_cons.1 ha with rfl | ha
          · exact Nat.le_refl _
          · exact (List.pairwise_cons.1 hdrop).1 a ha
        have hne := h l[n] (List.getElem?_eq_getElem hlt)
        exact decide_eq_true (by omega)
    rw [separated_iff_drop hn hx hlt, ← hrest]
    constructor
    · intro heq
      have hout : out = l.drop n := List.append_cancel_left (heq.trans (List.take_append_drop n l).symm)
      rw [hout] at hsub
      have hall : (l.filter fun a => key a < key x) = l.drop n :=
        (hfilter ▸ List.filter_sublist : List.Sublist _ _).antisymm hsub
      rw [hall] at ih
      exact ⟨hall, (ih hdrop).1 hout⟩
    · rintro ⟨hall, hsep⟩
      rw [hall] at ih
      rw [(ih hdrop).2 hsep, List.take_append_drop]

/-! ## Counting -/

theorem getElem_iff_lt_countP {p : α → Bool} (h : l.Pairwise fun a b => p b = true → p a = true) {j : Nat}
    (hj : j < l.length) : p l[j] = true ↔ j < l.countP p := by
  induction l generalizing j with
  | nil => exact absurd hj (Nat.not_lt_zero j)
  | cons a l ih =>
    obtain ⟨hhead, htail⟩ := List.pairwise_cons.1 h
    by_cases ha : p a = true
    · rw [List.countP_cons_of_pos ha]
      cases j with
      | zero => simpa using ha
      | succ j =>
        rw [List.getElem_cons_succ, ih htail (by simpa using hj)]
        omega
    · have hnone : ∀ b ∈ l, ¬ p b = true := fun b hb hp => ha (hhead b hb hp)
      rw [List.countP_cons_of_neg ha, List.countP_eq_zero.2 hnone]
      have hmem := List.getElem_mem hj
      rcases List.mem_cons.1 hmem with heq | hmem
      · rw [heq]
        simpa using ha
      · simpa using hnone _ hmem

variable (key l) in
def above (k : Nat) : Nat := l.countP fun a => k < key a

variable (key l) in
def same (k : Nat) : Nat := l.countP fun a => key a = k

theorem countP_le_eq (k : Nat) : (l.countP fun a => k ≤ key a) = above key l k + same key l k := by
  induction l with
  | nil => rfl
  | cons a l ih =>
    simp only [above, same, List.countP_cons, decide_eq_true_eq] at ih ⊢
    rcases Nat.lt_trichotomy k (key a) with h | h | h
    · rw [if_pos (by omega), if_pos h, if_neg (by omega)]
      omega
    · rw [if_pos (by omega), if_neg (by omega), if_pos h.symm]
      omega
    · rw [if_neg (by omega), if_neg (by omega), if_neg (by omega)]
      omega

theorem key_getElem_iff (hl : Descending key l) {j : Nat} (hj : j < l.length) (k : Nat) :
    key l[j] = k ↔ above key l k ≤ j ∧ j < above key l k + same key l k := by
  have hlt : k < key l[j] ↔ j < above key l k := by
    rw [above, ← getElem_iff_lt_countP _ hj, decide_eq_true_iff]
    exact hl.imp fun {a b} hab hb => decide_eq_true (Nat.lt_of_lt_of_le (of_decide_eq_true hb) hab)
  have hle : k ≤ key l[j] ↔ j < above key l k + same key l k := by
    rw [← countP_le_eq, ← getElem_iff_lt_countP _ hj, decide_eq_true_iff]
    exact hl.imp fun {a b} hab hb => decide_eq_true (Nat.le_trans (of_decide_eq_true hb) hab)
  omega

/-- **Boundaries by counting**: the items with one key are on one page exactly when the first and the last of them are. -/
theorem separated_iff_countP (hn : 1 ≤ n) (hl : Descending key l) : Separated key n l ↔
    ∀ a ∈ l, above key l (key a) / n = (above key l (key a) + same key l (key a) - 1) / n := by
  constructor
  · intro h a ha
    obtain ⟨j, hj, rfl⟩ := List.getElem_of_mem ha
    obtain ⟨h1, h2⟩ := (key_getElem_iff hl hj _).1 rfl
    generalize hk : key l[j] = k at h1 h2 ⊢
    have hlen : above key l k + same key l k ≤ l.length := by
      rw [← countP_le_eq]
      exact List.countP_le_length
    by_contra hne
    have hlt : above key l k / n < (above key l k + same key l k - 1) / n :=
      Nat.lt_of_le_of_ne (Nat.div_le_div_right (by omega)) hne
    obtain ⟨i, hi⟩ : ∃ i, (above key l k + same key l k - 1) / n = i + 1 := 
      Nat.exists_eq_succ_of_ne_zero (Nat.ne_zero_of_lt hlt)
    have hle : (i + 1) * n ≤ above key l k + same key l k - 1 := hi ▸ Nat.div_mul_le_self _ _
    have hgt : above key l k < (i + 1) * n := (Nat.div_lt_iff_lt_mul hn).1 (hi ▸ hlt)
    have hkey : ∀ j, above key l k ≤ j → j ≤ (i + 1) * n → ∃ hj : j < l.length, key l[j] = k := fun j h1 h2 =>
      ⟨by omega, (key_getElem_iff hl (by omega) k).2 ⟨h1, by omega⟩⟩
    obtain ⟨hj1, hk1⟩ := hkey ((i + 1) * n - 1) (by omega) (by omega)
    obtain ⟨hj2, hk2⟩ := hkey ((i + 1) * n) (by omega) (Nat.le_refl _)
    exact h i _ _ (List.getElem?_eq_getElem hj1) (List.getElem?_eq_getElem hj2) (hk1.trans hk2.symm)
  · intro h i a b ha hb hab
    obtain ⟨hj1, rfl⟩ := List.getElem?_eq_some_iff.1 ha
    obtain ⟨hj2, rfl⟩ := List.getElem?_eq_some_iff.1 hb
    have hpage := h _ (List.getElem_mem hj2)
    obtain ⟨h1, -⟩ := (key_getElem_iff hl hj1 _).1 hab
    obtain ⟨-, h2⟩ := (key_getElem_iff hl hj2 _).1 rfl
    generalize key l[(i + 1) * n] = k at hpage h1 h2
    have hpos := Nat.le_mul_of_pos_left n (show 0 < i + 1 by omega)
    have hlow : above key l k / n < i + 1 := (Nat.div_lt_iff_lt_mul hn).2 (by omega)
    have hhigh : i + 1 ≤ (above key l k + same key l k - 1) / n := (Nat.le_div_iff_mul_le hn).2 (by omega)
    omega

/-! ## Stable sorting -/

section Sorting

variable {r : α → α → Prop} [DecidableRel r] {p : α → Bool}

theorem orderedInsert_eq_cons {a : α} (h : ∀ b ∈ l, r a b) : l.orderedInsert r a = a :: l := by
  cases l with
  | nil => rfl
  | cons b l => exact if_pos (h b List.mem_cons_self)

theorem filter_orderedInsert_of_neg {a : α} (ha : ¬ p a = true) : (l.orderedInsert r a).filter p = l.filter p := by
  rw [List.orderedInsert_eq_take_drop, List.filter_append, List.filter_cons_of_neg ha, ← List.filter_append,
    List.takeWhile_append_dropWhile]

variable [IsTrans α r]

theorem filter_orderedInsert_of_pos {a : α} (ha : p a = true) (hl : l.Pairwise r) :
    (l.orderedInsert r a).filter p = (l.filter p).orderedInsert r a := by
  induction l with
  | nil => simp [ha]
  | cons b l ih =>
    obtain ⟨hb, hl⟩ := List.pairwise_cons.1 hl
    by_cases hab : r a b
    · have hall : ∀ c ∈ b :: l, r a c := List.forall_mem_cons.2 ⟨hab, fun c hc => IsTrans.trans _ _ _ hab (hb c hc)⟩
      rw [orderedInsert_eq_cons hall, List.filter_cons_of_pos ha,
        orderedInsert_eq_cons fun c hc => hall c (List.mem_of_mem_filter hc)]
    · rw [List.orderedInsert_cons, if_neg hab]
      by_cases hpb : p b = true
      · rw [List.filter_cons_of_pos hpb, List.filter_cons_of_pos hpb, ih hl, List.orderedInsert_cons, if_neg hab]
      · rw [List.filter_cons_of_neg hpb, List.filter_cons_of_neg hpb, ih hl]

variable (r p) in
/-- **A stable sort and a filter can be exchanged.** -/
theorem filter_insertionSort [Std.Total r]
    (l : List α) : (l.insertionSort r).filter p = (l.filter p).insertionSort r := by
  induction l with
  | nil => rfl
  | cons a l ih =>
    rw [List.insertionSort_cons]
    by_cases ha : p a = true
    · rw [filter_orderedInsert_of_pos ha (List.pairwise_insertionSort r l), ih, List.filter_cons_of_pos ha,
        List.insertionSort_cons]
    · rw [filter_orderedInsert_of_neg ha, ih, List.filter_cons_of_neg ha]

end Sorting

end Paging
