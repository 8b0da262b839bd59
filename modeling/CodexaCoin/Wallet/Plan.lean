import CodexaCoin.Lib.Double
import CodexaCoin.Lib.Wrap

/-!
# The choice of inputs

The loop of the send handlers of `web-wallet/app.js` and `cac_wallet/lib/screens/send_screen.dart` that takes unspent
outputs until they cover the amounts and the fee estimated for their number. The web wallet computes in `BigInt`s and
writes values as doubles, the mobile wallet computes in 64-bit integers.
-/

namespace CodexaCoin.Wallet

/-! ## The loop -/

/-- The integers of a wallet: what the result of an operation becomes, and what the value of an output becomes. -/
structure Arithmetic where
  norm : Int → Int
  number : Int → Int
  norm_zero : norm 0 = 0
  norm_norm_add : ∀ a b, norm (norm a + b) = norm (a + b)
  norm_sub_norm : ∀ a b, norm (a - norm b) = norm (a - b)
  number_zero : number 0 = 0

/-- A `BigInt`, and `Number` of it. -/
def Web.arithmetic : Arithmetic where
  norm := id
  number := Double.roundInt 53
  norm_zero := rfl
  norm_norm_add _ _ := rfl
  norm_sub_norm _ _ := rfl
  number_zero := by decide

/-- An `int` of Dart. -/
def Mobile.arithmetic : Arithmetic where
  norm := wrap64
  number := id
  norm_zero := by decide
  norm_norm_add a b := by unfold wrap64; omega
  norm_sub_norm a b := by unfold wrap64; omega
  number_zero := rfl

section Loop

variable (A : Arithmetic)

/-- `feeSatoshis` for an estimated size. -/
def feeFor (feeRate : Int) (vsize : Nat) : Int := (A.norm (A.norm (feeRate * vsize) + 999)).tdiv 1000

/-- The loop that chooses unspent outputs, and their total. -/
def chooseUtxos {α : Type} (value : α → Int) (need : Nat → Int) :
    (chosen : List α) → (totalIn : Int) → List α → List α × Int
  | chosen, totalIn, [] => (chosen, totalIn)
  | chosen, totalIn, u :: rest =>
    let chosen := chosen ++ [u]
    let totalIn := A.norm (totalIn + value u)
    if need chosen.length ≤ totalIn then (chosen, totalIn) else chooseUtxos value need chosen totalIn rest

/-- `amountTotalSatoshis + feeSatoshis` for a number of inputs. -/
def needFor (estimate : Nat → Nat) (feeRate amountTotal : Int) (count : Nat) : Int :=
  A.norm (amountTotal + feeFor A feeRate (estimate count))

/-- The loop, and the check after it. -/
def planSend {α : Type} (value : α → Int) (insufficient : Int → Int → String) (estimate : Nat → Nat)
    (feeRate amountTotal : Int) (utxos : List α) : Except String (List α × Int) :=
  let plan := chooseUtxos A value (needFor A estimate feeRate amountTotal) [] 0 utxos
  let need := needFor A estimate feeRate amountTotal plan.1.length
  if plan.2 < need then .error (insufficient plan.2 need) else .ok plan

/-- `totalIn - amountTotalSatoshis - feeSatoshis`. -/
def changeOf (totalIn amountTotal feeSatoshis : Int) : Int := A.norm (A.norm (totalIn - amountTotal) - feeSatoshis)

end Loop

/-! ## The exact plan -/

/-- What a plan is made from: the values that can be spent, the amount to pay, and a rate for 1000 bytes of a size that
depends on the number of inputs. -/
structure ExactPlan where
  values : List Int
  amount : Int
  feeRate : Int
  size : Nat → Nat

namespace ExactPlan

variable (p : ExactPlan)

/-- What the first `k` values are together. -/
def total (k : Nat) : Int := (p.values.take k).sum

/-- The fee for `k` inputs, rounded up. -/
def fee (k : Nat) : Int := (p.feeRate * p.size k + 999) / 1000

/-- What `k` inputs leave. -/
def change (k : Nat) : Int := p.total k - p.amount - p.fee k

/-- The first `k` values cover the amount and the fee for them. -/
def Covers (k : Nat) : Prop := p.amount + p.fee k ≤ p.total k

instance (k : Nat) : Decidable (p.Covers k) := inferInstanceAs (Decidable (_ ≤ _))

/-- `k` is the least such number. -/
structure Shortest (k : Nat) : Prop where
  le_length : k ≤ p.values.length
  covers : p.Covers k
  least : ∀ j < k, ¬p.Covers j

/-- Nothing is negative, and something has to be paid. -/
structure Sane : Prop where
  values_nonneg : ∀ v ∈ p.values, 0 ≤ v
  amount_nonneg : 0 ≤ p.amount
  rate_nonneg : 0 ≤ p.feeRate
  pays : 0 < p.amount + p.fee 0

/-- Up to the first values that cover everything, the total of the values, the amount with the fee, and what the fee is
computed from are below 2^63. -/
def Fits : Prop :=
  ∀ k ≤ p.values.length, (∀ j < k, ¬p.Covers j) →
    p.total k < 2 ^ 63 ∧ p.amount + p.fee k < 2 ^ 63 ∧ p.feeRate * p.size k + 999 < 2 ^ 63

instance : Decidable p.Fits := inferInstanceAs (Decidable (∀ k ≤ p.values.length, _))

variable {p} {j k : Nat}

theorem Shortest.unique (hj : p.Shortest j) (hk : p.Shortest k) : j = k := by
  rcases Nat.lt_trichotomy j k with h | h | h
  · exact absurd hj.covers (hk.least j h)
  · exact h
  · exact absurd hk.covers (hj.least k h)

theorem exists_shortest_iff : (∃ k, p.Shortest k) ↔ ∃ k ≤ p.values.length, p.Covers k := by
  classical
  refine ⟨fun ⟨k, hk⟩ => ⟨k, hk.le_length, hk.covers⟩, fun h => ?_⟩
  obtain ⟨hle, hcovers⟩ := Nat.find_spec h
  exact ⟨Nat.find h, hle, hcovers, fun j hj hc => Nat.find_min h hj ⟨by omega, hc⟩⟩

theorem Shortest.change_nonneg (hk : p.Shortest k) : 0 ≤ p.change k := by
  have hcovers : p.amount + p.fee k ≤ p.total k := hk.covers
  unfold change
  omega

namespace Sane

variable (h : p.Sane)
include h

theorem rate_mul_nonneg (k : Nat) : 0 ≤ p.feeRate * p.size k := Int.mul_nonneg h.rate_nonneg (Int.natCast_nonneg _)

theorem fee_nonneg (k : Nat) : 0 ≤ p.fee k := by
  have := h.rate_mul_nonneg k
  unfold fee
  omega

theorem total_nonneg (k : Nat) : 0 ≤ p.total k :=
  List.sum_nonneg fun v hv => h.values_nonneg v (List.mem_of_mem_take hv)

theorem not_covers_zero : ¬p.Covers 0 := Int.not_le.2 h.pays

theorem total_mono (hjk : j ≤ k) : p.total j ≤ p.total k := by
  have hsplit : p.values.take k = p.values.take j ++ (p.values.take k).drop j := by
    have htake : (p.values.take k).take j = p.values.take j := by rw [List.take_take, Nat.min_eq_left hjk]
    rw [← htake, List.take_append_drop]
  have hrest : 0 ≤ ((p.values.take k).drop j).sum :=
    List.sum_nonneg fun v hv => h.values_nonneg v (List.mem_of_mem_take (List.mem_of_mem_drop hv))
  unfold total
  rw [hsplit, List.sum_append]
  omega

/-- **All sums fit if those for all values do**, where the size grows with the number of inputs. -/
theorem fits_of_lt (hsize : Monotone p.size) (htotal : p.values.sum < 2 ^ 63)
    (hneed : p.amount + p.fee p.values.length < 2 ^ 63)
    (hfee : p.feeRate * p.size p.values.length + 999 < 2 ^ 63) : p.Fits := by
  intro k hk _
  have hmul : p.feeRate * p.size k ≤ p.feeRate * p.size p.values.length :=
    Int.mul_le_mul_of_nonneg_left (by exact_mod_cast hsize hk) h.rate_nonneg
  have hsum : p.total k ≤ p.values.sum := by
    have := h.total_mono hk
    rwa [total, total, List.take_length] at this
  refine ⟨by omega, ?_, by omega⟩
  unfold fee at hneed ⊢
  omega

end Sane

end ExactPlan

/-! ## Exact integers -/

/-- On what the loop of a plan computes, the integers of a wallet are exact. -/
structure Computes (A : Arithmetic) (p : ExactPlan) : Prop where
  total : ∀ k ≤ p.values.length, (∀ j < k, ¬p.Covers j) → A.norm (p.total k) = p.total k
  fee : ∀ k ≤ p.values.length, (∀ j < k, ¬p.Covers j) → feeFor A p.feeRate (p.size k) = p.fee k
  need : ∀ k ≤ p.values.length, (∀ j < k, ¬p.Covers j) → A.norm (p.amount + p.fee k) = p.amount + p.fee k
  change : ∀ k, p.Shortest k → A.norm (p.change k) = p.change k

section Computes

variable {A : Arithmetic} {p : ExactPlan} {k : Nat}

theorem Web.computes (h : p.Sane) : Computes Web.arithmetic p where
  total _ _ _ := rfl
  need _ _ _ := rfl
  change _ _ := rfl
  fee k _ _ := by
    have := h.rate_mul_nonneg k
    show (p.feeRate * p.size k + 999).tdiv 1000 = _
    exact Int.tdiv_eq_ediv_of_nonneg (by omega)

/-- **Integers of 64 bits are exact** as long as no sum reaches 2^63. -/
theorem Mobile.computes (h : p.Sane) (hfits : p.Fits) : Computes Mobile.arithmetic p where
  total k hk hleast := by
    have := h.total_nonneg k
    exact wrap64_eq (by omega) (hfits k hk hleast).1
  need k hk hleast := by
    have h1 := h.fee_nonneg k
    have h2 := h.amount_nonneg
    exact wrap64_eq (by omega) (hfits k hk hleast).2.1
  change k hk := by
    have htotal := (hfits k hk.le_length hk.least).1
    have h1 := hk.change_nonneg
    have h2 := h.fee_nonneg k
    have h3 := h.amount_nonneg
    refine wrap64_eq (by omega) ?_
    unfold ExactPlan.change
    omega
  fee k hk hleast := by
    have hpos := h.rate_mul_nonneg k
    have hlt := (hfits k hk hleast).2.2
    rw [feeFor, Mobile.arithmetic.norm_norm_add]
    show (wrap64 (p.feeRate * p.size k + 999)).tdiv 1000 = _
    rw [wrap64_eq (by omega) hlt, Int.tdiv_eq_ediv_of_nonneg (by omega), ExactPlan.fee]

theorem Computes.needFor_eq (h : Computes A p) (hk : k ≤ p.values.length) (hleast : ∀ j < k, ¬p.Covers j) :
    needFor A p.size p.feeRate (A.norm p.amount) k = p.amount + p.fee k := by
  rw [needFor, A.norm_norm_add, h.fee k hk hleast, h.need k hk hleast]

theorem changeOf_eq (totalIn amount feeSatoshis : Int) :
    changeOf A (A.norm totalIn) (A.norm amount) feeSatoshis = A.norm (totalIn - amount - feeSatoshis) := by
  have hsub : ∀ a b, A.norm (A.norm a - b) = A.norm (a - b) := fun a b => by
    rw [Int.sub_eq_add_neg, A.norm_norm_add, ← Int.sub_eq_add_neg]
  rw [changeOf, A.norm_sub_norm, hsub totalIn, hsub]

theorem Computes.changeOf_eq (h : Computes A p) (hk : p.Shortest k) :
    changeOf A (p.total k) (A.norm p.amount) (p.fee k) = p.change k := by
  have hnorm := Wallet.changeOf_eq (A := A) (p.total k) p.amount (p.fee k)
  rw [h.total k hk.le_length hk.least] at hnorm
  exact hnorm.trans (h.change k hk)

end Computes

/-! ## Where the loop stops -/

section Choice

variable {A : Arithmetic} {α : Type} {value : α → Int} {need : Nat → Int} {utxos : List α}

variable (A value need utxos) in
/-- The first `k` unspent outputs cover what is needed for `k` inputs, and `k` is the least such number. -/
structure Selects (k : Nat) : Prop where
  one_le : 1 ≤ k
  le_length : k ≤ utxos.length
  covers : need k ≤ A.norm ((utxos.take k).map value).sum
  least : ∀ j, 1 ≤ j → j < k → A.norm ((utxos.take j).map value).sum < need j

theorem Selects.unique {j k : Nat} (hj : Selects A value need utxos j) (hk : Selects A value need utxos k) : j = k := by
  rcases Nat.lt_trichotomy j k with h | h | h
  · have h1 := hk.least j hj.one_le h
    have h2 := hj.covers
    omega
  · exact h
  · have h1 := hj.least k hk.one_le h
    have h2 := hk.covers
    omega

theorem chooseUtxos_eq (done rest : List α)
    (hfail : ∀ j, 1 ≤ j → j ≤ done.length → A.norm (((done ++ rest).take j).map value).sum < need j) :
    (∃ k, Selects A value need (done ++ rest) k ∧ chooseUtxos A value need done (A.norm (done.map value).sum) rest =
        ((done ++ rest).take k, A.norm (((done ++ rest).take k).map value).sum)) ∨
      (chooseUtxos A value need done (A.norm (done.map value).sum) rest =
          (done ++ rest, A.norm ((done ++ rest).map value).sum) ∧
        ∀ j, 1 ≤ j → j ≤ (done ++ rest).length → A.norm (((done ++ rest).take j).map value).sum < need j) := by
  induction rest generalizing done with
  | nil =>
    rw [List.append_nil] at hfail ⊢
    exact .inr ⟨rfl, hfail⟩
  | cons u rest ih =>
    have htotal : A.norm (A.norm (done.map value).sum + value u) = A.norm ((done ++ [u]).map value).sum := by
      rw [A.norm_norm_add, List.map_append, List.sum_append]
      simp
    have htake : (done ++ u :: rest).take (done ++ [u]).length = done ++ [u] := by
      rw [show done ++ u :: rest = (done ++ [u]) ++ rest from List.append_cons ..]
      exact List.take_left
    rw [chooseUtxos, htotal]
    by_cases hstop : need (done ++ [u]).length ≤ A.norm ((done ++ [u]).map value).sum
    · rw [if_pos hstop]
      refine .inl ⟨(done ++ [u]).length, ⟨by simp, by simp, by rwa [htake], fun j h1 hj => hfail j h1 ?_⟩, by rw [htake]⟩
      rw [List.length_append, List.length_singleton] at hj
      omega
    · rw [if_neg hstop]
      have hnext := ih (done ++ [u]) fun j h1 hj => by
        rw [List.append_assoc, List.singleton_append]
        rcases Nat.lt_or_eq_of_le hj with hlt | rfl
        · rw [List.length_append, List.length_singleton] at hlt
          exact hfail j h1 (by omega)
        · rw [htake]
          omega
      rwa [List.append_assoc, List.singleton_append] at hnext

variable {insufficient : Int → Int → String} {estimate : Nat → Nat} {feeRate amount : Int} {plan : List α × Int}

theorem planSend_eq_ok (h : planSend A value insufficient estimate feeRate amount utxos = .ok plan)
    (hpos : 0 < needFor A estimate feeRate amount 0) :
    ∃ k, Selects A value (needFor A estimate feeRate amount) utxos k ∧
      plan = (utxos.take k, A.norm ((utxos.take k).map value).sum) := by
  have hloop : (∃ k, Selects A value (needFor A estimate feeRate amount) ([] ++ utxos) k ∧ _) ∨ _ :=
    chooseUtxos_eq [] utxos fun j h1 h2 => absurd h1 (by simpa using h2)
  rw [List.map_nil, List.sum_nil, A.norm_zero, List.nil_append] at hloop
  unfold planSend at h
  dsimp only at h
  split at h
  · cases h
  next hcovers =>
    cases h
    rcases hloop with ⟨k, hk, hplan⟩ | ⟨hplan, hfail⟩
    · exact ⟨k, hk, hplan⟩
    · rw [hplan] at hcovers
      refine absurd ?_ hcovers
      by_cases hnil : utxos = []
      · subst hnil
        rwa [List.map_nil, List.sum_nil, A.norm_zero]
      · have := hfail utxos.length (List.length_pos_iff.2 hnil) (Nat.le_refl _)
        rwa [List.take_length] at this

theorem planSend_of_selects {k : Nat} (hk : Selects A value (needFor A estimate feeRate amount) utxos k) :
    planSend A value insufficient estimate feeRate amount utxos =
      .ok (utxos.take k, A.norm ((utxos.take k).map value).sum) := by
  have hloop : (∃ k, Selects A value (needFor A estimate feeRate amount) ([] ++ utxos) k ∧ _) ∨ _ :=
    chooseUtxos_eq [] utxos fun j h1 h2 => absurd h1 (by simpa using h2)
  rw [List.map_nil, List.sum_nil, A.norm_zero, List.nil_append] at hloop
  rcases hloop with ⟨j, hj, hplan⟩ | ⟨-, hfail⟩
  · cases hj.unique hk
    have hcovers := hk.covers
    rw [planSend, hplan]
    dsimp only
    rw [List.length_take_of_le hk.le_length, if_neg (Int.not_lt.2 hcovers)]
  · have hlt := hfail k hk.one_le hk.le_length
    exact absurd hk.covers (Int.not_le.2 hlt)

variable {p : ExactPlan} (hvalues : utxos.map value = p.values) (hsane : p.Sane) (hcomputes : Computes A p)
include hvalues hsane hcomputes

/-- **Exact integers stop at the shortest list.** -/
theorem selects_iff_shortest {k : Nat} :
    Selects A value (needFor A p.size p.feeRate (A.norm p.amount)) utxos k ↔ p.Shortest k := by
  have hlength : utxos.length = p.values.length := by rw [← hvalues, List.length_map]
  have htotal : ∀ j, ((utxos.take j).map value).sum = p.total j := fun j => by
    rw [List.map_take, hvalues, ExactPlan.total]
  -- At every number that the loop gets to, the two comparisons are one.
  have hcompare : ∀ j ≤ p.values.length, (∀ i < j, ¬p.Covers i) →
      (needFor A p.size p.feeRate (A.norm p.amount) j ≤ A.norm ((utxos.take j).map value).sum ↔ p.Covers j) := by
    intro j hj hleast
    rw [htotal, hcomputes.needFor_eq hj hleast, hcomputes.total j hj hleast, ExactPlan.Covers]
  constructor
  · intro hk
    have hle : k ≤ p.values.length := hlength ▸ hk.le_length
    have hleast : ∀ j ≤ k, ∀ i < j, ¬p.Covers i := by
      intro j hj
      induction j with
      | zero => exact fun i hi => absurd hi (Nat.not_lt_zero i)
      | succ j ih =>
        have hbefore := ih (by omega)
        intro i hi
        rcases Nat.lt_or_eq_of_le (Nat.lt_succ_iff.1 hi) with hlt | rfl
        · exact hbefore i hlt
        · rcases Nat.eq_zero_or_pos i with rfl | hpos
          · exact hsane.not_covers_zero
          · exact fun hc => Int.not_le.2 (hk.least i hpos (by omega)) ((hcompare i (by omega) hbefore).2 hc)
    exact ⟨hle, (hcompare k hle (hleast k (Nat.le_refl k))).1 hk.covers, hleast k (Nat.le_refl k)⟩
  · intro hk
    have hpos : 1 ≤ k := Nat.pos_of_ne_zero fun h => hsane.not_covers_zero (h ▸ hk.covers)
    refine ⟨hpos, hlength ▸ hk.le_length, (hcompare k hk.le_length hk.least).2 hk.covers, fun j _ hj => ?_⟩
    have hbefore : ∀ i < j, ¬p.Covers i := fun i hi => hk.least i (by omega)
    exact Int.not_le.1 fun hc => hk.least j hj ((hcompare j (by have := hk.le_length; omega) hbefore).1 hc)

/-- **A wallet follows the exact plan**: it takes the shortest list, and fails exactly if there is none. -/
theorem planSend_eq_ok_iff :
    planSend A value insufficient p.size p.feeRate (A.norm p.amount) utxos = .ok plan ↔
      ∃ k, p.Shortest k ∧ plan = (utxos.take k, p.total k) := by
  have htotal : ∀ k, p.Shortest k → A.norm ((utxos.take k).map value).sum = p.total k := fun k hk => by
    rw [List.map_take, hvalues, ← ExactPlan.total, hcomputes.total k hk.le_length hk.least]
  constructor
  · intro h
    have hpos : 0 < needFor A p.size p.feeRate (A.norm p.amount) 0 := by
      rw [hcomputes.needFor_eq (Nat.zero_le _) fun j hj => absurd hj (Nat.not_lt_zero j)]
      exact hsane.pays
    obtain ⟨k, hk, rfl⟩ := planSend_eq_ok h hpos
    have hshort := (selects_iff_shortest hvalues hsane hcomputes).1 hk
    exact ⟨k, hshort, by rw [htotal k hshort]⟩
  · rintro ⟨k, hk, rfl⟩
    rw [planSend_of_selects ((selects_iff_shortest hvalues hsane hcomputes).2 hk), htotal k hk]

omit hcomputes in
theorem ExactPlan.Shortest.take_ne_nil {k : Nat} (hk : p.Shortest k) : utxos.take k ≠ [] := by
  have hpos : k ≠ 0 := fun h => hsane.not_covers_zero (h ▸ hk.covers)
  have hlength : k ≤ utxos.length := by
    have := hk.le_length
    rwa [← hvalues, List.length_map] at this
  refine List.ne_nil_of_length_pos ?_
  rw [List.length_take_of_le hlength]
  omega

end Choice

end CodexaCoin.Wallet
