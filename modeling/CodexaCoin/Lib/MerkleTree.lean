import Mathlib

/-!
# Merkle trees with a repeated last node

Neighbours are combined level by level; a last node without a neighbour is combined with itself.
-/

namespace MerkleTree

variable {α : Type} (f : α → α → α)

/-- The next level. -/
def pairUp : List α → List α
  | a :: b :: rest => f a b :: pairUp rest
  | [a] => [f a a]
  | [] => []

/-- The level `d` levels up. -/
def up : (d : Nat) → List α → List α
  | 0, l => l
  | d + 1, l => up d (pairUp f l)

/-- The neighbour of a node; that of a last node without one is the node itself. -/
def sibling (l : List α) (i : Nat) : Option α :=
  if i % 2 = 0 then l[i + 1]?.or l[i]? else l[i - 1]?

/-- The siblings on the way up from a leaf. -/
def siblings : (n : Nat) → List α → (i : Nat) → List (Option α)
  | 0, _, _ => []
  | n + 1, l, i => sibling l i :: siblings n (pairUp f l) (i / 2)

/-- What a verifier makes of a node and its siblings. -/
def fold : α → List α → (i : Nat) → α
  | x, [], _ => x
  | x, y :: branch, i => fold (if i % 2 = 1 then f y x else f x y) branch (i / 2)

section Levels

variable {f} {l a s b : List α} {d n i j q : Nat}

theorem length_pairUp (l : List α) : (pairUp f l).length = (l.length + 1) / 2 := by
  fun_induction pairUp f l with
  | case1 a b rest ih => rw [List.length_cons, ih, List.length_cons, List.length_cons]; omega
  | case2 a => simp
  | case3 => simp

theorem pairUp_append (h : a.length % 2 = 0) : pairUp f (a ++ b) = pairUp f a ++ pairUp f b := by
  fun_induction pairUp f a with
  | case1 x y rest ih => simpa [pairUp] using ih (by rw [List.length_cons, List.length_cons] at h; omega)
  | case2 x => simp at h
  | case3 => rfl

theorem getElem?_pairUp (l : List α) (i : Nat) :
    (pairUp f l)[i]? = l[2 * i]?.bind fun x => (l[2 * i + 1]?.or l[2 * i]?).map (f x) := by
  fun_induction pairUp f l generalizing i with
  | case1 x y rest ih => cases i with
    | zero => rfl
    | succ i => exact ih i
  | case2 x => cases i <;> rfl
  | case3 => rfl

theorem sibling_append (ha : a.length % 2 = 0) : sibling (a ++ b) (a.length + j) = sibling b j := by
  unfold sibling
  rw [show (a.length + j) % 2 = j % 2 by omega]
  split
  · rw [Nat.add_assoc, List.getElem?_append_right (by omega), List.getElem?_append_right (by omega)]
    simp
  · rw [List.getElem?_append_right (by omega), show a.length + j - 1 - a.length = j - 1 by omega]

theorem sibling_append_left (ha : a.length % 2 = 0) (hj : j < a.length) : sibling (a ++ b) j = sibling a j := by
  unfold sibling
  split
  · rw [List.getElem?_append_left (by omega), List.getElem?_append_left hj]
  · rw [List.getElem?_append_left (by omega)]

theorem up_nil : ∀ d, up f d [] = []
  | 0 => rfl
  | d + 1 => up_nil d

theorem up_up (d n : Nat) (l : List α) : up f n (up f d l) = up f (d + n) l := by
  induction d generalizing l with
  | zero => rw [Nat.zero_add]; rfl
  | succ d ih => rw [Nat.succ_add]; exact ih _

theorem length_up (h : l.length = q * 2 ^ d) : (up f d l).length = q := by
  induction d generalizing l with
  | zero => simpa [up] using h
  | succ d ih => exact ih (by rw [length_pairUp, h, Nat.pow_succ, ← Nat.mul_assoc]; omega)

theorem length_up_le (d : Nat) (l : List α) : (up f d l).length ≤ l.length := by
  induction d generalizing l with
  | zero => exact Nat.le_refl _
  | succ d ih =>
    refine (ih (pairUp f l)).trans ?_
    rw [length_pairUp]
    omega

theorem exists_up (h : l.length ≤ 2 ^ d) (hpos : 0 < l.length) : ∃ r, up f d l = [r] := by
  induction d generalizing l with
  | zero => exact List.length_eq_one_iff.1 (by rw [Nat.pow_zero] at h; exact Nat.le_antisymm h hpos)
  | succ d ih => exact ih (by rw [length_pairUp]; omega) (by rw [length_pairUp]; omega)

/-- **Whole segments do not see the rest of the tree.** -/
theorem up_append (h : a.length = q * 2 ^ d) : up f d (a ++ b) = up f d a ++ up f d b := by
  induction d generalizing a b with
  | zero => rfl
  | succ d ih =>
    rw [Nat.pow_succ, ← Nat.mul_assoc] at h
    rw [up, pairUp_append (by omega)]
    exact ih (by rw [length_pairUp]; omega)

theorem clog_length_up (h : 2 ^ d ≤ l.length) : Nat.clog 2 l.length = d + Nat.clog 2 (up f d l).length := by
  induction d generalizing l with
  | zero => rw [Nat.zero_add]; rfl
  | succ d ih =>
    have hlen := length_pairUp (f := f) l
    have hpos := Nat.two_pow_pos d
    rw [Nat.pow_succ] at h
    rw [Nat.clog_of_two_le (by decide) (by omega), show (l.length + 2 - 1) / 2 = (pairUp f l).length by omega,
      ih (by omega), up]
    omega

theorem length_siblings (n : Nat) (l : List α) (i : Nat) : (siblings f n l i).length = n := by
  induction n generalizing l i with
  | zero => rfl
  | succ n ih => exact congrArg (· + 1) (ih _ _)

theorem siblings_add (d n : Nat) (l : List α) (i : Nat) :
    siblings f (d + n) l i = siblings f d l i ++ siblings f n (up f d l) (i / 2 ^ d) := by
  induction d generalizing l i with
  | zero => simp [siblings, up]
  | succ d ih => rw [Nat.succ_add, siblings, ih, Nat.div_div_eq_div_mul, ← Nat.pow_succ']; rfl

/-- **The siblings within a segment.** The segment is whole, or it is the end of the tree. -/
theorem siblings_segment (ha : a.length = q * 2 ^ d) (hs : s.length = 2 ^ d ∨ s.length ≤ 2 ^ d ∧ b = [])
    (hj : j < s.length) : siblings f d (a ++ (s ++ b)) (a.length + j) = siblings f d s j := by
  induction d generalizing a s b j with
  | zero => rfl
  | succ d ih =>
    rw [Nat.pow_succ] at ha hs
    rw [← Nat.mul_assoc] at ha
    have hrest : sibling (s ++ b) j = sibling s j ∧ pairUp f (s ++ b) = pairUp f s ++ pairUp f b := by
      rcases hs with hs | ⟨-, rfl⟩
      · exact ⟨sibling_append_left (by omega) hj, pairUp_append (by omega)⟩
      · simp [pairUp]
    have hhalf : (a.length + j) / 2 = (pairUp f a).length + j / 2 := by rw [length_pairUp]; omega
    rw [siblings, siblings, sibling_append (by omega), hrest.1, pairUp_append (by omega), hrest.2, hhalf]
    refine congrArg _ (ih (by rw [length_pairUp]; omega) ?_ (by rw [length_pairUp]; omega))
    exact hs.imp (fun hs => by rw [length_pairUp]; omega) fun hs => ⟨by rw [length_pairUp]; omega, by rw [hs.2]; rfl⟩

/-- **A leaf and its siblings give back the root.** -/
theorem fold_siblings {x : α} {branch : List α} (hx : l[i]? = some x) (hb : siblings f n l i = branch.map some) :
    (up f n l)[i / 2 ^ n]? = some (fold f x branch i) := by
  induction n generalizing l i x branch with
  | zero =>
    obtain rfl : branch = [] := List.map_eq_nil_iff.1 hb.symm
    simpa [fold, up] using hx
  | succ n ih =>
    cases branch with
    | nil => cases hb
    | cons y branch =>
      obtain ⟨hy, hb⟩ := List.cons.inj hb
      rw [up, Nat.pow_succ', ← Nat.div_div_eq_div_mul]
      refine ih ?_ hb
      rw [getElem?_pairUp]
      unfold sibling at hy
      rcases Nat.mod_two_eq_zero_or_one i with hi | hi
      · rw [if_pos hi, hx] at hy
        rw [show 2 * (i / 2) = i by omega, hx, Option.bind_some, hy, if_neg (by omega)]
        rfl
      · rw [if_neg (by omega)] at hy
        rw [show 2 * (i / 2) = i - 1 by omega, hy, Option.bind_some, show i - 1 + 1 = i by omega, hx, if_pos hi]
        rfl

end Levels

/-! ## Commitment -/

section Commitment

/-- The pairs of nodes that `pairUp` combines. -/
def pairs : List α → List (α × α)
  | a :: b :: rest => (a, b) :: pairs rest
  | [a] => [(a, a)]
  | [] => []

/-- The pairs that are combined on the way up. -/
def upPairs : (d : Nat) → List α → List (α × α)
  | 0, _ => []
  | d + 1, l => pairs l ++ upPairs d (pairUp f l)

/-- The pairs that a verifier combines. -/
def foldPairs : α → List α → (i : Nat) → List (α × α)
  | _, [], _ => []
  | x, y :: branch, i =>
    let p := if i % 2 = 1 then (y, x) else (x, y)
    p :: foldPairs (f p.1 p.2) branch (i / 2)

/-- Two different pairs of the list are combined to the same node. -/
def Collides (P : List (α × α)) : Prop := ∃ p ∈ P, ∃ q ∈ P, p ≠ q ∧ f p.1 p.2 = f q.1 q.2

/-- No two neighbours that are combined are equal. -/
def Unmutated (l : List α) : Prop := ∀ i x, l[2 * i]? = some x → l[2 * i + 1]? ≠ some x

variable {f} {l l' : List α} {n : Nat} {P : List (α × α)}

theorem eq_of_combine_eq (hc : ¬ Collides f P) {p q : α × α} (hp : p ∈ P) (hq : q ∈ P) (h : f p.1 p.2 = f q.1 q.2) :
    p = q := by
  by_contra hne
  exact hc ⟨p, hp, q, hq, hne, h⟩

theorem eq_of_pairUp_eq (hc : ¬ Collides f P) (hP : pairs l ⊆ P) (hP' : pairs l' ⊆ P) (hl : Unmutated l)
    (hl' : Unmutated l') (h : pairUp f l = pairUp f l') : l = l' := by
  -- a node without neighbour could only be taken for two equal neighbours
  fun_induction pairUp f l generalizing l' with
  | case1 x y rest ih =>
    rcases l' with _ | ⟨x', _ | ⟨y', rest'⟩⟩
    · cases h
    · cases eq_of_combine_eq hc (hP List.mem_cons_self) (hP' List.mem_cons_self) (List.cons.inj h).1
      exact absurd rfl (hl 0 _ rfl)
    · obtain ⟨hxy, hrest⟩ := List.cons.inj h
      cases eq_of_combine_eq hc (hP List.mem_cons_self) (hP' List.mem_cons_self) hxy
      rw [ih (fun p hp => hP (List.mem_cons_of_mem _ hp)) (fun p hp => hP' (List.mem_cons_of_mem _ hp))
        (fun i => hl (i + 1)) (fun i => hl' (i + 1)) hrest]
  | case2 x =>
    rcases l' with _ | ⟨x', _ | ⟨y', rest'⟩⟩
    · cases h
    · cases eq_of_combine_eq hc (hP List.mem_cons_self) (hP' List.mem_cons_self) (List.cons.inj h).1
      rfl
    · cases eq_of_combine_eq hc (hP List.mem_cons_self) (hP' List.mem_cons_self) (List.cons.inj h).1
      exact absurd rfl (hl' 0 _ rfl)
  | case3 =>
    have hlen := congrArg List.length h
    rw [length_pairUp] at hlen
    exact (List.eq_nil_of_length_eq_zero (by simp at hlen; omega)).symm

theorem fold_cons (x y : α) (branch : List α) (i : Nat) : fold f x (y :: branch) i =
    fold f (f (if i % 2 = 1 then (y, x) else (x, y)).1 (if i % 2 = 1 then (y, x) else (x, y)).2) branch (i / 2) := by
  rw [fold]
  split <;> rfl

/-- **One leaf belongs to a root and a place**, up to a collision. -/
theorem eq_of_fold_eq {x x' : α} {branch branch' : List α} {i : Nat} (hc : ¬ Collides f P)
    (hP : foldPairs f x branch i ⊆ P) (hP' : foldPairs f x' branch' i ⊆ P) (hlen : branch.length = branch'.length)
    (h : fold f x branch i = fold f x' branch' i) : x = x' := by
  induction branch generalizing branch' x x' i with
  | nil =>
    obtain rfl := List.eq_nil_of_length_eq_zero hlen.symm
    exact h
  | cons y branch ih =>
    obtain ⟨y', branch', rfl⟩ := List.exists_cons_of_length_eq_add_one hlen.symm
    rw [fold_cons, fold_cons] at h
    have hnode := ih (fun p hp => hP (List.mem_cons_of_mem _ hp)) (fun p hp => hP' (List.mem_cons_of_mem _ hp))
      (Nat.succ.inj hlen) h
    have hpair := eq_of_combine_eq hc (hP List.mem_cons_self) (hP' List.mem_cons_self) hnode
    split at hpair
    · exact congrArg Prod.snd hpair
    · exact congrArg Prod.fst hpair

/-- **One list belongs to a root and a height**, up to a collision. -/
theorem eq_of_up_eq (hc : ¬ Collides f P) (hP : upPairs f n l ⊆ P) (hP' : upPairs f n l' ⊆ P)
    (hl : ∀ k < n, Unmutated (up f k l)) (hl' : ∀ k < n, Unmutated (up f k l')) (h : up f n l = up f n l') : l = l' := by
  induction n generalizing l l' with
  | zero => exact h
  | succ n ih =>
    obtain ⟨hpairs, hrest⟩ := List.append_subset.1 hP
    obtain ⟨hpairs', hrest'⟩ := List.append_subset.1 hP'
    refine eq_of_pairUp_eq hc hpairs hpairs' (hl 0 (Nat.succ_pos n)) (hl' 0 (Nat.succ_pos n)) (ih hrest hrest' ?_ ?_ h)
    · exact fun k hk => hl (k + 1) (Nat.succ_lt_succ hk)
    · exact fun k hk => hl' (k + 1) (Nat.succ_lt_succ hk)

end Commitment

end MerkleTree
