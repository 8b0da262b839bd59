import CodexaCoin.Lib.MerkleTree
import CodexaCoin.Validation.DisconnectBlock

/-!
# Merkle proofs of the indexer

`electrumx/lib/merkle.py` over a function that hashes two concatenated hashes, with the cache of the headers that `db.py`
fills and truncates. The methods of `MerkleCache` give up control when they read hashes; here each request is answered
before the next one, and before headers are flushed or backed up.
-/

namespace CodexaCoin.Indexer

open MerkleTree Check

/-- A `ValueError` or an `IndexError`, and the `DBError` of headers that are not on disk. -/
inductive MerkleError where
  | value (text : String)
  | index
  | missing
deriving DecidableEq, Repr

/-- `ceil(log(n, 2))` in the doubles of the platform: the quotient of two logarithms is exact enough below `2 ^ 29`, where
it is first rounded up to `30`. -/
class CeilLog2 where
  ceilLog2 : Nat → Nat
  ceilLog2_eq : ∀ {n}, 0 < n → n < 2 ^ 29 → ceilLog2 n = Nat.clog 2 n

open CeilLog2

/-! ## `Merkle` -/

section Merkle

variable {α : Type} (f : α → α → α)

/-- The loop of `branch_and_root`: `hashes[index ^ 1]` and the next level, with the last hash repeated if the number is
odd. -/
def branchLoop : (length : Nat) → (hashes : List α) → (index : Nat) → Except MerkleError (List α × α)
  | 0, hashes, _ => hashes.head?.elim (.error .index) fun root => .ok ([], root)
  | length + 1, hashes, index => do
    let elt ← (sibling hashes index).elim (.error .index) .ok
    let rest ← branchLoop length (pairUp f hashes) (index / 2)
    .ok (elt :: rest.1, rest.2)

def rootFromProof : (hash : α) → (branch : List α) → (index : Nat) → Except MerkleError α
  | hash, [], index => if index ≠ 0 then .error (.value "index out of range for branch") else .ok hash
  | hash, elt :: branch, index => rootFromProof (if index % 2 = 1 then f elt hash else f hash elt) branch (index / 2)

variable [CeilLog2]

def branchLength (hashCount : Nat) : Except MerkleError Nat :=
  if hashCount < 1 then .error (.value "hash_count must be at least 1") else .ok (ceilLog2 hashCount)

def treeDepth (hashCount : Nat) : Except MerkleError Nat := do
  let length ← branchLength hashCount
  .ok (length + 1)

def branchAndRoot (hashes : List α) (index : Nat) (length : Option Nat) : Except MerkleError (List α × α) :=
  if hashes.length ≤ index then .error (.value "index out of range")
  else do
    let naturalLength ← branchLength hashes.length
    if length.getD naturalLength < naturalLength then .error (.value "length out of range")
    else branchLoop f (length.getD naturalLength) hashes index

def root (hashes : List α) (length : Option Nat) : Except MerkleError α := do
  let result ← branchAndRoot f hashes 0 length
  .ok result.2

/-- The rounds of `level`, with the hashes that are left. -/
def levelRounds (depthHigher : Nat) : (rounds : Nat) → (hashes : List α) → Except MerkleError (List α)
  | 0, _ => .ok []
  | rounds + 1, hashes => do
    let node ← root f (hashes.take (2 ^ depthHigher)) (some depthHigher)
    let rest ← levelRounds depthHigher rounds (hashes.drop (2 ^ depthHigher))
    .ok (node :: rest)

/-- `level`: as many rounds as `range(0, len(hashes), size)` has numbers. -/
def level (hashes : List α) (depthHigher : Nat) : Except MerkleError (List α) :=
  levelRounds f depthHigher ((hashes.length + 2 ^ depthHigher - 1) / 2 ^ depthHigher) hashes

def branchAndRootFromLevel [DecidableEq α] (level leafHashes : List α) (index depthHigher : Nat) :
    Except MerkleError (List α × α) := do
  let leaf ← branchAndRoot f leafHashes (index - index / 2 ^ depthHigher * 2 ^ depthHigher) (some depthHigher)
  let top ← branchAndRoot f level (index / 2 ^ depthHigher) none
  if level[index / 2 ^ depthHigher]? ≠ some leaf.2 then .error (.value "leaf hashes inconsistent with level")
  else .ok (leaf.1 ++ top.1, top.2)

end Merkle

/-! ## `MerkleCache` -/

structure MerkleCache (α : Type) where
  length : Nat
  level : List α
  depthHigher : Nat

/-- `fs_block_hashes_rev`, the source of the header cache. -/
def sourceFunc {α : Type} (source : List α) (start count : Nat) : Except MerkleError (List α) :=
  if count = 0 ∨ start + count ≤ source.length then .ok ((source.drop start).take count) else .error .missing

namespace MerkleCache

variable {α : Type} (f : α → α → α) (source : List α) (c : MerkleCache α)

def leafStart (index : Nat) : Nat := index / 2 ^ c.depthHigher * 2 ^ c.depthHigher

def truncate (length : Nat) : Except MerkleError (MerkleCache α) :=
  if length = 0 then .error (.value "length must be positive")
  else if c.length ≤ length then .ok c
  else .ok { c with length := c.leafStart length, level := c.level.take (c.leafStart length / 2 ^ c.depthHigher) }

variable [CeilLog2]

def extendTo (length : Nat) : Except MerkleError (MerkleCache α) :=
  if length ≤ c.length then .ok c
  else do
    let hashes ← sourceFunc source (c.leafStart c.length) (length - c.leafStart c.length)
    let segment ← Indexer.level f hashes c.depthHigher
    .ok { c with level := c.level.take (c.leafStart c.length / 2 ^ c.depthHigher) ++ segment, length := length }

def levelFor (length : Nat) : Except MerkleError (List α) :=
  if length = c.length then .ok c.level
  else do
    let hashes ← sourceFunc source (c.leafStart length) (min (2 ^ c.depthHigher) (length - c.leafStart length))
    let segment ← Indexer.level f hashes c.depthHigher
    .ok (c.level.take (length / 2 ^ c.depthHigher) ++ segment)

/-- `initialize`. -/
def initialized (length : Nat) : Except MerkleError (MerkleCache α) := do
  let depth ← treeDepth length
  let hashes ← sourceFunc source 0 length
  let level ← Indexer.level f hashes (depth / 2)
  .ok ⟨length, level, depth / 2⟩

variable [DecidableEq α]

/-- `branch_and_root` once the cache is long enough. -/
def answer (length index : Nat) : Except MerkleError (List α × α) := do
  let leafHashes ← sourceFunc source (c.leafStart index) (min (2 ^ c.depthHigher) (length - c.leafStart index))
  if length < 2 ^ c.depthHigher then Indexer.branchAndRoot f leafHashes index none
  else do
    let level ← c.levelFor f source length
    branchAndRootFromLevel f level leafHashes index c.depthHigher

/-- `branch_and_root`, and the cache after it. -/
def branchAndRoot (length index : Nat) : Except MerkleError (List α × α) × MerkleCache α :=
  if length = 0 then (.error (.value "length must be positive"), c)
  else if length ≤ index then (.error (.value "index must be less than length"), c)
  else match c.extendTo f source length with
    | .error e => (.error e, c)
    | .ok c' => (c'.answer f source length index, c')

end MerkleCache

/-! ## The loops in terms of the tree -/

section Tree

variable {α : Type} {f : α → α → α} {l : List α} {d n i : Nat}

/-- **The loop of `branch_and_root`** collects the siblings and ends at the root. -/
theorem branchLoop_spec (h : i < l.length) : ∃ b r, branchLoop f n l i = .ok (b, r) ∧
    siblings f n l i = b.map some ∧ (up f n l).head? = some r := by
  induction n generalizing l i with
  | zero =>
    obtain ⟨x, rest, rfl⟩ := List.exists_cons_of_length_pos (Nat.zero_lt_of_lt h)
    exact ⟨[], x, rfl, rfl, rfl⟩
  | succ n ih =>
    obtain ⟨b, r, hloop, hb, hr⟩ := ih (l := pairUp f l) (i := i / 2) (by rw [length_pairUp]; omega)
    obtain ⟨y, hy⟩ : ∃ y, sibling l i = some y := by
      unfold sibling
      split
      · rw [List.getElem?_eq_getElem h]
        cases l[i + 1]? <;> simp
      · exact ⟨_, List.getElem?_eq_getElem (by omega)⟩
    refine ⟨y :: b, r, ?_, by rw [siblings, hy, hb]; rfl, hr⟩
    rw [branchLoop, hy, hloop]
    rfl

variable [CeilLog2]

theorem branchAndRoot_spec (h : i < l.length) (hlt : l.length < 2 ^ 29) (o : Option Nat)
    (ho : ∀ k ∈ o, l.length ≤ 2 ^ k) : ∃ b r,
    branchAndRoot f l i o = .ok (b, r) ∧ siblings f (o.getD (Nat.clog 2 l.length)) l i = b.map some ∧
      (up f (o.getD (Nat.clog 2 l.length)) l).head? = some r := by
  obtain ⟨b, r, hloop, hspec⟩ := branchLoop_spec (f := f) (n := o.getD (Nat.clog 2 l.length)) h
  refine ⟨b, r, ?_, hspec⟩
  have hnatural : branchLength l.length = .ok (Nat.clog 2 l.length) := by
    rw [branchLength, if_neg (by omega), ceilLog2_eq (by omega) hlt]
  have hle : Nat.clog 2 l.length ≤ o.getD (Nat.clog 2 l.length) := by
    cases o with
    | none => exact Nat.le_refl _
    | some k => exact Nat.clog_le_of_le_pow (ho k rfl)
  rw [branchAndRoot, if_neg (by omega), hnatural, ok_bind, if_neg (by omega), hloop]

theorem root_spec (hpos : 0 < l.length) (hlt : l.length < 2 ^ 29) (hle : l.length ≤ 2 ^ d) :
    ∃ r, root f l (some d) = .ok r ∧ up f d l = [r] := by
  obtain ⟨b, r, hbranch, -, hr⟩ := branchAndRoot_spec (f := f) hpos hlt (some d) (by simpa using hle)
  obtain ⟨r', hone⟩ := exists_up (f := f) hle hpos
  rw [Option.getD_some, hone] at hr
  cases hr
  exact ⟨r, by rw [root, hbranch]; rfl, hone⟩

/-- **`level` is the level of the tree.** -/
theorem level_eq (l : List α) (hlt : l.length < 2 ^ 29) (d : Nat) : level f l d = .ok (up f d l) := by
  have hpos := Nat.two_pow_pos d
  unfold level
  generalize hk : (l.length + 2 ^ d - 1) / 2 ^ d = k
  induction k generalizing l with
  | zero =>
    have hlt := (Nat.div_eq_zero_iff_lt hpos).1 hk
    obtain rfl : l = [] := List.eq_nil_of_length_eq_zero (by omega)
    rw [up_nil]
    rfl
  | succ k ih =>
    have hlpos : 0 < l.length := by
      refine Nat.pos_of_ne_zero fun h => ?_
      rw [h, Nat.zero_add, Nat.div_eq_of_lt (by omega)] at hk
      cases hk
    have hlen : (l.take (2 ^ d)).length = min (2 ^ d) l.length := List.length_take
    obtain ⟨r, hroot, hr⟩ := root_spec (f := f) (l := l.take (2 ^ d)) (d := d) (by omega) (by omega) (by omega)
    -- what is left has one round less, and its level follows the node
    have hrest : ((l.drop (2 ^ d)).length + 2 ^ d - 1) / 2 ^ d = k ∧ up f d l = r :: up f d (l.drop (2 ^ d)) := by
      rw [List.length_drop]
      rcases Nat.le_total (2 ^ d) l.length with hle | hle
      · rw [show l.length + 2 ^ d - 1 = (l.length - 2 ^ d + 2 ^ d - 1) + 2 ^ d by omega, Nat.add_div_right _ hpos] at hk
        refine ⟨Nat.succ.inj hk, ?_⟩
        conv_lhs => rw [← List.take_append_drop (2 ^ d) l]
        rw [up_append (q := 1) (by omega), hr]
        rfl
      · rw [show l.length + 2 ^ d - 1 = (l.length - 1) + 2 ^ d by omega, Nat.add_div_right _ hpos,
          Nat.div_eq_of_lt (by omega)] at hk
        rw [← Nat.succ.inj hk, Nat.div_eq_of_lt (by omega), List.drop_eq_nil_of_le hle, up_nil, ← hr,
          List.take_of_length_le hle]
        exact ⟨rfl, rfl⟩
    rw [levelRounds, hroot, ok_bind, ih _ (by rw [List.length_drop]; omega) hrest.1, hrest.2]
    rfl

end Tree

/-! ## The cache -/

namespace MerkleCache

section Cache

variable {α : Type} {f : α → α → α} {source : List α} {c : MerkleCache α} {d n i q : Nat}

/-- The cache holds the level of the hashes that it covers. -/
structure Right (f : α → α → α) (source : List α) (c : MerkleCache α) : Prop where
  level : c.level = up f c.depthHigher (source.take c.length)
  le : c.length ≤ source.length

theorem take_level (hq : q * 2 ^ d ≤ n) (hn : n ≤ source.length) :
    (up f d (source.take n)).take q = up f d (source.take (q * 2 ^ d)) := by
  have hlen : (source.take (q * 2 ^ d)).length = q * 2 ^ d := by rw [List.length_take]; omega
  have hsplit := List.take_append_drop (q * 2 ^ d) (source.take n)
  rw [List.take_take, Nat.min_eq_left hq] at hsplit
  rw [← hsplit, up_append hlen]
  exact List.take_left' (length_up hlen)

theorem level_append (hq : q * 2 ^ d ≤ n) (hn : n ≤ source.length) :
    up f d (source.take (q * 2 ^ d)) ++ up f d ((source.drop (q * 2 ^ d)).take (n - q * 2 ^ d)) =
      up f d (source.take n) := by
  rw [← up_append (q := q) (by rw [List.length_take]; omega), ← List.take_add, Nat.add_sub_cancel' hq]

/-- **The cache shrinks**, whatever becomes of the hashes that it is not to cover any more. -/
theorem truncate_spec (h : c.Right f source) (hpos : 0 < n) {t : List α} (ht : t.take n = source.take n)
    (hle : n ≤ t.length) : ∃ c', c.truncate n = .ok c' ∧ c'.Right f t := by
  have hcut : ∀ {k}, k ≤ n → t.take k = source.take k := fun {k} hk => by
    rw [← Nat.min_eq_left hk, ← List.take_take, ht, List.take_take]
  rw [truncate, if_neg (by omega)]
  split
  · next hlen => exact ⟨c, rfl, by rw [h.level, hcut hlen], by omega⟩
  · have hstart := Nat.div_mul_le_self n (2 ^ c.depthHigher)
    rw [leafStart, Nat.mul_div_cancel _ (Nat.two_pow_pos _)]
    refine ⟨_, rfl, ?_, by dsimp only; omega⟩
    rw [h.level, take_level (by omega) h.le, hcut hstart]

variable [CeilLog2]

/-- **The cache grows.** -/
theorem extendTo_spec (h : c.Right f source) (hlt : source.length < 2 ^ 29) (hle : n ≤ source.length) :
    ∃ c', c.extendTo f source n = .ok c' ∧ c'.Right f source ∧ n ≤ c'.length := by
  unfold extendTo
  split
  · next hlen => exact ⟨c, rfl, h, hlen⟩
  · have hstart := Nat.div_mul_le_self c.length (2 ^ c.depthHigher)
    rw [leafStart, Nat.mul_div_cancel _ (Nat.two_pow_pos _), sourceFunc, if_pos (by omega), ok_bind,
      level_eq _ (by rw [List.length_take, List.length_drop]; omega), ok_bind]
    refine ⟨_, rfl, ⟨?_, hle⟩, Nat.le_refl _⟩
    rw [h.level, take_level hstart h.le, level_append (by omega) hle]

theorem extendTo_missing (h : c.Right f source) (hlt : source.length < n) : c.extendTo f source n = .error .missing := by
  have hle := h.le
  have hstart := Nat.div_mul_le_self c.length (2 ^ c.depthHigher)
  rw [extendTo, if_neg (by omega), sourceFunc, leafStart, if_neg (by omega)]
  rfl

theorem levelFor_eq (h : c.Right f source) (hlt : source.length < 2 ^ 29) (hle : n ≤ c.length) :
    c.levelFor f source n = .ok (up f c.depthHigher (source.take n)) := by
  unfold levelFor
  split
  · next heq => rw [h.level, heq]
  · have hsource := h.le
    have hstart := Nat.div_mul_le_self n (2 ^ c.depthHigher)
    have hend := Nat.lt_div_mul_add (a := n) (Nat.two_pow_pos c.depthHigher)
    rw [leafStart, Nat.min_eq_right (by omega), sourceFunc, if_pos (by omega), ok_bind,
      level_eq _ (by rw [List.length_take, List.length_drop]; omega), ok_bind, h.level, take_level (by omega) h.le,
        level_append hstart (by omega)]

variable [DecidableEq α]

/-- **A branch within a segment and one from its node make a branch.** -/
theorem branchAndRootFromLevel_eq {a s b : List α} {j : Nat} (ha : a.length = q * 2 ^ d)
    (hs : s.length = 2 ^ d ∨ s.length ≤ 2 ^ d ∧ b = []) (hj : j < s.length) (hd : 2 ^ d ≤ (a ++ (s ++ b)).length)
    (hlt : (a ++ (s ++ b)).length < 2 ^ 29) :
    branchAndRootFromLevel f (up f d (a ++ (s ++ b))) s (a.length + j) d =
      Indexer.branchAndRoot f (a ++ (s ++ b)) (a.length + j) none := by
  have hle : s.length ≤ 2 ^ d := hs.elim Nat.le_of_eq And.left
  have hdiv : (a.length + j) / 2 ^ d = q := by
    rw [ha, Nat.add_comm, Nat.add_mul_div_right _ _ (Nat.two_pow_pos d), Nat.div_eq_of_lt (by omega), Nat.zero_add]
  obtain ⟨r, hr⟩ := exists_up (f := f) hle (Nat.zero_lt_of_lt hj)
  have hnode : (up f d (a ++ (s ++ b)))[q]? = some r := by
    rw [up_append ha, List.getElem?_append_right (length_up ha).le, length_up ha, Nat.sub_self]
    rcases hs with hs | ⟨-, rfl⟩
    · rw [up_append (q := 1) (by omega), hr]
      rfl
    · rw [List.append_nil, hr]
      rfl
  obtain ⟨b1, r1, hleaf, hb1, hr1⟩ := branchAndRoot_spec (f := f) hj
    (by simp only [List.length_append] at hlt; omega) (some d) (by simpa using hle)
  obtain ⟨b2, r2, htop, hb2, hr2⟩ := branchAndRoot_spec (f := f) (List.getElem?_eq_some_iff.1 hnode).1
    ((length_up_le d _).trans_lt hlt) none (by simp)
  obtain ⟨b3, r3, hplain, hb3, hr3⟩ := branchAndRoot_spec (f := f) (l := a ++ (s ++ b)) (i := a.length + j)
    (by simp only [List.length_append]; omega) hlt none (by simp)
  rw [Option.getD_none] at hb2 hr2 hb3 hr3
  rw [Option.getD_some, hr] at hr1
  cases hr1
  rw [clog_length_up (f := f) hd, siblings_add, siblings_segment ha hs hj, hdiv] at hb3
  rw [clog_length_up (f := f) hd, ← up_up, hr2] at hr3
  cases hr3
  have hbranch : b3 = b1 ++ b2 := by
    refine List.map_injective_iff.2 (Option.some_injective α) ?_
    rw [← hb3, List.map_append, ← hb2]
    exact congrArg (· ++ _) hb1
  rw [branchAndRootFromLevel, hdiv, ← ha, Nat.add_sub_cancel_left, hleaf, ok_bind, htop, ok_bind,
    if_neg (by rw [hnode]; simp), hplain, hbranch]

/-- **A cache that is long enough answers as the plain computation does.** -/
theorem answer_eq (h : c.Right f source) (hbound : source.length < 2 ^ 29) (hle : n ≤ c.length) (hi : i < n) :
    c.answer f source n i = Indexer.branchAndRoot f (source.take n) i none := by
  have hsource := h.le
  have hstart := Nat.div_mul_le_self i (2 ^ c.depthHigher)
  have hlt := Nat.lt_div_mul_add (a := i) (Nat.two_pow_pos c.depthHigher)
  rw [answer, leafStart, sourceFunc, if_pos (by omega), ok_bind]
  split
  · next hshort =>
    rw [Nat.div_eq_of_lt (by omega), Nat.zero_mul, Nat.sub_zero, Nat.min_eq_right hshort.le, List.drop_zero]
  · next hlong =>
    have hlen : (source.take n).length = n := List.length_take_of_le (by omega)
    rw [levelFor_eq h hbound hle, ok_bind, ← List.take_take, ← List.drop_take]
    generalize source.take n = l at hlen ⊢
    generalize c.depthHigher = d at *
    generalize i / 2 ^ d = q at hstart hlt ⊢
    -- the leaves in front of the segment, the segment, and those behind it
    have hsplit : l = l.take (q * 2 ^ d) ++ ((l.drop (q * 2 ^ d)).take (2 ^ d) ++ (l.drop (q * 2 ^ d)).drop (2 ^ d)) := by
      rw [List.take_append_drop, List.take_append_drop]
    have ha : (l.take (q * 2 ^ d)).length = q * 2 ^ d := by rw [List.length_take]; omega
    have heq := branchAndRootFromLevel_eq (f := f) (s := (l.drop (q * 2 ^ d)).take (2 ^ d))
      (b := (l.drop (q * 2 ^ d)).drop (2 ^ d)) (j := i - q * 2 ^ d) ha
      (by rw [List.length_take, List.drop_eq_nil_iff, List.length_drop]; omega)
      (by rw [List.length_take, List.length_drop]; omega) (by rw [← hsplit]; omega) (by rw [← hsplit]; omega)
    rwa [← hsplit, ha, Nat.add_sub_cancel' hstart] at heq

end Cache

end MerkleCache

/-! ## The header cache over a run -/

/-- The hashes of the headers on disk, and the cache over them. -/
structure HeaderIndex (α : Type) where
  hashes : List α
  cache : MerkleCache α

/-- Headers are flushed, blocks are backed up to a height, or a client asks for a proof and gets its answer. -/
inductive HeaderEvent (α : Type) where
  | flush (hashes : List α)
  | backup (height : Nat)
  | request (length index : Nat)

namespace HeaderIndex

variable [CeilLog2] {α : Type} [DecidableEq α] (f : α → α → α)

/-- `populate_header_merkle_cache`. -/
def populate (hashes : List α) (reorgLimit : Nat) : Except MerkleError (HeaderIndex α) := do
  let cache ← MerkleCache.initialized f hashes (max 1 (hashes.length - 1 - reorgLimit))
  .ok ⟨hashes, cache⟩

/-- One event, which nothing else interrupts. `flush_backup` asserts that the height is below that of the database, and
`_backup_fs` truncates the cache. -/
def step (s : HeaderIndex α) : HeaderEvent α → HeaderIndex α
  | .flush hashes => { s with hashes := s.hashes ++ hashes }
  | .backup height =>
    if height + 1 < s.hashes.length then
      match s.cache.truncate (height + 1) with
      | .ok cache => ⟨s.hashes.take (height + 1), cache⟩
      | .error _ => s
    else s
  | .request length index => { s with cache := (s.cache.branchAndRoot f s.hashes length index).2 }

def headerBranchAndRoot (s : HeaderIndex α) (length height : Nat) : Except MerkleError (List α × α) :=
  (s.cache.branchAndRoot f s.hashes length height).1

/-- The proof computed from all the hashes. -/
def plainProof (hashes : List α) (length index : Nat) : Except MerkleError (List α × α) :=
  if length = 0 then .error (.value "length must be positive")
  else if length ≤ index then .error (.value "index must be less than length")
  else if hashes.length < length then .error .missing
  else branchAndRoot f (hashes.take length) index none

variable {f} {s : HeaderIndex α} {n i : Nat}

theorem branchAndRoot_right (h : s.cache.Right f s.hashes) (hlt : s.hashes.length < 2 ^ 29) :
    s.headerBranchAndRoot f n i = plainProof f s.hashes n i ∧
      (s.cache.branchAndRoot f s.hashes n i).2.Right f s.hashes := by
  unfold headerBranchAndRoot plainProof MerkleCache.branchAndRoot
  by_cases hpos : n = 0
  · simpa [hpos] using h
  by_cases hi : n ≤ i
  · simpa [hpos, hi] using h
  rw [if_neg hpos, if_neg hi, if_neg hpos, if_neg hi]
  by_cases hlen : s.hashes.length < n
  · rw [MerkleCache.extendTo_missing h hlen, if_pos hlen]
    exact ⟨rfl, h⟩
  · obtain ⟨c, hc, hright, hle⟩ := MerkleCache.extendTo_spec h hlt (Nat.not_lt.1 hlen)
    rw [hc, if_neg hlen]
    exact ⟨MerkleCache.answer_eq hright hlt hle (Nat.not_le.1 hi), hright⟩

theorem step_right (h : s.cache.Right f s.hashes) (hlt : s.hashes.length < 2 ^ 29) (event : HeaderEvent α) :
    (s.step f event).cache.Right f (s.step f event).hashes := by
  have hle := h.le
  cases event with
  | flush hashes =>
    refine ⟨?_, by simp only [step, List.length_append]; omega⟩
    rw [step, List.take_append_of_le_length hle]
    exact h.level
  | backup height =>
    simp only [step]
    split
    · obtain ⟨c, hc, hright⟩ := MerkleCache.truncate_spec h (Nat.succ_pos height) (t := s.hashes.take (height + 1))
        (List.take_take.trans (by rw [Nat.min_self])) (by rw [List.length_take]; omega)
      rw [hc]
      exact hright
    · exact h
  | request length index => exact (branchAndRoot_right h hlt).2

theorem foldl_step_right (events : List (HeaderEvent α)) (h : s.cache.Right f s.hashes)
    (hlt : ∀ s' ∈ events.scanl (step f) s, s'.hashes.length < 2 ^ 29) :
    (events.foldl (step f) s).cache.Right f (events.foldl (step f) s).hashes ∧
      (events.foldl (step f) s).hashes.length < 2 ^ 29 := by
  induction events generalizing s with
  | nil => exact ⟨h, hlt s (by simp)⟩
  | cons event events ih =>
    rw [List.scanl_cons] at hlt
    exact ih (step_right h (hlt s List.mem_cons_self) event) fun s' hs' => hlt s' (List.mem_cons_of_mem s hs')

/-- **The header cache answers as the plain computation does**, whatever headers, reorganizations and requests came
before, one at a time, as long as there were always fewer than `2 ^ 29` headers. -/
theorem headerProofs_exact (f : α → α → α) (genesis : α) (rest : List α) (reorgLimit : Nat)
    (hrest : (genesis :: rest).length < 2 ^ 29) :
    ∃ s0, populate f (genesis :: rest) reorgLimit = .ok s0 ∧ ∀ (events : List (HeaderEvent α)) (length height : Nat),
      (∀ s ∈ events.scanl (step f) s0, s.hashes.length < 2 ^ 29) →
      (events.foldl (step f) s0).headerBranchAndRoot f length height =
        plainProof f (events.foldl (step f) s0).hashes length height := by
  generalize hhashes : genesis :: rest = hashes at hrest
  have hpos : 0 < hashes.length := by rw [← hhashes]; exact Nat.succ_pos _
  have hsource : sourceFunc hashes 0 (max 1 (hashes.length - 1 - reorgLimit)) =
      .ok (hashes.take (max 1 (hashes.length - 1 - reorgLimit))) := if_pos (.inr (by omega))
  rw [populate, MerkleCache.initialized, treeDepth, branchLength, if_neg (by omega), hsource, ok_bind, ok_bind, ok_bind,
    level_eq _ (by rw [List.length_take]; omega)]
  refine ⟨_, rfl, fun events length height hlt => ?_⟩
  obtain ⟨hright, hbound⟩ := foldl_step_right events ⟨rfl, by dsimp only; omega⟩ hlt
  exact (branchAndRoot_right hright hbound).1

omit [DecidableEq α] in
theorem populate_eq_ok {hashes : List α} {reorgLimit : Nat} (h : populate f hashes reorgLimit = .ok s) :
    s.hashes = hashes := by
  obtain ⟨cache, -, hok⟩ := bind_eq_ok.1 h
  cases hok
  rfl

theorem length_step_backup_le (s : HeaderIndex α) (height : Nat) :
    (s.step f (.backup height)).hashes.length ≤ s.hashes.length := by
  simp only [step]
  split
  · split
    · exact List.length_take_le' ..
    · exact Nat.le_refl _
  · exact Nat.le_refl _

end HeaderIndex

instance exactLog2 : CeilLog2 where
  ceilLog2 := Nat.clog 2
  ceilLog2_eq _ _ := rfl

theorem fourHeaders_exact : ∃ s, HeaderIndex.populate (fun a b : Nat => 10 * a + b) [1, 2, 3] 200 = .ok s ∧
    (([.flush [4], .request 4 2, .backup 1].foldl (HeaderIndex.step fun a b => 10 * a + b) s).headerBranchAndRoot
        (fun a b => 10 * a + b) 2 1) =
      HeaderIndex.plainProof (fun a b => 10 * a + b)
        ([.flush [4], .request 4 2, .backup 1].foldl (HeaderIndex.step fun a b => 10 * a + b) s).hashes 2 1 := by
  obtain ⟨s, hs, hexact⟩ := HeaderIndex.headerProofs_exact (fun a b => 10 * a + b) 1 [2, 3] 200 (by decide)
  refine ⟨s, hs, hexact _ 2 1 fun s' hs' => ?_⟩
  have hlength : s.hashes.length = 3 := congrArg List.length (HeaderIndex.populate_eq_ok hs)
  simp only [List.scanl_cons, List.scanl_nil, List.mem_cons, List.not_mem_nil, or_false] at hs'
  rcases hs' with rfl | rfl | rfl | rfl
  · omega
  · simp [HeaderIndex.step, hlength]
  · simp [HeaderIndex.step, hlength]
  · refine (HeaderIndex.length_step_backup_le _ 1).trans_lt ?_
    simp [HeaderIndex.step, hlength]

/-! ## Transactions in blocks -/

section Blocks

theorem rootFromProof_eq {α : Type} {f : α → α → α} (x : α) (b : List α) (i : Nat) : rootFromProof f x b i =
    if i / 2 ^ b.length ≠ 0 then .error (.value "index out of range for branch") else .ok (fold f x b i) := by
  induction b generalizing x i with
  | nil => simp [rootFromProof, fold]
  | cons y b ih => rw [rootFromProof, ih, fold, Nat.div_div_eq_div_mul, List.length_cons, Nat.pow_succ']

/-- **A proof leads from its leaf to the root.** -/
theorem rootFromProof_branchAndRoot [CeilLog2] {α : Type} {f : α → α → α} {l b : List α} {x r : α} {i : Nat}
    (hx : l[i]? = some x) (hbound : l.length < 2 ^ 29)
    (h : branchAndRoot f l i none = .ok (b, r)) : rootFromProof f x b i = .ok r ∧ i < 2 ^ b.length := by
  have hi := (List.getElem?_eq_some_iff.1 hx).1
  obtain ⟨b', r', h', hsib, hr⟩ := branchAndRoot_spec (f := f) hi hbound none (by simp)
  cases h.symm.trans h'
  rw [Option.getD_none] at hsib hr
  have hlen := congrArg List.length hsib
  rw [length_siblings, List.length_map] at hlen
  have hlt : i < 2 ^ b.length := hi.trans_le (hlen ▸ Nat.le_pow_clog (by decide) _)
  have hfold := fold_siblings hx hsib
  rw [hlen, Nat.div_eq_of_lt hlt, ← List.head?_eq_getElem?, ← hlen, hr] at hfold
  rw [rootFromProof_eq, if_neg (not_not.2 (Nat.div_eq_of_lt hlt)), Option.some.inj hfold]
  exact ⟨rfl, hlt⟩

/-- How a node combines two hashes. -/
def combineHashes (C : Crypto) (a b : Uint256) : Uint256 := C.hash256 (serUint256 a ++ serUint256 b)

theorem merkleLevel_eq (C : Crypto) (l : List Uint256) : merkleLevel C l = pairUp (combineHashes C) l := by
  fun_induction pairUp (combineHashes C) l with
  | case1 a b rest ih => rw [merkleLevel, ih]; rfl
  | case2 a => rfl
  | case3 => rfl

theorem merkleMutated_eq_false_iff (l : List Uint256) : merkleMutated l = false ↔ Unmutated l := by
  fun_induction merkleMutated l with
  | case1 a b rest ih =>
    rw [Bool.or_eq_false_iff, beq_eq_false_iff_ne, ih]
    constructor
    · rintro ⟨hne, hrest⟩ (_ | i) x
      · rintro ⟨⟩ hb
        exact hne (Option.some.inj hb).symm
      · exact hrest i x
    · exact fun h => ⟨fun hab => h 0 a rfl (congrArg some hab.symm), fun i => h (i + 1)⟩
  | case2 l hshort =>
    refine iff_of_true rfl fun i x _ hx => ?_
    rcases l with _ | ⟨a, _ | ⟨b, rest⟩⟩
    · cases hx
    · cases hx
    · exact hshort a b rest rfl

/-- **`ComputeMerkleRoot` in terms of the tree.** -/
theorem merkleLoop_eq (C : Crypto) {k : Nat} {l : List Uint256} (h : l.length ≤ k) (mutated : Bool) :
    (merkleLoop C k l mutated).1 = (up (combineHashes C) (Nat.clog 2 l.length) l).headD 0 ∧
      ((merkleLoop C k l mutated).2 = false ↔ mutated = false ∧
        ∀ d < Nat.clog 2 l.length, Unmutated (up (combineHashes C) d l)) := by
  induction k generalizing l mutated with
  | zero =>
    rw [List.eq_nil_of_length_eq_zero (Nat.le_zero.1 h)]
    simp [merkleLoop, up]
  | succ k ih =>
    rw [merkleLoop]
    split
    · next hlen =>
      rw [Nat.clog_of_right_le_one hlen]
      simp [up]
    · have hlength := length_pairUp (f := combineHashes C) l
      have hclog := clog_length_up (f := combineHashes C) (d := 1) (l := l) (by omega)
      rw [show up (combineHashes C) 1 l = pairUp (combineHashes C) l from rfl, Nat.add_comm] at hclog
      rw [merkleLevel_eq, hclog, Nat.forall_lt_succ_left]
      obtain ⟨hroot, hflag⟩ := ih (l := pairUp (combineHashes C) l) (by omega) (mutated || merkleMutated l)
      rw [hroot, hflag, Bool.or_eq_false_iff, merkleMutated_eq_false_iff, and_assoc]
      exact ⟨rfl, Iff.rfl⟩

variable {E : Env} {block block' : CBlock} {chainHeight chainHeight' : Int}
  {fCheckPOW fCheckPOW' fCheckSig fCheckSig' : Bool}

/-- The ids of the transactions of a block. -/
def txids (C : Crypto) (block : CBlock) : List Uint256 := block.vtx.map (·.getHash C)

theorem checkBlock_tree (h : checkBlock E block chainHeight fCheckPOW true fCheckSig = .ok ()) :
    up (combineHashes E.crypto) (Nat.clog 2 (txids E.crypto block).length)
      (txids E.crypto block) = [block.hashMerkleRoot] ∧
      ∀ d < Nat.clog 2 (txids E.crypto block).length,
        Unmutated (up (combineHashes E.crypto) d (txids E.crypto block)) := by
  obtain ⟨tx0, rest, hvtx, -⟩ := (checkBlock_eq_ok E h).head
  obtain ⟨-, -, h⟩ := bind_eq_ok.1 h
  obtain ⟨-, h⟩ := require_bind_eq_ok.1 h
  obtain ⟨⟨⟩, hmerkle, -⟩ := bind_eq_ok.1 h
  obtain ⟨hroot, hmutated⟩ := require_bind_eq_ok.1 hmerkle
  have hfalse : (blockMerkleRoot E.crypto block).2 = false := by simpa using hmutated
  obtain ⟨hhead, hflag⟩ := merkleLoop_eq E.crypto (Nat.le_refl (txids E.crypto block).length) false
  obtain ⟨r, hr⟩ := exists_up (f := combineHashes E.crypto) (Nat.le_pow_clog (by decide) (txids E.crypto block).length)
    (by simp [txids, hvtx])
  rw [hr] at hhead
  exact ⟨by rw [hr, eq_of_beq hroot]; exact congrArg (fun r => [r]) hhead.symm, (hflag.1 hfalse).2⟩

theorem checkBlock_length (h : checkBlock E block chainHeight fCheckPOW true fCheckSig = .ok ()) :
    (txids E.crypto block).length < 2 ^ 29 := by
  obtain ⟨-, -, h⟩ := bind_eq_ok.1 h
  obtain ⟨-, h⟩ := require_bind_eq_ok.1 h
  obtain ⟨⟨⟩, -, h⟩ := bind_eq_ok.1 h
  obtain ⟨hsize, -⟩ := require_bind_eq_ok.1 h
  obtain ⟨-, hcount, -⟩ := of_decide_eq_true hsize
  rw [txids, List.length_map]
  exact (Nat.le_div_iff_mul_le (by decide)).2 hcount |>.trans_lt (by decide)

/-- **A proof of the indexer leads to the root that the node has checked**, and no proof of its length leads there from
another hash, unless the two combine different pairs of hashes to the same hash. -/
theorem merkleProof_sound [CeilLog2] (h : checkBlock E block chainHeight fCheckPOW true fCheckSig = .ok ()) {pos : Nat}
    {txid : Uint256} (htx : (txids E.crypto block)[pos]? = some txid) : ∃ branch,
    branchAndRoot (combineHashes E.crypto) (txids E.crypto block) pos none = .ok (branch, block.hashMerkleRoot) ∧
    rootFromProof (combineHashes E.crypto) txid branch pos = .ok block.hashMerkleRoot ∧
    ∀ hash branch', branch'.length = branch.length →
      rootFromProof (combineHashes E.crypto) hash branch' pos = .ok block.hashMerkleRoot →
      hash = txid ∨ Collides (combineHashes E.crypto)
        (foldPairs (combineHashes E.crypto) hash branch' pos ++ foldPairs (combineHashes E.crypto) txid branch pos) := by
  obtain ⟨hroot, -⟩ := checkBlock_tree h
  have hlength := checkBlock_length h
  have hpos := (List.getElem?_eq_some_iff.1 htx).1
  obtain ⟨branch, r, hbranch, -, hr⟩ := branchAndRoot_spec (f := combineHashes E.crypto) hpos hlength none (by simp)
  rw [Option.getD_none, hroot] at hr
  cases hr
  obtain ⟨hproof, hlt⟩ := rootFromProof_branchAndRoot htx hlength hbranch
  refine ⟨branch, hbranch, hproof, fun hash branch' hlen heq => ?_⟩
  have hzero : pos / 2 ^ branch.length = 0 := Nat.div_eq_of_lt hlt
  rw [rootFromProof_eq, if_neg (by rw [hlen]; exact not_not.2 hzero)] at heq
  rw [rootFromProof_eq, if_neg (not_not.2 hzero), ← heq] at hproof
  exact or_iff_not_imp_right.2 fun hc =>
    eq_of_fold_eq hc (List.subset_append_left _ _) (List.subset_append_right _ _) hlen (Except.ok.inj hproof).symm

theorem undoBlock_checked : checkBlock (.sample .main 1785326464) undoBlock 0 true true true = .ok () := by decide +kernel

theorem undoTx_proof : ∃ branch,
    branchAndRoot (combineHashes .sample) (txids .sample undoBlock) 1 none = .ok (branch, undoBlock.hashMerkleRoot) ∧
    rootFromProof (combineHashes .sample) (paymentTx.getHash .sample) branch 1 = .ok undoBlock.hashMerkleRoot := by
  obtain ⟨branch, hbranch, hproof, -⟩ := @merkleProof_sound _ _ _ _ _ _ undoBlock_checked 1
    (paymentTx.getHash .sample) rfl
  exact ⟨branch, hbranch, hproof⟩

/-- **A root that the node accepts commits to the transactions**, among blocks with the same number of levels, unless the
two trees combine different pairs of hashes to the same hash. -/
theorem merkleRoot_commits (h : checkBlock E block chainHeight fCheckPOW true fCheckSig = .ok ())
    (h' : checkBlock E block' chainHeight' fCheckPOW' true fCheckSig' = .ok ())
    (hroot : block.hashMerkleRoot = block'.hashMerkleRoot)
    (hlevels : Nat.clog 2 block.vtx.length = Nat.clog 2 block'.vtx.length) :
    txids E.crypto block = txids E.crypto block' ∨ Collides (combineHashes E.crypto)
      (upPairs (combineHashes E.crypto) (Nat.clog 2 block.vtx.length) (txids E.crypto block) ++
        upPairs (combineHashes E.crypto) (Nat.clog 2 block.vtx.length) (txids E.crypto block')) := by
  obtain ⟨htop, hunmutated⟩ := checkBlock_tree h
  obtain ⟨htop', hunmutated'⟩ := checkBlock_tree h'
  rw [txids, List.length_map, ← txids] at htop hunmutated htop' hunmutated'
  rw [← hlevels] at htop' hunmutated'
  exact or_iff_not_imp_right.2 fun hc => eq_of_up_eq hc (List.subset_append_left _ _) (List.subset_append_right _ _)
    hunmutated hunmutated' (by rw [htop, htop', hroot])

theorem undoBlock_commits : txids .sample undoBlock = txids .sample { undoBlock with nVersion := 8 } ∨
    Collides (combineHashes .sample) (upPairs (combineHashes .sample) 1 (txids .sample undoBlock) ++
      upPairs (combineHashes .sample) 1 (txids .sample { undoBlock with nVersion := 8 })) := by
  have hchecked : checkBlock (.sample .main 1785326464) { undoBlock with nVersion := 8 } 0 false true true = .ok () := by
    decide +kernel
  exact merkleRoot_commits undoBlock_checked hchecked rfl rfl

end Blocks

end CodexaCoin.Indexer
