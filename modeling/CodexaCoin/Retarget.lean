import CodexaCoin.Chain

/-!
# The retarget rule of the main network

`GetNextTargetRequired` scales the previous target of a block kind by `(896 + 2 * spacing) / 1024`, caps it at the limit
of the kind and stores it in compact form, which keeps the leading bytes only.
-/

namespace CodexaCoin

open Consensus IndexChain

/-! ## Compact rounding -/

section Compact

def compactShift (a : ArithUint256) : Nat :=
  8 * (a.bits / 8 - 2)

def compactRound (a : ArithUint256) : Nat :=
  a.toNat / 2 ^ compactShift a * 2 ^ compactShift a

variable {a b : ArithUint256} {n : Nat}

theorem bits_pos (ha : a.toNat ≠ 0) : 0 < a.bits := by
  rw [ArithUint256.bits, if_neg ha]
  exact Nat.succ_pos _

theorem two_pow_pred_bits_le (ha : a.toNat ≠ 0) : 2 ^ (a.bits - 1) ≤ a.toNat := by
  have h := ArithUint256.two_pow_bits_le ha
  have hpow : 2 ^ a.bits = 2 ^ (a.bits - 1) * 2 := by
    rw [← Nat.pow_succ]; congr 1; have := bits_pos ha; omega
  omega

theorem bits_mono (h : a.toNat ≤ b.toNat) : a.bits ≤ b.bits := by
  by_cases ha : a.toNat = 0
  · rw [ArithUint256.bits, if_pos ha]
    exact Nat.zero_le _
  · have hpow : 2 ^ (a.bits - 1) < 2 ^ b.bits :=
      Nat.lt_of_le_of_lt ((two_pow_pred_bits_le ha).trans h) b.toNat_lt_two_pow_bits
    have hlt := (Nat.pow_lt_pow_iff_right (by decide)).1 hpow
    omega

theorem mantissa_bounds (hn : n = a.bits / 8 + 1) :
    (if n ≤ 3 then a.toNat <<< (8 * (3 - n)) else a.toNat >>> (8 * (n - 3))) < 2 ^ 23 := by
  have hlt : a.toNat < 2 ^ (8 * n - 1) :=
    Nat.lt_of_lt_of_le a.toNat_lt_two_pow_bits (Nat.pow_le_pow_right (by omega) (by omega))
  split
  · have hpow : 2 ^ 23 = 2 ^ (8 * n - 1) * 2 ^ (8 * (3 - n)) := by rw [← Nat.pow_add]; congr 1; omega
    rw [Nat.shiftLeft_eq, hpow]
    exact Nat.mul_lt_mul_of_pos_right hlt (by positivity)
  · have hpow : 2 ^ (8 * n - 1) = 2 ^ (8 * (n - 3)) * 2 ^ 23 := by rw [← Nat.pow_add]; congr 1; omega
    rw [Nat.shiftRight_eq_div_pow]
    exact Nat.div_lt_of_lt_mul (hpow ▸ hlt)

theorem and_signBit_eq_zero_iff {m : Nat} (hm : m < 2 ^ 24) : m &&& 0x00800000 = 0 ↔ m < 2 ^ 23 := by
  constructor
  · intro hbit
    by_contra hge
    have htest : m.testBit 23 = true := Nat.testBit_of_two_pow_le_and_two_pow_add_one_gt (by omega) (by omega)
    have h23 := congrArg (fun x => Nat.testBit x 23) hbit
    simp only [Nat.testBit_and, htest, Nat.zero_testBit, Bool.true_and] at h23
    exact absurd h23 (by decide)
  · intro hlt
    rw [show (0x00800000 : Nat) = 2 ^ 23 from rfl, Nat.and_two_pow, Nat.testBit_lt_two_pow hlt]
    rfl

theorem getCompact_eq (ha : a.toNat ≠ 0) (hn : n = a.bits / 8 + 1) :
    getCompact a =
      (if n ≤ 3 then a.toNat <<< (8 * (3 - n)) else a.toNat >>> (8 * (n - 3))) ||| n <<< 24 := by
  have hpos := bits_pos ha
  obtain ⟨hm24, -⟩ := getCompact_mantissa a rfl rfl
  simp only [getCompact]
  by_cases h8 : a.bits % 8 = 0
  · -- the leading byte is full: its top bit is the sign bit, and one more byte is counted
    have hsize : (a.bits + 7) / 8 = a.bits / 8 := by omega
    rw [hsize] at hm24 ⊢
    obtain ⟨c, hc⟩ : ∃ c, a.bits / 8 = c + 1 := ⟨a.bits / 8 - 1, by omega⟩
    rw [hc] at hm24 ⊢
    have hlow : 2 ^ (8 * (c + 1) - 1) ≤ a.toNat := by
      rw [show 8 * (c + 1) - 1 = a.bits - 1 by omega]
      exact two_pow_pred_bits_le ha
    have hge : 2 ^ 23 ≤ if c + 1 ≤ 3 then a.toNat <<< (8 * (3 - (c + 1))) else a.toNat >>> (8 * (c + 1 - 3)) := by
      split
      · rw [Nat.shiftLeft_eq, show 2 ^ 23 = 2 ^ (8 * (c + 1) - 1) * 2 ^ (8 * (3 - (c + 1))) by
          rw [← Nat.pow_add]; congr 1; omega]
        exact Nat.mul_le_mul_right _ hlow
      · rw [Nat.shiftRight_eq_div_pow, Nat.le_div_iff_mul_le (by positivity), ← Nat.pow_add,
          show 23 + 8 * (c + 1 - 3) = 8 * (c + 1) - 1 by omega]
        exact hlow
    rw [if_pos (fun hbit => absurd ((and_signBit_eq_zero_iff hm24).1 hbit) (by omega))]
    subst hn
    rw [hc]
    congr 1
    -- dropping the byte after the shift or before it
    rcases Nat.lt_trichotomy (c + 1) 3 with hlt | heq | hgt
    · rw [if_pos (by omega), if_pos (by omega), Nat.shiftLeft_eq, Nat.shiftLeft_eq, Nat.shiftRight_eq_div_pow,
        show 2 ^ (8 * (3 - (c + 1))) = 2 ^ (8 * (3 - (c + 1 + 1))) * 2 ^ 8 by rw [← Nat.pow_add]; congr 1; omega,
        ← Nat.mul_assoc, Nat.mul_div_cancel _ (by decide)]
    · rw [if_pos (by omega), if_neg (by omega), heq]
      rfl
    · rw [if_neg (by omega), if_neg (by omega), ← Nat.shiftRight_add]
      congr 1
      omega
  · have hsize : (a.bits + 7) / 8 = n := by omega
    rw [hsize] at hm24 ⊢
    rw [if_neg (not_not.2 ((and_signBit_eq_zero_iff hm24).2 (mantissa_bounds hn)))]

/-- **The compact form of a number rounds it down to a multiple of a power of 256.** -/
theorem setCompact_getCompact_toNat (ha : a.toNat ≠ 0) :
    (setCompact (getCompact a)).target.toNat = compactRound a := by
  have hm := mantissa_bounds (a := a) rfl
  rw [getCompact_eq ha rfl, setCompact_or hm, compactRound, compactShift]
  have hlt := a.isLt
  by_cases h : a.bits / 8 + 1 ≤ 3
  · rw [if_pos h, if_pos h, show a.bits / 8 - 2 = 0 by omega, BitVec.toNat_ofNat, Nat.shiftLeft_shiftRight,
      Nat.mod_eq_of_lt hlt]
    simp
  · rw [if_neg h, if_neg h, show a.bits / 8 + 1 - 3 = a.bits / 8 - 2 by omega, BitVec.toNat_shiftLeft,
      BitVec.toNat_ofNat, Nat.shiftRight_eq_div_pow, Nat.shiftLeft_eq,
      Nat.mod_eq_of_lt (Nat.lt_of_le_of_lt (Nat.div_le_self _ _) hlt),
      Nat.mod_eq_of_lt (Nat.lt_of_le_of_lt (Nat.div_mul_le_self _ _) hlt)]

theorem compactRound_pos (ha : a.toNat ≠ 0) : 0 < compactRound a := by
  have hle : 2 ^ compactShift a ≤ a.toNat :=
    (Nat.pow_le_pow_right (by decide) (by have := bits_pos ha; unfold compactShift; omega)).trans
      (two_pow_pred_bits_le ha)
  exact Nat.mul_pos (Nat.div_pos hle (by positivity)) (by positivity)

/-- **Rounding keeps the order**: where the steps get coarser, a power of two that both grids have lies between. -/
theorem compactRound_mono (h : a.toNat ≤ b.toNat) : compactRound a ≤ compactRound b := by
  have hbits := bits_mono h
  rcases Nat.eq_or_lt_of_le (Nat.div_le_div_right (c := 8) hbits) with heq | hlt
  · rw [compactRound, compactRound, compactShift, compactShift, heq]
    exact Nat.mul_le_mul_right _ (Nat.div_le_div_right h)
  · have hb : b.toNat ≠ 0 := by
      intro h0
      rw [ArithUint256.bits, ArithUint256.bits, if_pos h0] at hlt
      omega
    have hbelow : a.toNat ≤ 2 ^ (8 * (b.bits / 8) - 1) :=
      a.toNat_lt_two_pow_bits.le.trans (Nat.pow_le_pow_right (by decide) (by omega))
    have habove : 2 ^ (8 * (b.bits / 8) - 1) ≤ b.toNat :=
      (Nat.pow_le_pow_right (by decide) (by omega)).trans (two_pow_pred_bits_le hb)
    have hgrid : 2 ^ (8 * (b.bits / 8) - 1) = 2 ^ (8 * (b.bits / 8) - 1 - compactShift b) * 2 ^ compactShift b := by
      rw [← Nat.pow_add]; congr 1; unfold compactShift; omega
    calc compactRound a ≤ a.toNat := Nat.div_mul_le_self _ _
      _ ≤ 2 ^ (8 * (b.bits / 8) - 1) := hbelow
      _ ≤ compactRound b := by
        rw [hgrid] at habove ⊢
        exact Nat.mul_le_mul_right _ ((Nat.le_div_iff_mul_le (by positivity)).2 habove)

theorem setCompact_getCompact_flags (ha : a.toNat ≠ 0) (hlt : a.toNat < 2 ^ 255) :
    (setCompact (getCompact a)).fNegative = false ∧ (setCompact (getCompact a)).fOverflow = false := by
  have hm := mantissa_bounds (a := a) rfl
  have hbits : a.bits ≤ 255 := by
    have := (Nat.pow_lt_pow_iff_right (by decide)).1 (Nat.lt_of_le_of_lt (two_pow_pred_bits_le ha) hlt)
    omega
  rw [getCompact_eq ha rfl]
  generalize (if a.bits / 8 + 1 ≤ 3 then a.toNat <<< (8 * (3 - (a.bits / 8 + 1)))
    else a.toNat >>> (8 * (a.bits / 8 + 1 - 3))) = m at hm ⊢
  have hor : m ||| (a.bits / 8 + 1) <<< 24 = 2 ^ 24 * (a.bits / 8 + 1) + m := by
    rw [Nat.or_comm, Nat.shiftLeft_eq, Nat.mul_comm, Nat.two_pow_add_eq_or_of_lt (by omega)]
  have hsign : (m ||| (a.bits / 8 + 1) <<< 24) &&& 0x00800000 = 0 := by
    rw [Nat.and_or_distrib_right, (and_signBit_eq_zero_iff (by omega)).2 hm, Nat.zero_or,
      show (0x00800000 : Nat) = 2 ^ 23 from rfl, Nat.and_two_pow, Nat.testBit_shiftLeft]
    simp
  have hsize : (m ||| (a.bits / 8 + 1) <<< 24) >>> 24 ≤ 32 := by
    rw [hor, Nat.shiftRight_eq_div_pow]
    omega
  constructor
  · simp only [setCompact, hsign]
    simp
  · simp only [setCompact]
    exact decide_eq_false (by omega)

end Compact

/-! ## One retarget -/

/-- The limit of a block kind on the main network, whose genesis block is younger than every protocol change. -/
def mainTargetLimit (fProofOfStake : Bool) : Nat :=
  if fProofOfStake then Network.mainParams.posLimitV2 else Network.mainParams.powLimit

theorem mainTargetLimit_lt (fProofOfStake : Bool) : mainTargetLimit fProofOfStake < 2 ^ 236 := by
  cases fProofOfStake <;> decide

theorem mainTargetLimit_pos (fProofOfStake : Bool) : 0 < mainTargetLimit fProofOfStake := by
  cases fProofOfStake <;> decide

section Main

variable {nTime : Nat} (h : Network.mainParams.genesisTime ≤ nTime)

include h

theorem main_protocol : Network.mainParams.isProtocolV1RetargetingFixed nTime = true ∧
    Network.mainParams.isProtocolV2 nTime = true ∧ Network.mainParams.isProtocolV3 nTime = true := by
  have hg : 1785326400 ≤ nTime := h
  refine ⟨decide_eq_true ⟨?_, by omega⟩, decide_eq_true ⟨?_, by omega⟩, decide_eq_true ⟨?_, by omega⟩⟩
  · exact (by omega : (nTime : Int) > 1395631999)
  · exact (by omega : (nTime : Int) > 1407053625)
  · exact (by omega : (nTime : Int) > 1444028400)

theorem getTargetLimit_main (fProofOfStake : Bool) :
    getTargetLimit .main nTime fProofOfStake = BitVec.ofNat 256 (mainTargetLimit fProofOfStake) := by
  obtain ⟨-, hv2, -⟩ := main_protocol h
  have hv2' : Network.main.params.isProtocolV2 nTime = true := hv2
  cases fProofOfStake
  · rfl
  · rw [getTargetLimit, if_pos rfl, if_pos hv2']
    rfl

end Main

/-- A retarget on the main network: the last block of a kind, with a usable target, and the time of the one before. -/
structure Retarget where
  pindexLast : CBlockIndex
  nFirstBlockTime : Int
  fProofOfStake : Bool
  genesis_le : Network.mainParams.genesisTime ≤ pindexLast.nTime
  spacing_pos : 1 ≤ pindexLast.nTime - nFirstBlockTime
  two_le : 2 ≤ (setCompact pindexLast.nBits).target.toNat
  le_limit : (setCompact pindexLast.nBits).target.toNat ≤ mainTargetLimit fProofOfStake

namespace Retarget

variable (r : Retarget)

def target : ArithUint256 := (setCompact r.pindexLast.nBits).target

def spacing : Nat := (r.pindexLast.nTime - r.nFirstBlockTime).toNat

/-- What `CalculateNextTargetRequired` returns. -/
def next : Nat := calculateNextTargetRequired .main r.pindexLast r.nFirstBlockTime r.fProofOfStake

def factor : Nat := 896 + 2 * min r.spacing 640

def unrounded : Nat := min (mainTargetLimit r.fProofOfStake) (r.target.toNat * r.factor / 1024)

def newTarget : Nat := (setCompact r.next).target.toNat

theorem factor_bounds : 898 ≤ r.factor ∧ r.factor ≤ 2176 := by
  have := r.spacing_pos
  unfold factor spacing
  omega

theorem product_lt : r.target.toNat * r.factor < 2 ^ 256 := by
  have hT : r.target.toNat < 2 ^ 236 := Nat.lt_of_le_of_lt r.le_limit (mainTargetLimit_lt _)
  calc r.target.toNat * r.factor ≤ 2 ^ 236 * 2176 := Nat.mul_le_mul hT.le r.factor_bounds.2
    _ < 2 ^ 256 := by decide

/-- **The 256-bit product does not wrap.** -/
theorem mulAssign32_factor : (r.target.mulAssign32 r.factor).toNat = r.target.toNat * r.factor := by
  have hf : ((r.factor : Int) % 2 ^ 32).toNat = r.factor := by have := r.factor_bounds; omega
  rw [ArithUint256.mulAssign32_toNat, hf, Nat.mod_eq_of_lt r.product_lt]

theorem quotient_toNat : ((r.target.mulAssign32 r.factor).div (BitVec.ofInt 256 1024)).toNat =
    r.target.toNat * r.factor / 1024 := by
  rw [ArithUint256.div_eq _ (by decide), BitVec.toNat_udiv, r.mulAssign32_factor]
  rfl

theorem quotient_pos : 0 < r.target.toNat * r.factor / 1024 := by
  have hprod : 2 * 898 ≤ r.target.toNat * r.factor := Nat.mul_le_mul r.two_le r.factor_bounds.1
  omega

theorem capped_spacing : (if r.pindexLast.nTime - r.nFirstBlockTime > 64 * 10 then 64 * 10
    else r.pindexLast.nTime - r.nFirstBlockTime) = ((min r.spacing 640 : Nat) : Int) := by
  have := r.spacing_pos
  unfold spacing
  split <;> omega

theorem clamp_eq {x : ArithUint256} {limit : Nat} (hpos : 0 < x.toNat) (hlimit : limit < 2 ^ 256) :
    (if x = 0 ∨ x > BitVec.ofNat 256 limit then BitVec.ofNat 256 limit else x) =
      BitVec.ofNat 256 (min limit x.toNat) := by
  have hne : x ≠ 0 := fun h0 => by rw [h0] at hpos; exact absurd hpos (by decide)
  have hofNat : (BitVec.ofNat 256 limit).toNat = limit := by rw [BitVec.toNat_ofNat, Nat.mod_eq_of_lt hlimit]
  by_cases hgt : limit < x.toNat
  · rw [if_pos (Or.inr (BitVec.lt_def.2 (by rwa [hofNat]))), Nat.min_eq_left hgt.le]
  · rw [if_neg (by
      rintro (h0 | hlt)
      · exact hne h0
      · exact hgt (by rw [← hofNat]; exact BitVec.lt_def.1 hlt)), Nat.min_eq_right (by omega), BitVec.ofNat_toNat,
      BitVec.setWidth_eq]

/-- **One retarget as a formula.** -/
theorem next_eq : r.next = getCompact (BitVec.ofNat 256 r.unrounded) := by
  obtain ⟨hv1, hv2, hv3⟩ := main_protocol r.genesis_le
  have hv1' : Network.main.params.isProtocolV1RetargetingFixed r.pindexLast.nTime = true := hv1
  have hv2' : Network.main.params.isProtocolV2 r.pindexLast.nTime = true := hv2
  have hv3' : Network.main.params.isProtocolV3 r.pindexLast.nTime = true := hv3
  have hflags : (if r.fProofOfStake then Network.main.params.fPoSNoRetargeting
      else Network.main.params.fPowNoRetargeting) = false := by cases r.fProofOfStake <;> rfl
  have hspacing : Network.main.params.nTargetSpacing = 64 := rfl
  have htimespan : Network.main.params.nTargetTimespan = 960 := rfl
  have hneg : ¬((r.pindexLast.nTime : Int) - r.nFirstBlockTime < 0) := by have := r.spacing_pos; omega
  have hfactor : (960 / 64 - 1) * 64 + ((min r.spacing 640 : Nat) : Int) + ((min r.spacing 640 : Nat) : Int) =
      (r.factor : Int) := by unfold factor; omega
  simp only [next, calculateNextTargetRequired, hflags, hv1', hv2', hv3', hspacing, htimespan, hneg, true_and,
    if_true, if_false, and_false, Bool.false_eq_true, r.capped_spacing, hfactor, getTargetLimit_main r.genesis_le]
  rw [show (setCompact r.pindexLast.nBits).target = r.target from rfl, show ((960 / 64 + 1) * 64 : Int) = 1024 from rfl]
  have hq := r.quotient_toNat
  rw [clamp_eq (by rw [hq]; exact r.quotient_pos) ((mainTargetLimit_lt _).trans (by decide)), hq]
  rfl

theorem unrounded_pos : 0 < r.unrounded :=
  Nat.lt_min.2 ⟨mainTargetLimit_pos _, r.quotient_pos⟩

theorem unrounded_toNat : (BitVec.ofNat 256 r.unrounded).toNat = r.unrounded := by
  have hlt : r.unrounded < 2 ^ 256 :=
    Nat.lt_of_le_of_lt (Nat.min_le_left _ _) ((mainTargetLimit_lt _).trans (by decide))
  rw [BitVec.toNat_ofNat, Nat.mod_eq_of_lt hlt]

theorem newTarget_eq : r.newTarget = compactRound (BitVec.ofNat 256 r.unrounded) := by
  rw [newTarget, next_eq, setCompact_getCompact_toNat (by rw [unrounded_toNat]; exact r.unrounded_pos.ne')]

variable {r} {r' : Retarget}

theorem unrounded_mono (hkind : r.fProofOfStake = r'.fProofOfStake) (hT : r.target.toNat ≤ r'.target.toNat)
    (hs : r.spacing ≤ r'.spacing) : r.unrounded ≤ r'.unrounded := by
  have hf : r.factor ≤ r'.factor := by unfold factor; omega
  unfold unrounded
  rw [hkind]
  exact min_le_min_left _ (Nat.div_le_div_right (Nat.mul_le_mul hT hf))

theorem newTarget_mono (hkind : r.fProofOfStake = r'.fProofOfStake) (hT : r.target.toNat ≤ r'.target.toNat)
    (hs : r.spacing ≤ r'.spacing) : r.newTarget ≤ r'.newTarget := by
  rw [newTarget_eq, newTarget_eq]
  refine compactRound_mono ?_
  rw [unrounded_toNat, unrounded_toNat]
  exact unrounded_mono hkind hT hs

theorem target_drop_le (r : Retarget) : r.target.toNat * 898 / 1024 ≤ r.unrounded ∧
    compactRound (BitVec.ofNat 256 (r.target.toNat * 898 / 1024)) ≤ r.newTarget := by
  have hlow : r.target.toNat * 898 / 1024 ≤ r.unrounded := by
    have hlimit : r.target.toNat ≤ mainTargetLimit r.fProofOfStake := r.le_limit
    exact le_min (by omega) (Nat.div_le_div_right (Nat.mul_le_mul_left _ r.factor_bounds.1))
  refine ⟨hlow, ?_⟩
  rw [newTarget_eq]
  refine compactRound_mono ?_
  rw [unrounded_toNat, BitVec.toNat_ofNat]
  exact (Nat.mod_le _ _).trans hlow

end Retarget

/-! ## Chains -/

/-- A chain on the main network's genesis block that keeps the time rule of `ContextualCheckBlockHeader`. -/
inductive AcceptedTimes : IndexChain → Prop
  | genesis (pindex : CBlockIndex) (h : pindex.nTime = Network.mainParams.genesisTime) : AcceptedTimes [pindex]
  | connect (pindex : CBlockIndex) (chain : IndexChain) (h : AcceptedTimes chain)
      (htime : (pindex.nTime : Int) > getMedianTimePast .main chain) : AcceptedTimes (pindex :: chain)

namespace AcceptedTimes

variable {chain : IndexChain}

theorem ne_nil (h : AcceptedTimes chain) : chain ≠ [] := by
  cases h <;> exact List.cons_ne_nil _ _

theorem increasing (h : AcceptedTimes chain) :
    (∀ pindex ∈ chain, Network.mainParams.genesisTime ≤ pindex.nTime) ∧
      chain.Pairwise fun later earlier => earlier.nTime < later.nTime := by
  induction h with
  | genesis pindex h =>
    refine ⟨fun p hp => ?_, List.pairwise_singleton _ _⟩
    rw [List.mem_singleton.1 hp, h]
  | connect pindex chain hchain htime ih =>
    obtain ⟨tip, rest, rfl⟩ := List.exists_cons_of_ne_nil hchain.ne_nil
    obtain ⟨hfrom, hpair⟩ := ih
    have hv2 : Network.main.params.isProtocolV2 tip.nTime = true := (main_protocol (hfrom tip (by simp))).2.1
    simp only [getMedianTimePast, hv2, if_true] at htime
    have htip : tip.nTime < pindex.nTime := by omega
    have hlater : ∀ p ∈ tip :: rest, p.nTime < pindex.nTime := by
      intro p hp
      rcases List.mem_cons.1 hp with rfl | hp
      · exact htip
      · exact (List.rel_of_pairwise_cons hpair hp).trans htip
    refine ⟨fun p hp => ?_, List.pairwise_cons.2 ⟨hlater, hpair⟩⟩
    rcases List.mem_cons.1 hp with rfl | hp
    · exact (hfrom tip (by simp)).trans htip.le
    · exact hfrom p hp

end AcceptedTimes

/-- `pindex` is the last block of a kind on a chain, and `before` is the chain below it. -/
def LastOfKind (fProofOfStake : Bool) (chain : IndexChain) (pindex : CBlockIndex) (before : IndexChain) : Prop :=
  ∃ later, chain = later ++ pindex :: before ∧ (∀ b ∈ later, b.fProofOfStake ≠ fProofOfStake) ∧
    pindex.fProofOfStake = fProofOfStake

theorem lastOfKind_of_getLastBlockIndex {fProofOfStake : Bool} {chain : IndexChain} {pindex pprev : CBlockIndex}
    {rest : IndexChain} (h : getLastBlockIndex fProofOfStake chain = pindex :: pprev :: rest) :
    LastOfKind fProofOfStake chain pindex (pprev :: rest) := by
  fun_induction getLastBlockIndex fProofOfStake chain with
  | case1 p pp r hkind ih =>
    obtain ⟨later, hchain, hlater, hp⟩ := ih h
    refine ⟨p :: later, by rw [hchain]; rfl, ?_, hp⟩
    exact List.forall_mem_cons.2 ⟨by simpa using hkind, hlater⟩
  | case2 p pp r hkind =>
    cases h
    exact ⟨[], rfl, by simp, by simpa using hkind⟩
  | case3 chain hshort =>
    subst h
    exact absurd rfl (hshort _ _ _)

namespace AcceptedTimes

variable {chain : IndexChain}

theorem getNextTargetRequired_cases (h : AcceptedTimes chain) (fProofOfStake : Bool) :
    getNextTargetRequired .main chain fProofOfStake =
        getCompact (BitVec.ofNat 256 (mainTargetLimit fProofOfStake)) ∨
      ∃ pindexPrev before pindexPrevPrev rest, LastOfKind fProofOfStake chain pindexPrev before ∧
        LastOfKind fProofOfStake before pindexPrevPrev rest ∧
        getNextTargetRequired .main chain fProofOfStake =
          calculateNextTargetRequired .main pindexPrev pindexPrevPrev.nTime fProofOfStake ∧
        1 ≤ (pindexPrev.nTime : Int) - pindexPrevPrev.nTime := by
  obtain ⟨hfrom, hpair⟩ := h.increasing
  obtain ⟨tip, rest, rfl⟩ := List.exists_cons_of_ne_nil h.ne_nil
  have hlimit := getTargetLimit_main (hfrom tip (by simp)) fProofOfStake
  have hsuffix := getLastBlockIndex_suffix fProofOfStake (tip :: rest)
  simp only [getNextTargetRequired, hlimit]
  rcases hlast : getLastBlockIndex fProofOfStake (tip :: rest) with _ | ⟨pindexPrev, _ | ⟨pprev, rest1⟩⟩
  · exact Or.inl rfl
  · exact Or.inl rfl
  · have hsuffix' := getLastBlockIndex_suffix fProofOfStake (pprev :: rest1)
    rw [hlast] at hsuffix
    dsimp only
    rcases hprev : getLastBlockIndex fProofOfStake (pprev :: rest1) with _ | ⟨pindexPrevPrev, _ | ⟨_, rest2⟩⟩
    · exact Or.inl rfl
    · exact Or.inl rfl
    · rw [hprev] at hsuffix'
      -- the block before the last of its kind is one of the last one's ancestors
      have hmem : pindexPrevPrev ∈ pprev :: rest1 := hsuffix'.subset (by simp)
      have hlt := List.rel_of_pairwise_cons (hpair.sublist hsuffix.sublist) hmem
      refine Or.inr ⟨pindexPrev, _, pindexPrevPrev, _, lastOfKind_of_getLastBlockIndex hlast,
        lastOfKind_of_getLastBlockIndex hprev, ?_, by omega⟩
      simp

theorem clamp_range (x : ArithUint256) {limit : Nat} (hpos : 0 < limit) (hlt : limit < 2 ^ 256) :
    (if x = 0 ∨ x > BitVec.ofNat 256 limit then BitVec.ofNat 256 limit else x).toNat ≠ 0 ∧
      (if x = 0 ∨ x > BitVec.ofNat 256 limit then BitVec.ofNat 256 limit else x).toNat ≤ limit := by
  have hofNat : (BitVec.ofNat 256 limit).toNat = limit := by rw [BitVec.toNat_ofNat, Nat.mod_eq_of_lt hlt]
  split
  · rw [hofNat]
    exact ⟨hpos.ne', le_refl _⟩
  · next hx =>
    rw [not_or] at hx
    refine ⟨fun h0 => hx.1 (BitVec.eq_of_toNat_eq h0), ?_⟩
    rw [← hofNat]
    exact BitVec.not_lt.1 hx.2

theorem getNextTargetRequired_eq_getCompact (h : AcceptedTimes chain) (fProofOfStake : Bool) :
    ∃ a : ArithUint256, getNextTargetRequired .main chain fProofOfStake = getCompact a ∧ a.toNat ≠ 0 ∧
      a.toNat ≤ mainTargetLimit fProofOfStake := by
  have hpos := mainTargetLimit_pos fProofOfStake
  have hlt := (mainTargetLimit_lt fProofOfStake).trans (by decide : 2 ^ 236 < 2 ^ 256)
  rcases h.getNextTargetRequired_cases fProofOfStake with heq | ⟨pindexPrev, _, _, _, ⟨later, rfl, -⟩, -, heq, -⟩
  · refine ⟨_, heq, ?_⟩
    rw [BitVec.toNat_ofNat, Nat.mod_eq_of_lt hlt]
    exact ⟨hpos.ne', le_refl _⟩
  · have hflags : (if fProofOfStake then Network.main.params.fPoSNoRetargeting
        else Network.main.params.fPowNoRetargeting) = false := by cases fProofOfStake <;> rfl
    have hlimit := getTargetLimit_main (h.increasing.1 pindexPrev (by simp)) fProofOfStake
    simp only [calculateNextTargetRequired, hflags, Bool.false_eq_true, if_false, hlimit] at heq
    exact ⟨_, heq, clamp_range _ hpos hlt⟩

end AcceptedTimes

/-- A compact value that reads without sign or overflow as a target from 1 to a limit. -/
def DecodesInto (nCompact limit : Nat) : Prop :=
  (setCompact nCompact).fNegative = false ∧ (setCompact nCompact).fOverflow = false ∧
    0 < (setCompact nCompact).target.toNat ∧ (setCompact nCompact).target.toNat ≤ limit

theorem AcceptedTimes.decodesInto {chain : IndexChain} (h : AcceptedTimes chain) (fProofOfStake : Bool) :
    DecodesInto (getNextTargetRequired .main chain fProofOfStake) (mainTargetLimit fProofOfStake) := by
  obtain ⟨a, heq, hne, hle⟩ := h.getNextTargetRequired_eq_getCompact fProofOfStake
  have hlt : a.toNat < 2 ^ 255 :=
    Nat.lt_of_le_of_lt hle ((mainTargetLimit_lt _).trans (by decide))
  obtain ⟨hneg, hover⟩ := setCompact_getCompact_flags hne hlt
  rw [heq]
  refine ⟨hneg, hover, ?_, (setCompact_getCompact_le a).trans hle⟩
  rw [setCompact_getCompact_toNat hne]
  exact compactRound_pos hne

theorem retarget_bounded_monotone {chain : IndexChain} (h : AcceptedTimes chain) (fProofOfStake : Bool) :
    DecodesInto (getNextTargetRequired .main chain fProofOfStake) (mainTargetLimit fProofOfStake) ∧
    (getNextTargetRequired .main chain fProofOfStake =
        getCompact (BitVec.ofNat 256 (mainTargetLimit fProofOfStake)) ∨
      ∃ pindexPrev before pindexPrevPrev rest, LastOfKind fProofOfStake chain pindexPrev before ∧
        LastOfKind fProofOfStake before pindexPrevPrev rest ∧
        getNextTargetRequired .main chain fProofOfStake =
          calculateNextTargetRequired .main pindexPrev pindexPrevPrev.nTime fProofOfStake ∧
        1 ≤ (pindexPrev.nTime : Int) - pindexPrevPrev.nTime) ∧
    (∀ r : Retarget,
      (r.target.mulAssign32 r.factor).toNat = r.target.toNat * (896 + 2 * min r.spacing 640) ∧
      r.next = getCompact (BitVec.ofNat 256 r.unrounded) ∧
      r.unrounded =
        min (mainTargetLimit r.fProofOfStake) (r.target.toNat * (896 + 2 * min r.spacing 640) / 1024) ∧
      r.target.toNat * 898 / 1024 ≤ r.unrounded ∧
      compactRound (BitVec.ofNat 256 (r.target.toNat * 898 / 1024)) ≤ r.newTarget) ∧
    (∀ r r' : Retarget, r.fProofOfStake = r'.fProofOfStake → r.target.toNat ≤ r'.target.toNat →
      r.spacing ≤ r'.spacing → r.newTarget ≤ r'.newTarget) :=
  ⟨h.decodesInto fProofOfStake, h.getNextTargetRequired_cases fProofOfStake,
    fun r => ⟨r.mulAssign32_factor, r.next_eq, rfl, r.target_drop_le⟩,
    fun _ _ hkind hT hs => Retarget.newTarget_mono hkind hT hs⟩

def minuteChain : IndexChain :=
  [{ hash := 3, nTime := 1785326580, nBits := 0x1e0fffff }, { hash := 2, nTime := 1785326520, nBits := 0x1e0fffff },
    { hash := 1, nTime := 1785326460, nBits := 0x1e0fffff }, { hash := 0, nTime := 1785326400, nBits := 0x1e0fffff }]

theorem minuteChain_accepted : AcceptedTimes minuteChain :=
  .connect _ _ (.connect _ _ (.connect _ _ (.genesis _ rfl) (by decide)) (by decide)) (by decide)

def minuteRetarget : Retarget where
  pindexLast := { hash := 3, nTime := 1785326580, nBits := 0x1e0fffff }
  nFirstBlockTime := 1785326520
  fProofOfStake := false
  genesis_le := by decide
  spacing_pos := by decide
  two_le := by decide +kernel
  le_limit := by decide +kernel

theorem minuteChain_retargets :
    getNextTargetRequired .main minuteChain false = minuteRetarget.next ∧
      DecodesInto minuteRetarget.next (mainTargetLimit false) ∧
      minuteRetarget.next = getCompact (BitVec.ofNat 256 minuteRetarget.unrounded) :=
  have hnext : getNextTargetRequired .main minuteChain false = minuteRetarget.next := by decide +kernel
  have h := retarget_bounded_monotone minuteChain_accepted false
  ⟨hnext, hnext ▸ h.1, (h.2.2.1 minuteRetarget).2.1⟩

end CodexaCoin
