import CodexaCoin.Lib.Double

/-!
# Amounts in satoshis and in coins

The gateway keeps amounts in satoshis, and exchanges them with the node in coins. On its side these are doubles:
`json.loads` reads the eight decimals that `ValueFromAmount` prints, and `json.dumps` writes the shortest decimal that
is read back as the same double, which `AmountFromValue` takes if it has at most eight places.
-/

namespace CodexaCoin.Gateway

open Double

/-- `COIN`. -/
def coinSatoshis : ℚ := 10 ^ 8

/-- The double for an amount in coins: `amount / COIN`, and what is read of an amount that the node prints. -/
def inCoins (satoshis : Int) : ℚ := nearest 53 (satoshis / coinSatoshis)

/-- `round(value * COIN)` of an amount that the node prints. -/
def readSatoshis (amount : Int) : Int := roundEven (nearest 53 (inCoins amount * coinSatoshis))

/-- `AmountFromValue` of a double that the gateway writes. `ParseFixedPoint` refuses more than eight decimal places and
10¹⁸ satoshis or more. -/
def amountFromValue (value : ℚ) : Option Int :=
  (shortest 53 8 value).bind fun x =>
    let amount := (x * coinSatoshis).floor
    if 0 ≤ amount ∧ amount < 10 ^ 18 then some amount else none

theorem coinSatoshis_pos : 0 < coinSatoshis := by norm_num [coinSatoshis]

variable {a : Int}

theorem abs_inCoins_mul_sub_le {k : Int} (h : |(a : ℚ) / coinSatoshis| < 2 ^ k) :
    |inCoins a * coinSatoshis - a| ≤ 2 ^ (k - 53) / 2 * coinSatoshis := by
  have hscale : inCoins a * coinSatoshis - a = (inCoins a - a / coinSatoshis) * coinSatoshis := by
    rw [sub_mul, div_mul_cancel₀ _ coinSatoshis_pos.ne']
  rw [hscale, abs_mul, abs_of_pos coinSatoshis_pos]
  exact mul_le_mul_of_nonneg_right (abs_nearest_sub_le h) coinSatoshis_pos.le

theorem abs_div_coinSatoshis_lt {k : Nat} (ha : 0 ≤ a)
    (h : a < 2 ^ k * 10 ^ 8) : |(a : ℚ) / coinSatoshis| < 2 ^ (k : Int) := by
  rw [abs_of_nonneg (div_nonneg (Int.cast_nonneg ha) coinSatoshis_pos.le), div_lt_iff₀ coinSatoshis_pos, zpow_natCast,
    coinSatoshis]
  exact_mod_cast h

/-- **Amounts below 2²⁵ coins are read as they are.** The two roundings are off by less than half a satoshi. -/
theorem readSatoshis_eq (ha : 0 ≤ a) (h : a < 3355443200000000) : readSatoshis a = a := by
  have hdivision : |inCoins a * coinSatoshis - a| ≤ 2 ^ ((25 : Int) - 53) / 2 * coinSatoshis :=
    abs_inCoins_mul_sub_le (abs_div_coinSatoshis_lt (k := 25) ha (by omega))
  have hunit : (2 : ℚ) ^ ((25 : Int) - 53) / 2 * coinSatoshis < 1 / 5 := by norm_num [coinSatoshis]
  have hdivision := abs_le.1 (hdivision.trans hunit.le)
  have ha' : (a : ℚ) ≤ 3355443200000000 := by exact_mod_cast h.le
  have ha0 : (0 : ℚ) ≤ a := Int.cast_nonneg ha
  have hproduct : |nearest 53 (inCoins a * coinSatoshis) - inCoins a * coinSatoshis| ≤ 2 ^ ((52 : Int) - 53) / 2 := by
    refine abs_nearest_sub_le ?_
    rw [abs_lt]
    constructor
    · linarith [show (0 : ℚ) < 2 ^ (52 : Int) - 1 by norm_num]
    · linarith [show (3355443200000000 : ℚ) + 1 < 2 ^ (52 : Int) by norm_num]
  have hquarter : (2 : ℚ) ^ ((52 : Int) - 53) / 2 = 1 / 4 := by norm_num
  rw [hquarter, abs_le] at hproduct
  refine roundEven_eq ?_
  rw [abs_lt]
  constructor
  · linarith [hdivision.1, hproduct.1]
  · linarith [hdivision.2, hproduct.2]

/-- From 2²⁵ coins on a satoshi can be lost or added. -/
example : readSatoshis 3355443200000019 = 3355443200000020 := by decide +kernel

/-- **Amounts below 2²⁶ coins are sent as they are.** -/
theorem amountFromValue_inCoins (ha : 0 ≤ a) (h : a < 6710886400000000) : amountFromValue (inCoins a) = some a := by
  have hshortest : shortest 53 8 (inCoins a) = some (a / coinSatoshis) :=
    shortest_nearest (e := 26) (by decide) (by norm_num) ha (by omega)
  rw [amountFromValue, hshortest, Option.bind_some]
  dsimp only
  rw [div_mul_cancel₀ _ coinSatoshis_pos.ne', Rat.floor_intCast, if_pos ⟨ha, by omega⟩]

theorem eq_of_amountFromValue {b : Int} (h : a < 6710886400000000) (hread : amountFromValue (inCoins a) = some b)
    (hb : 0 < b) : b = a := by
  rcases le_or_gt 0 a with ha | ha
  · rw [amountFromValue_inCoins ha h] at hread
    exact (Option.some.inj hread).symm
  · -- a decimal with which a negative number is printed is not positive
    obtain ⟨x, hx, hread⟩ := Option.bind_eq_some_iff.1 hread
    dsimp only at hread
    split at hread
    · next hrange =>
      have hback : nearest 53 x = inCoins a := by simpa using List.find?_some hx
      have hneg : inCoins a ≤ 0 :=
        nearest_nonpos (div_nonpos_of_nonpos_of_nonneg (by exact_mod_cast ha.le) coinSatoshis_pos.le)
      have hxpos : 0 < x * coinSatoshis := by
        have hfloor : ((x * coinSatoshis).floor : ℚ) ≤ x * coinSatoshis := Rat.floor_le _
        rw [Option.some.inj hread] at hfloor
        have : (0 : ℚ) < b := by exact_mod_cast hb
        linarith
      have := nearest_pos (p := 53) (by decide) (pos_of_mul_pos_left hxpos coinSatoshis_pos.le)
      linarith
    · cases hread

theorem lt_of_inCoins_lt (h : inCoins a < 67108864) : a < 6710886400000000 := by
  by_contra hge
  have hcoins : (2 : ℚ) ^ (26 : Int) ≤ a / coinSatoshis := by
    rw [le_div_iff₀ coinSatoshis_pos]
    have : (6710886400000000 : ℚ) ≤ a := by exact_mod_cast not_lt.1 hge
    norm_num [coinSatoshis]
    linarith
  have := two_zpow_le_nearest (p := 53) (by decide) hcoins
  rw [show nearest 53 (a / coinSatoshis) = inCoins a from rfl] at this
  norm_num at this
  linarith

/-- Above, a satoshi more than asked for can be sent. -/
example : amountFromValue (inCoins 13421772800000002) = some 13421772800000003 := by decide +kernel

end CodexaCoin.Gateway
