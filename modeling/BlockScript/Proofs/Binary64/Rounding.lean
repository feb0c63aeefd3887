import BlockScript.Binary64.Basic
import BlockScript.Proofs.Decimal.Digits
import Mathlib.Algebra.Order.Field.Power
import Mathlib.Algebra.Order.Floor.Semifield
import Mathlib.Data.Rat.Floor
import Mathlib.Tactic.FieldSimp
import Mathlib.Tactic.Linarith
import Mathlib.Tactic.NormNum
import Mathlib.Tactic.Positivity
/-!
# Rounding to binary64 depends on the value

The number nearest to a ratio is a function of its value (`nearest?_congr`), a number of the format
is nearest to itself (`nearest?_of_value`), and what is found is of the format (`valid_of_nearest?`).
The early answers of `ofDecimal?` are those that rounding gives, so the same three facts hold of
decimals (`ofDecimal?_congr`, `ofDecimal?_of_value`, `valid_of_ofDecimal?`).
-/

namespace BlockScript

namespace Binary64

namespace Magnitude

def value (x : Magnitude) : ℚ :=
  x.mantissa * 2 ^ x.exponent

/-- The numbers of the format. The exponent is as small as it can be: one below the mantissa would
not fit. -/
structure Valid (x : Magnitude) : Prop where
  mantissa_lt : x.mantissa < 2 ^ 53
  exponent_ge : -1074 ≤ x.exponent
  exponent_le : x.exponent ≤ 971
  smallest : x.exponent = -1074 ∨ 2 ^ 52 ≤ x.mantissa

theorem valid_zero : zero.Valid :=
  ⟨by decide, by decide, by decide, .inl rfl⟩

end Magnitude

variable {num den num' den' : Nat} {e : Int} {x : Magnitude}

/-! ## Scaling -/

theorem zpow_eq_div {b : Nat} (hb : 0 < b) (e : Int) :
    (b : ℚ) ^ e = (Nat.pow b e.toNat : Nat) / (Nat.pow b (-e).toNat : Nat) := by
  have hne : (b : ℚ) ≠ 0 := by positivity
  simp only [Nat.pow_eq, Nat.cast_pow]
  rw [← zpow_natCast, ← zpow_natCast, ← zpow_sub₀ hne]
  congr 1
  omega

theorem pow_pos_two (n : Nat) : 0 < Nat.pow 2 n :=
  Nat.pow_pos (by decide)

theorem pow_pos_ten (n : Nat) : 0 < Nat.pow 10 n :=
  Nat.pow_pos (by decide)

theorem scaled_snd_pos (hden : 0 < den) (num : Nat) (e : Int) : 0 < (scaled num den e).2 :=
  Nat.mul_pos hden (pow_pos_two _)

theorem ratio_scaled {b : Nat} (hb : 0 < b) (num den : Nat) (e : Int) :
    ((num * Nat.pow b (-e).toNat : Nat) : ℚ) / (den * Nat.pow b e.toNat : Nat) =
      num / den / (b : ℚ) ^ e := by
  have hpow : ∀ k, ((Nat.pow b k : Nat) : ℚ) ≠ 0 := fun k => by
    exact_mod_cast (Nat.pow_pos hb).ne'
  have hup := hpow e.toNat
  have hdown := hpow (-e).toNat
  rw [zpow_eq_div hb, Nat.cast_mul, Nat.cast_mul]
  field_simp

theorem scaled_eq (num den : Nat) (e : Int) :
    ((scaled num den e).1 : ℚ) / (scaled num den e).2 = num / den / 2 ^ e :=
  ratio_scaled (by decide) num den e

/-! ## The unit -/

/-- The exponent of the unit in which a value is rounded. -/
structure IsUnit (q : ℚ) (e : Int) : Prop where
  ge : -1074 ≤ e
  lt : q < 2 ^ (53 + e)
  smallest : e = -1074 ∨ 2 ^ (52 + e) ≤ q

theorem IsUnit.unique {q : ℚ} {e' : Int} (h : IsUnit q e) (h' : IsUnit q e') : e = e' := by
  have hle : ∀ {a b : Int}, IsUnit q a → IsUnit q b → a ≤ b := by
    intro a b ha hb
    by_contra hlt
    have hge := hb.ge
    have hlow : (2 : ℚ) ^ (52 + a) ≤ q := ha.smallest.resolve_left (by omega)
    have hmono : (2 : ℚ) ^ (53 + b) ≤ 2 ^ (52 + a) :=
      zpow_le_zpow_right₀ (by norm_num) (by omega)
    exact absurd hb.lt (not_lt.mpr (hmono.trans hlow))
  exact le_antisymm (hle h h') (hle h' h)

/-- The binary logarithms of the two sides of a ratio give its value up to a factor of two. -/
theorem ratio_bounds (hnum : 0 < num) (hden : 0 < den) :
    (2 : ℚ) ^ ((num.log2 : Int) - den.log2 - 1) ≤ num / den ∧
      (num : ℚ) / den < 2 ^ ((num.log2 : Int) - den.log2 + 1) := by
  have hden' : (0 : ℚ) < den := by exact_mod_cast hden
  have hnumlow : (2 : ℚ) ^ (num.log2 : Int) ≤ num := by
    exact_mod_cast Nat.log2_self_le hnum.ne'
  have hnumhigh : (num : ℚ) < 2 ^ ((num.log2 : Int) + 1) := by
    exact_mod_cast Nat.lt_log2_self (n := num)
  have hdenlow : (2 : ℚ) ^ (den.log2 : Int) ≤ den := by
    exact_mod_cast Nat.log2_self_le hden.ne'
  have hdenhigh : (den : ℚ) < 2 ^ ((den.log2 : Int) + 1) := by
    exact_mod_cast Nat.lt_log2_self (n := den)
  have htwo : (2 : ℚ) ≠ 0 := by norm_num
  constructor
  · rw [le_div_iff₀ hden']
    calc (2 : ℚ) ^ ((num.log2 : Int) - den.log2 - 1) * den
        ≤ 2 ^ ((num.log2 : Int) - den.log2 - 1) * 2 ^ ((den.log2 : Int) + 1) :=
          mul_le_mul_of_nonneg_left hdenhigh.le (by positivity)
      _ = 2 ^ (num.log2 : Int) := by
          rw [← zpow_add₀ htwo]
          congr 1
          omega
      _ ≤ num := hnumlow
  · rw [div_lt_iff₀ hden']
    calc (num : ℚ) < 2 ^ ((num.log2 : Int) + 1) := hnumhigh
      _ = 2 ^ ((num.log2 : Int) - den.log2 + 1) * 2 ^ (den.log2 : Int) := by
          rw [← zpow_add₀ htwo]
          congr 1
          omega
      _ ≤ 2 ^ ((num.log2 : Int) - den.log2 + 1) * den :=
          mul_le_mul_of_nonneg_left hdenlow (by positivity)

/-- The whole part in a unit stays below `2 ^ 53` if the value does. -/
theorem scaled_div_lt_iff (hden : 0 < den) (num : Nat) (e : Int) :
    (scaled num den e).1 / (scaled num den e).2 < Nat.pow 2 53 ↔ (num : ℚ) / den < 2 ^ (53 + e) := by
  have hpos : (0 : ℚ) < (scaled num den e).2 := by exact_mod_cast scaled_snd_pos hden num e
  have hunit : (0 : ℚ) < 2 ^ e := by positivity
  rw [Nat.div_lt_iff_lt_mul (scaled_snd_pos hden num e), zpow_add₀ (by norm_num),
    ← div_lt_iff₀ hunit, ← scaled_eq, div_lt_iff₀ hpos]
  exact_mod_cast Iff.rfl

theorem isUnit_unitExponent (hnum : 0 < num) (hden : 0 < den) :
    IsUnit (num / den) (unitExponent num den) := by
  obtain ⟨hlow, hhigh⟩ := ratio_bounds hnum hden
  unfold unitExponent
  generalize hguess : max (-1074) ((num.log2 : Int) - den.log2 - 53) = guess
  simp only [scaled_div_lt_iff hden]
  split
  · rename_i hfits
    refine ⟨by omega, hfits, ?_⟩
    by_cases hsmall : guess = -1074
    · exact .inl hsmall
    · have heq : (52 : Int) + guess = (num.log2 : Int) - den.log2 - 1 := by omega
      exact .inr (heq ▸ hlow)
  · rename_i hfits
    have hle : (2 : ℚ) ^ ((num.log2 : Int) - den.log2 + 1) ≤ 2 ^ (53 + (guess + 1)) :=
      zpow_le_zpow_right₀ (by norm_num) (by omega)
    have heq : (52 : Int) + (guess + 1) = 53 + guess := by omega
    exact ⟨by omega, hhigh.trans_le hle, .inr (heq ▸ not_lt.mp hfits)⟩

/-! ## The nearest natural -/

/-- The natural nearest to a value; a half goes to the even neighbour. -/
def halfEven (t : ℚ) : Nat :=
  if 2 * (t - ⌊t⌋₊) < 1 ∨ (2 * (t - ⌊t⌋₊) = 1 ∧ ⌊t⌋₊ % 2 = 0) then ⌊t⌋₊ else ⌊t⌋₊ + 1

theorem roundHalfEven_eq {n d : Nat} (hd : 0 < d) : roundHalfEven n d = halfEven (n / d) := by
  have hd' : (0 : ℚ) < d := by exact_mod_cast hd
  have hsplit : (n : ℚ) = d * (n / d : Nat) + (n % d : Nat) := by
    exact_mod_cast (Nat.div_add_mod n d).symm
  have hrest : (n : ℚ) / d - (n / d : Nat) = (n % d : Nat) / d := by
    rw [eq_div_iff hd'.ne', sub_mul, div_mul_cancel₀ _ hd'.ne']
    linarith
  have hlt : 2 * ((n : ℚ) / d - (n / d : Nat)) < 1 ↔ 2 * (n % d) < d := by
    rw [hrest, ← mul_div_assoc, div_lt_one hd']
    exact_mod_cast Iff.rfl
  have heq : 2 * ((n : ℚ) / d - (n / d : Nat)) = 1 ↔ 2 * (n % d) = d := by
    rw [hrest, ← mul_div_assoc, div_eq_one_iff_eq hd'.ne']
    exact_mod_cast Iff.rfl
  simp only [roundHalfEven, halfEven, Nat.floor_div_eq_div, hlt, heq]

theorem halfEven_natCast (m : Nat) : halfEven m = m := by
  simp [halfEven]

theorem floor_le_halfEven (t : ℚ) : ⌊t⌋₊ ≤ halfEven t := by
  unfold halfEven
  split <;> omega

theorem halfEven_of_lt_half {t : ℚ} (h : 2 * t < 1) : halfEven t = 0 := by
  have hfloor : ⌊t⌋₊ = 0 := Nat.floor_eq_zero.mpr (by linarith)
  simp [halfEven, hfloor, h]

/-! ## The nearest number -/

/-- The nearest number as a function of the value and the unit. -/
theorem nearest?_eq (hden : 0 < den) :
    nearest? num den =
      let m := halfEven (num / den / 2 ^ unitExponent num den)
      let x : Magnitude := if m < Nat.pow 2 53 then ⟨m, unitExponent num den⟩
        else ⟨Nat.pow 2 52, unitExponent num den + 1⟩
      if x.exponent ≤ 971 then some x else none := by
  have hround := roundHalfEven_eq (n := (scaled num den (unitExponent num den)).1)
    (scaled_snd_pos hden num (unitExponent num den))
  rw [scaled_eq] at hround
  simp only [nearest?, hround]

theorem nearest?_congr (hnum : 0 < num) (hden : 0 < den) (hnum' : 0 < num') (hden' : 0 < den')
    (h : (num : ℚ) / den = num' / den') : nearest? num den = nearest? num' den' := by
  have hunit := isUnit_unitExponent hnum hden
  rw [h] at hunit
  rw [nearest?_eq hden, nearest?_eq hden', h,
    hunit.unique (isUnit_unitExponent hnum' hden')]

theorem valid_of_nearest? (hnum : 0 < num) (hden : 0 < den) (h : nearest? num den = some x) :
    x.Valid := by
  have hunit := isUnit_unitExponent hnum hden
  rw [nearest?_eq hden] at h
  generalize unitExponent num den = e at h hunit
  generalize hm : halfEven (num / den / 2 ^ e) = m at h
  have hge := hunit.ge
  by_cases hlt : m < Nat.pow 2 53
  · simp only [if_pos hlt, Option.ite_none_right_eq_some, Option.some.injEq] at h
    obtain ⟨hle, rfl⟩ := h
    refine ⟨hlt, hge, hle, hunit.smallest.imp_right fun hlow => ?_⟩
    have hfloor : ((2 ^ 52 : Nat) : ℚ) ≤ num / den / 2 ^ e := by
      rw [le_div_iff₀ (by positivity), Nat.cast_pow, ← zpow_natCast, Nat.cast_ofNat,
        ← zpow_add₀ (by norm_num)]
      exact hlow
    exact hm ▸ (Nat.le_floor hfloor).trans (floor_le_halfEven _)
  · simp only [if_neg hlt, Option.ite_none_right_eq_some, Option.some.injEq] at h
    obtain ⟨hle, rfl⟩ := h
    exact ⟨show 2 ^ 52 < 2 ^ 53 by decide, show -1074 ≤ e + 1 by omega, hle, .inr (Nat.le_refl _)⟩

/-- A number of the format is nearest to itself. -/
theorem nearest?_of_value (hden : 0 < den) (hx : x.Valid) (hne : x.mantissa ≠ 0)
    (h : (num : ℚ) / den = x.value) : nearest? num den = some x := by
  have hmantissa : (0 : ℚ) < x.mantissa := by exact_mod_cast Nat.pos_of_ne_zero hne
  have hden' : (0 : ℚ) < den := by exact_mod_cast hden
  have hvalue : 0 < x.value := mul_pos hmantissa (by positivity)
  have hnum : 0 < num := by
    have hpos : (0 : ℚ) < num := by
      rw [← h] at hvalue
      exact (div_pos_iff_of_pos_right hden').mp hvalue
    exact_mod_cast hpos
  have hunit : IsUnit x.value x.exponent := by
    refine ⟨hx.exponent_ge, ?_, hx.smallest.imp_right fun hlow => ?_⟩
    · rw [Magnitude.value, zpow_add₀ (by norm_num)]
      have hlt : (x.mantissa : ℚ) < 2 ^ (53 : Int) := by exact_mod_cast hx.mantissa_lt
      exact mul_lt_mul_of_pos_right hlt (by positivity)
    · rw [Magnitude.value, zpow_add₀ (by norm_num)]
      have hle : (2 : ℚ) ^ (52 : Int) ≤ x.mantissa := by exact_mod_cast hlow
      exact mul_le_mul_of_nonneg_right hle (by positivity)
  have hexponent : unitExponent num den = x.exponent :=
    (isUnit_unitExponent hnum hden).unique (h ▸ hunit)
  have hscaled : (num : ℚ) / den / 2 ^ x.exponent = x.mantissa := by
    rw [h, Magnitude.value, mul_div_assoc, div_self (by positivity), mul_one]
  rw [nearest?_eq hden, hexponent, hscaled, halfEven_natCast]
  simp only [Nat.pow_eq, if_pos hx.mantissa_lt, if_pos hx.exponent_le]

theorem nearest?_of_large (hnum : 0 < num) (hden : 0 < den) (h : (2 : ℚ) ^ (1024 : Int) ≤ num / den) :
    nearest? num den = none := by
  have hunit := isUnit_unitExponent hnum hden
  rw [nearest?_eq hden]
  generalize unitExponent num den = e at hunit ⊢
  have hlarge : 971 < e := by
    by_contra hle
    have hmono : (2 : ℚ) ^ (53 + e) ≤ 2 ^ (1024 : Int) :=
      zpow_le_zpow_right₀ (by norm_num) (by omega)
    exact absurd hunit.lt (not_lt.mpr (hmono.trans h))
  simp only
  split
  · rw [if_neg (by simp only; omega)]
  · rw [if_neg (by simp only; omega)]

theorem nearest?_of_small (hnum : 0 < num) (hden : 0 < den)
    (h : (num : ℚ) / den < 2 ^ (-1075 : Int)) : nearest? num den = some .zero := by
  have hunit := isUnit_unitExponent hnum hden
  have hexponent : unitExponent num den = -1074 := by
    refine hunit.smallest.resolve_right fun hlow => ?_
    have hge := hunit.ge
    have hmono : (2 : ℚ) ^ (-1075 : Int) ≤ 2 ^ (52 + unitExponent num den) :=
      zpow_le_zpow_right₀ (by norm_num) (by omega)
    exact absurd h (not_lt.mpr (hmono.trans hlow))
  have hhalf : 2 * ((num : ℚ) / den / 2 ^ (-1074 : Int)) < 1 := by
    rw [← mul_div_assoc, div_lt_one (by positivity)]
    calc 2 * ((num : ℚ) / den) < 2 * 2 ^ (-1075 : Int) := by linarith
      _ = 2 ^ (-1074 : Int) := (zpow_one_add₀ two_ne_zero (-1075)).symm
  rw [nearest?_eq hden, hexponent, halfEven_of_lt_half hhalf]
  rfl

/-! ## Numbers of the format -/

theorem Magnitude.ratio_eq_value (x : Magnitude) :
    (x.ratio.1 : ℚ) / x.ratio.2 = x.value := by
  have hpow := zpow_eq_div (b := 2) (by decide) x.exponent
  rw [Nat.cast_ofNat] at hpow
  rw [Magnitude.value, hpow, ratio, Nat.cast_mul, mul_div_assoc]

theorem Magnitude.value_eq_zero_iff : x.value = 0 ↔ x.mantissa = 0 := by
  have htwo : (2 : ℚ) ^ x.exponent ≠ 0 := by positivity
  simp [Magnitude.value, htwo]

theorem Magnitude.Valid.eq_zero (hx : x.Valid) (h : x.mantissa = 0) : x = .zero := by
  obtain ⟨m, e⟩ := x
  obtain rfl : m = 0 := h
  obtain rfl : e = -1074 := hx.smallest.resolve_right (show ¬2 ^ 52 ≤ 0 by decide)
  rfl

/-- Two numbers of the format with one value are one number. -/
theorem Magnitude.Valid.eq_of_value {y : Magnitude} (hx : x.Valid) (hy : y.Valid)
    (h : x.value = y.value) : x = y := by
  by_cases hzero : x.mantissa = 0
  · have hzero' : y.mantissa = 0 :=
      value_eq_zero_iff.mp (h.symm.trans (value_eq_zero_iff.mpr hzero))
    rw [hx.eq_zero hzero, hy.eq_zero hzero']
  · have hzero' : y.mantissa ≠ 0 := fun hz =>
      hzero (value_eq_zero_iff.mp (h.trans (value_eq_zero_iff.mpr hz)))
    have hself := nearest?_of_value (pow_pos_two _) hx hzero x.ratio_eq_value
    have hother := nearest?_of_value (pow_pos_two _) hy hzero' (x.ratio_eq_value.trans h)
    exact Option.some.inj (hself.symm.trans hother)

/-! ## Decimals -/

variable {d d' : Decimal}

theorem ratio_eq_value (d : Decimal) :
    ((d.coefficient * Nat.pow 10 d.exponent.toNat : Nat) : ℚ) / (Nat.pow 10 (-d.exponent).toNat : Nat)
      = d.value := by
  have hpow := zpow_eq_div (b := 10) (by decide) d.exponent
  rw [Nat.cast_ofNat] at hpow
  rw [Decimal.value, hpow, Nat.cast_mul, mul_div_assoc]

theorem ratio_pos (h : d.coefficient ≠ 0) : 0 < d.coefficient * Nat.pow 10 d.exponent.toNat :=
  Nat.mul_pos (Nat.pos_of_ne_zero h) (pow_pos_ten _)

theorem coefficient_lt (d : Decimal) :
    d.coefficient < 10 ^ (d.coefficient.log2 / 3 + 1) :=
  calc d.coefficient < 2 ^ (d.coefficient.log2 + 1) := Nat.lt_log2_self
    _ ≤ 2 ^ (3 * (d.coefficient.log2 / 3 + 1)) := Nat.pow_le_pow_right (by decide) (by omega)
    _ = 8 ^ (d.coefficient.log2 / 3 + 1) := Nat.pow_mul 2 3 _
    _ ≤ 10 ^ (d.coefficient.log2 / 3 + 1) := Nat.pow_le_pow_left (by decide) _

theorem le_value_of_exponent (h : d.coefficient ≠ 0) (hlarge : 310 < d.exponent) :
    (2 : ℚ) ^ (1024 : Int) ≤ d.value := by
  have hpow : 2 ^ 1024 ≤ 10 ^ 311 := by decide +kernel
  have hone : (1 : ℚ) ≤ d.coefficient := by exact_mod_cast Nat.pos_of_ne_zero h
  calc (2 : ℚ) ^ (1024 : Int) ≤ 10 ^ (311 : Int) := by exact_mod_cast hpow
    _ ≤ 10 ^ d.exponent := zpow_le_zpow_right₀ (by norm_num) (by omega)
    _ ≤ d.value := le_mul_of_one_le_left (by positivity) hone

theorem value_lt_of_exponent
    (hsmall : d.exponent + (d.coefficient.log2 / 3 + 1 : Nat) < -330) :
    d.value < 2 ^ (-1075 : Int) := by
  have hpow : 2 ^ 1075 ≤ 10 ^ 330 := by decide +kernel
  have hcoefficient : (d.coefficient : ℚ) < 10 ^ ((d.coefficient.log2 / 3 + 1 : Nat) : Int) := by
    exact_mod_cast coefficient_lt d
  calc d.value < 10 ^ ((d.coefficient.log2 / 3 + 1 : Nat) : Int) * 10 ^ d.exponent :=
        mul_lt_mul_of_pos_right hcoefficient (by positivity)
    _ = 10 ^ (((d.coefficient.log2 / 3 + 1 : Nat) : Int) + d.exponent) :=
        (zpow_add₀ (by norm_num) _ _).symm
    _ ≤ 10 ^ (-330 : Int) := zpow_le_zpow_right₀ (by norm_num) (by omega)
    _ ≤ 2 ^ (-1075 : Int) := by
        rw [zpow_neg, zpow_neg]
        exact inv_anti₀ (by positivity) (by exact_mod_cast hpow)

/-- Both early answers are those of the rounding. -/
theorem ofDecimal?_eq (h : d.coefficient ≠ 0) :
    ofDecimal? d =
      nearest? (d.coefficient * Nat.pow 10 d.exponent.toNat) (Nat.pow 10 (-d.exponent).toNat) := by
  have hden := pow_pos_ten (-d.exponent).toNat
  have hnum := ratio_pos h
  rw [ofDecimal?, if_neg h]
  split
  · rename_i hlarge
    exact (nearest?_of_large hnum hden (ratio_eq_value d ▸ le_value_of_exponent h hlarge)).symm
  · split
    · rename_i hsmall
      exact (nearest?_of_small hnum hden (ratio_eq_value d ▸ value_lt_of_exponent hsmall)).symm
    · rfl

theorem ofDecimal?_congr (h : d.value = d'.value) : ofDecimal? d = ofDecimal? d' := by
  by_cases hzero : d.coefficient = 0
  · have hzero' : d'.coefficient = 0 :=
      Decimal.value_eq_zero_iff.mp (h.symm.trans (Decimal.value_eq_zero_iff.mpr hzero))
    rw [ofDecimal?, ofDecimal?, if_pos hzero, if_pos hzero']
  · have hzero' : d'.coefficient ≠ 0 := fun hz =>
      hzero (Decimal.value_eq_zero_iff.mp (h.trans (Decimal.value_eq_zero_iff.mpr hz)))
    rw [ofDecimal?_eq hzero, ofDecimal?_eq hzero']
    exact nearest?_congr (ratio_pos hzero) (pow_pos_ten _) (ratio_pos hzero') (pow_pos_ten _)
      (by rw [ratio_eq_value, ratio_eq_value, h])

theorem ofDecimal?_of_value (hx : x.Valid) (h : d.value = x.value) : ofDecimal? d = some x := by
  by_cases hzero : d.coefficient = 0
  · have hx' : x = .zero := hx.eq_zero
      (Magnitude.value_eq_zero_iff.mp (h.symm.trans (Decimal.value_eq_zero_iff.mpr hzero)))
    rw [ofDecimal?, if_pos hzero, hx']
  · have hne : x.mantissa ≠ 0 := fun hz =>
      hzero (Decimal.value_eq_zero_iff.mp (h.trans (Magnitude.value_eq_zero_iff.mpr hz)))
    rw [ofDecimal?_eq hzero]
    exact nearest?_of_value (pow_pos_ten _) hx hne (by rw [ratio_eq_value, h])

theorem valid_of_ofDecimal? (h : ofDecimal? d = some x) : x.Valid := by
  by_cases hzero : d.coefficient = 0
  · rw [ofDecimal?, if_pos hzero] at h
    exact Option.some.inj h ▸ Magnitude.valid_zero
  · rw [ofDecimal?_eq hzero] at h
    exact valid_of_nearest? (ratio_pos hzero) (pow_pos_ten _) h

end Binary64

end BlockScript
