import BlockScript.Binary64.Shortest
import BlockScript.Proofs.Binary64.Rounding
import BlockScript.Proofs.Decimal.Plain
/-!
# The shortest decimal reads back

On a grid of powers of ten either a neighbour of a number reads back as it or no neighbour does
(`isNeighbour_of_onGrid?`, `IsNeighbour.exists_onGrid?`).  The number itself lies on a grid, so the
search ends with the first grid that has such a neighbour (`exists_firstOnGrid`).  What is found
reads back and has no final zero: without the zero it would have been found one grid earlier
(`ofDecimal?_shortest`, `coefficient_shortest`).
-/

namespace BlockScript.Binary64

variable {x : Magnitude} {tie : Tie} {p : Int} {d : Decimal}

/-! ## Neighbours on a grid -/

/-- A decimal on the grid of `10 ^ p` that is less than one step away from `x` and reads as it. -/
structure IsNeighbour (x : Magnitude) (p : Int) (d : Decimal) : Prop where
  exponent : d.exponent = p
  near : |d.value - x.value| < 10 ^ p
  reads : ofDecimal? d = some x

/-- Less than one away from a ratio are its whole part and, if it has a rest, the next natural. -/
theorem near_ratio_iff {n d c : Nat} (hd : 0 < d) :
    |(c : ℚ) - n / d| < 1 ↔ c = n / d ∨ (n % d ≠ 0 ∧ c = n / d + 1) := by
  have hd' : (0 : ℚ) < d := by exact_mod_cast hd
  have hscaled : |(c : ℚ) - n / d| < 1 ↔ n < c * d + d ∧ c * d < n + d := by
    rw [abs_sub_lt_iff, sub_lt_iff_lt_add, sub_lt_iff_lt_add, ← sub_lt_iff_lt_add', lt_div_iff₀ hd',
      div_lt_iff₀ hd', sub_mul, add_mul, one_mul, sub_lt_iff_lt_add, and_comm, add_comm (d : ℚ)]
    exact_mod_cast Iff.rfl
  have hsplit := Nat.div_add_mod' n d
  have hrest := Nat.mod_lt n hd
  rw [hscaled]
  constructor
  · rintro ⟨hlow, hhigh⟩
    rw [← Nat.succ_mul] at hlow
    obtain ⟨k, rfl⟩ := Nat.exists_eq_add_of_le
      (Nat.lt_succ_iff.mp ((Nat.div_lt_iff_lt_mul hd).mpr hlow))
    rw [Nat.add_mul] at hhigh
    match k with
    | 0 => exact .inl rfl
    | 1 => exact .inr ⟨by omega, rfl⟩
    | k + 2 =>
        have htwo : 2 * d ≤ (k + 2) * d := Nat.mul_le_mul_right d (by omega)
        omega
  · rintro (rfl | ⟨hne, rfl⟩)
    · omega
    · rw [Nat.succ_mul]
      omega

def steps (x : Magnitude) (p : Int) : Nat × Nat :=
  (x.ratio.1 * Nat.pow 10 (-p).toNat, x.ratio.2 * Nat.pow 10 p.toNat)

theorem steps_eq (x : Magnitude) (p : Int) :
    ((steps x p).1 : ℚ) / (steps x p).2 = x.value / 10 ^ p := by
  rw [← x.ratio_eq_value]
  exact ratio_scaled (by decide) _ _ p

theorem isNeighbour_iff :
    IsNeighbour x p d ↔ d.exponent = p ∧ ofDecimal? d = some x ∧
      (d.coefficient = (steps x p).1 / (steps x p).2 ∨
        ((steps x p).1 % (steps x p).2 ≠ 0 ∧
          d.coefficient = (steps x p).1 / (steps x p).2 + 1)) := by
  have hpos : 0 < (steps x p).2 := Nat.mul_pos (pow_pos_two _) (pow_pos_ten _)
  have hstep : (0 : ℚ) < 10 ^ p := by positivity
  rw [← near_ratio_iff hpos, steps_eq]
  have hnear : d.exponent = p →
      (|d.value - x.value| < 10 ^ p ↔ |(d.coefficient : ℚ) - x.value / 10 ^ p| < 1) := by
    rintro rfl
    have hvalue : d.value - x.value =
        ((d.coefficient : ℚ) - x.value / 10 ^ d.exponent) * 10 ^ d.exponent := by
      rw [sub_mul, div_mul_cancel₀ _ hstep.ne', Decimal.value]
    rw [hvalue, abs_mul, abs_of_pos hstep, mul_lt_iff_lt_one_left hstep]
  constructor
  · rintro ⟨hexponent, hdistance, hreads⟩
    exact ⟨hexponent, hreads, (hnear hexponent).mp hdistance⟩
  · rintro ⟨hexponent, hreads, hdistance⟩
    exact ⟨hexponent, (hnear hexponent).mpr hdistance, hreads⟩

theorem isNeighbour_of_onGrid? (h : onGrid? tie x p = some d) : IsNeighbour x p d := by
  rw [isNeighbour_iff]
  unfold onGrid? at h
  simp only at h
  split at h
  · rename_i hlow
    obtain rfl := Option.some.inj h
    exact ⟨rfl, hlow.1, .inl rfl⟩
  split at h
  · rename_i hhigh
    obtain rfl := Option.some.inj h
    exact ⟨rfl, hhigh.2, .inr ⟨hhigh.1, rfl⟩⟩
  · cases h

/-- A grid with such a neighbour is not passed over. -/
theorem IsNeighbour.exists_onGrid? (h : IsNeighbour x p d) (tie : Tie) :
    ∃ d', onGrid? tie x p = some d' := by
  obtain ⟨hexponent, hreads, hcoefficient⟩ := isNeighbour_iff.mp h
  obtain ⟨c, e⟩ := d
  obtain rfl : e = p := hexponent
  unfold onGrid?
  simp only
  split
  · exact ⟨_, rfl⟩
  split
  · exact ⟨_, rfl⟩
  · rename_i hlow hhigh
    rcases hcoefficient with hbelow | ⟨hrest, habove⟩
    · exact absurd ⟨hbelow ▸ hreads, .inr hhigh⟩ hlow
    · exact absurd ⟨hrest, habove ▸ hreads⟩ hhigh

/-! ## The grid of the number itself -/

/-- Every binary number lies on the grid of its own exponent or, if that is positive, of one. -/
theorem exists_value_eq (x : Magnitude) :
    ∃ c : Nat, (⟨c, min x.exponent 0⟩ : Decimal).value = x.value := by
  obtain ⟨m, e⟩ := x
  obtain ⟨k, rfl | rfl⟩ := Int.eq_nat_or_neg e
  · refine ⟨m * 2 ^ k, ?_⟩
    simp [Decimal.value, Magnitude.value]
  · refine ⟨m * 5 ^ k, ?_⟩
    have hmin : min (-(k : Int)) 0 = -k := by omega
    have hten : (10 : ℚ) ^ k = 5 ^ k * 2 ^ k := by rw [← mul_pow]; norm_num
    simp only [Decimal.value, Magnitude.value, hmin, Nat.cast_mul, Nat.cast_pow, Nat.cast_ofNat,
      zpow_neg, zpow_natCast, hten]
    field_simp

theorem exists_onGrid?_min (hx : x.Valid) (tie : Tie) :
    ∃ d, onGrid? tie x (min x.exponent 0) = some d := by
  obtain ⟨c, hvalue⟩ := exists_value_eq x
  have hneighbour : IsNeighbour x (min x.exponent 0) ⟨c, min x.exponent 0⟩ :=
    ⟨rfl, by rw [hvalue, sub_self, abs_zero]; positivity, ofDecimal?_of_value hx hvalue⟩
  exact hneighbour.exists_onGrid? tie

/-! ## The search -/

/-- The search finds the first grid with a neighbour, if it may look at all from the grid of
`10 ^ p` down to that of the number. -/
theorem exists_firstOnGrid (hx : x.Valid) (tie : Tie) {fuel : Nat}
    (hp : min x.exponent 0 ≤ p) (hfuel : p - min x.exponent 0 < fuel) :
    ∃ q ≤ p, onGrid? tie x q = some (firstOnGrid tie x fuel p) ∧
      ∀ q', q < q' → q' ≤ p → onGrid? tie x q' = none := by
  induction fuel generalizing p with
  | zero => omega
  | succ fuel ih =>
      unfold firstOnGrid
      cases hfound : onGrid? tie x p with
      | some d => exact ⟨p, le_refl p, hfound, fun q' hlt hle => absurd hlt (not_lt.mpr hle)⟩
      | none =>
          have hne : p ≠ min x.exponent 0 := by
            rintro rfl
            obtain ⟨d, hd⟩ := exists_onGrid?_min hx tie
            rw [hd] at hfound
            cases hfound
          obtain ⟨q, hq, hsome, hnone⟩ := @ih (p - 1) (by omega) (by omega)
          refine ⟨q, by omega, hsome, fun q' hlt hle => ?_⟩
          by_cases hlast : q' = p
          · exact hlast ▸ hfound
          · exact hnone q' hlt (by omega)

/-- Some thirty thousandths of a binary exponent, rounded up, are enough as a decimal one. -/
theorem two_zpow_le {k : Int} (hlow : -1073 ≤ k) (hhigh : k ≤ 1024) :
    (2 : ℚ) ^ k ≤ 10 ^ (k * 30103 / 100000 + 1) := by
  have hup : ∀ i < 1025, 2 ^ i ≤ 10 ^ (i * 30103 / 100000 + 1) := by decide +kernel
  have hdown : ∀ i < 1074, 10 ^ ((i * 30103 - 1) / 100000) ≤ 2 ^ i := by decide +kernel
  by_cases hnonneg : 0 ≤ k
  · obtain ⟨i, rfl⟩ := Int.eq_ofNat_of_zero_le hnonneg
    have hexponent : (i : Int) * 30103 / 100000 + 1 = (i * 30103 / 100000 + 1 : Nat) := by omega
    rw [hexponent, zpow_natCast, zpow_natCast]
    exact_mod_cast hup i (by omega)
  · obtain ⟨i, rfl⟩ : ∃ i : Nat, k = -i := ⟨(-k).toNat, by omega⟩
    have hexponent : -(i : Int) * 30103 / 100000 + 1 = -((i * 30103 - 1) / 100000 : Nat) := by omega
    rw [hexponent, zpow_neg, zpow_neg, zpow_natCast, zpow_natCast]
    exact inv_anti₀ (by positivity) (by exact_mod_cast hdown i (by omega))

theorem log2_le_of_lt {m : Nat} (h : m < 2 ^ 53) : m.log2 ≤ 52 := by
  by_cases hzero : m = 0
  · rw [hzero]
    decide
  · exact Nat.lt_succ_iff.mp ((Nat.log2_lt hzero).mpr h)

theorem value_lt_topExponent (hx : x.Valid) : x.value < 10 ^ topExponent x := by
  have hlog := log2_le_of_lt hx.mantissa_lt
  have hge := hx.exponent_ge
  have hle := hx.exponent_le
  have hmantissa : (x.mantissa : ℚ) < 2 ^ ((x.mantissa.log2 : Int) + 1) := by
    exact_mod_cast Nat.lt_log2_self (n := x.mantissa)
  calc x.value < 2 ^ ((x.mantissa.log2 : Int) + 1) * 2 ^ x.exponent :=
        mul_lt_mul_of_pos_right hmantissa (by positivity)
    _ = 2 ^ ((x.mantissa.log2 : Int) + 1 + x.exponent) := (zpow_add₀ two_ne_zero _ _).symm
    _ ≤ 10 ^ topExponent x := two_zpow_le (by omega) (by omega)

theorem min_exponent_le_topExponent (x : Magnitude) : min x.exponent 0 ≤ topExponent x := by
  unfold topExponent
  omega

/-- What the search finds is on the first grid, from that of the top exponent down, that has a
neighbour. -/
theorem exists_shortest (hx : x.Valid) (tie : Tie) :
    ∃ q ≤ topExponent x, IsNeighbour x q (shortest tie x) ∧
      ∀ d, d.exponent ≤ topExponent x → q < d.exponent → ¬ IsNeighbour x d.exponent d := by
  have hle := min_exponent_le_topExponent x
  obtain ⟨q, hq, hsome, hnone⟩ := exists_firstOnGrid hx tie hle
    (show _ < (((topExponent x - min x.exponent 0).toNat.succ : Nat) : Int) by omega)
  refine ⟨q, hq, isNeighbour_of_onGrid? hsome, fun d htop hlt hneighbour => ?_⟩
  obtain ⟨d', hd'⟩ := hneighbour.exists_onGrid? tie
  rw [hnone _ hlt htop] at hd'
  cases hd'

theorem ofDecimal?_shortest (hx : x.Valid) (tie : Tie) : ofDecimal? (shortest tie x) = some x := by
  obtain ⟨q, _, hneighbour, _⟩ := exists_shortest hx tie
  exact hneighbour.reads

theorem coefficient_shortest (hx : x.Valid) (tie : Tie) :
    (shortest tie x).coefficient = 0 ∨ (shortest tie x).coefficient % 10 ≠ 0 := by
  obtain ⟨q, hq, hneighbour, hfirst⟩ := exists_shortest hx tie
  obtain ⟨hexponent, hnear, hreads⟩ := hneighbour
  generalize shortest tie x = d at *
  obtain ⟨c, e⟩ := d
  obtain rfl : e = q := hexponent
  by_contra hzeros
  simp only [not_or, ne_eq, not_not] at hzeros
  obtain ⟨hne, hmod⟩ := hzeros
  obtain ⟨c', rfl⟩ : ∃ c', c = c' * 10 := ⟨c / 10, by omega⟩
  have hvalue : (⟨c', e + 1⟩ : Decimal).value = (⟨c' * 10, e⟩ : Decimal).value := by
    rw [← pow_one 10]
    exact Decimal.value_shift c' 1 e
  by_cases htop : e < topExponent x
  · -- without the zero it is on the grid before
    have hnext : e < e + 1 := Int.lt_succ e
    refine hfirst ⟨c', e + 1⟩ (Int.add_one_le_of_lt htop) hnext ⟨rfl, ?_, ?_⟩
    · rw [hvalue]
      exact hnear.trans (zpow_lt_zpow_right₀ (by norm_num) hnext)
    · rw [ofDecimal?_congr hvalue, hreads]
  · -- on the grid of the top exponent a neighbour is below two
    obtain rfl : e = topExponent x := by omega
    have hstep : (0 : ℚ) < 10 ^ topExponent x := by positivity
    have htwo : (2 : ℚ) ≤ (c' * 10 : Nat) := by exact_mod_cast (by omega : 2 ≤ c' * 10)
    have hbelow : (⟨c' * 10, topExponent x⟩ : Decimal).value < 2 * 10 ^ topExponent x := by
      have hdistance := (abs_lt.mp hnear).2
      have hlt := value_lt_topExponent hx
      linarith
    exact absurd hbelow (not_lt.mpr (mul_le_mul_of_nonneg_right htwo hstep.le))

/-! ## Canonical texts -/

variable {b b' : Binary64} {s : List Char}

theorem valid_of_read? (h : read? s = some b) : b.magnitude.Valid := by
  obtain ⟨_, _, hread⟩ := Option.bind_eq_some_iff.mp h
  obtain ⟨_, hdecimal, hpure⟩ := Option.bind_eq_some_iff.mp hread
  obtain rfl := Option.some.inj hpure
  exact valid_of_ofDecimal? hdecimal

theorem positional_plain (h : b.magnitude.Valid) : Decimal.Positional b.plain :=
  Decimal.positional_plain (coefficient_shortest h .upper) b.negative

/-- The canonical text reads as the number that it is the text of. -/
theorem read?_plain (h : b.magnitude.Valid) : read? b.plain = some b := by
  obtain ⟨d, hsigned, hvalue⟩ := Decimal.signed?_plain (shortest .upper b.magnitude) b.negative
  have hdecimal : ofDecimal? d = some b.magnitude := by
    rw [ofDecimal?_congr hvalue, ofDecimal?_shortest h]
  unfold read?
  rw [plain, hsigned]
  simp only [Option.bind_eq_bind, Option.bind_some, hdecimal]
  rfl

/-- Two numbers have one text exactly if they have one sign and one value. -/
theorem plain_eq_iff (h : b.magnitude.Valid) (h' : b'.magnitude.Valid) :
    b.plain = b'.plain ↔ b.negative = b'.negative ∧ b.magnitude.value = b'.magnitude.value := by
  constructor
  · intro heq
    have hread := read?_plain h
    rw [heq, read?_plain h'] at hread
    obtain rfl := Option.some.inj hread
    exact ⟨rfl, rfl⟩
  · rintro ⟨hsign, hvalue⟩
    obtain ⟨negative, x⟩ := b
    obtain ⟨negative', x'⟩ := b'
    obtain rfl : negative = negative' := hsign
    obtain rfl : x = x' := h.eq_of_value h' hvalue
    rfl

end BlockScript.Binary64
