import BlockScript.Decimal.Basic
/-!
# Binary64 numbers

Finite numbers of the binary64 format as integers `mantissa · 2 ^ exponent`, and the rounding of
ratios and decimals to the nearest of them. A ratio beyond the largest finite number rounds to
none; of two nearest numbers the one with the even mantissa is taken.
-/

namespace BlockScript

namespace Binary64

/-- The size of a finite number: `mantissa · 2 ^ exponent`. The numbers of the format are those
with `mantissa < 2 ^ 53` and `-1074 ≤ exponent ≤ 971`, where the exponent is as small as it can
be. -/
structure Magnitude where
  mantissa : Nat
  exponent : Int
deriving DecidableEq, Repr

def Magnitude.zero : Magnitude := ⟨0, -1074⟩

def Magnitude.ratio (x : Magnitude) : Nat × Nat :=
  (x.mantissa * Nat.pow 2 x.exponent.toNat, Nat.pow 2 (-x.exponent).toNat)

/-- The ratio `num / (den · 2 ^ e)` with both sides natural. -/
def scaled (num den : Nat) (e : Int) : Nat × Nat :=
  (num * Nat.pow 2 (-e).toNat, den * Nat.pow 2 e.toNat)

/-- The natural nearest to `n / d`; a half goes to the even neighbour. -/
def roundHalfEven (n d : Nat) : Nat :=
  let q := n / d
  let r := n % d
  if 2 * r < d ∨ (2 * r = d ∧ q % 2 = 0) then q else q + 1

/-- The smallest exponent, from `-1074` up, at which the whole part of `num / den` in units of
`2 ^ e` stays below `2 ^ 53`. -/
def unitExponent (num den : Nat) : Int :=
  let guess := max (-1074) ((num.log2 : Int) - den.log2 - 53)
  let (n, d) := scaled num den guess
  if n / d < Nat.pow 2 53 then guess else guess + 1

/-- The number of the format nearest to `num / den`, where `den` is positive. -/
def nearest? (num den : Nat) : Option Magnitude :=
  let e := unitExponent num den
  let (n, d) := scaled num den e
  let m := roundHalfEven n d
  let x : Magnitude := if m < Nat.pow 2 53 then ⟨m, e⟩ else ⟨Nat.pow 2 52, e + 1⟩
  if x.exponent ≤ 971 then some x else none

/-- The number of the format nearest to a decimal. The two early cases answer without raising ten
to a large power: a nonzero decimal of exponent above 310 exceeds every number of the format, and
one below `10 ^ (-330)` rounds to zero. -/
def ofDecimal? (x : Decimal) : Option Magnitude :=
  if x.coefficient = 0 then some .zero
  else if 310 < x.exponent then none
  else if x.exponent + (x.coefficient.log2 / 3 + 1 : Nat) < -330 then some .zero
  else nearest? (x.coefficient * Nat.pow 10 x.exponent.toNat) (Nat.pow 10 (-x.exponent).toNat)

end Binary64

/-- A finite binary64 number; zero has two signs. -/
structure Binary64 where
  negative : Bool
  magnitude : Binary64.Magnitude
deriving DecidableEq, Repr

end BlockScript
