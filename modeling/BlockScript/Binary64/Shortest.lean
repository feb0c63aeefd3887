import BlockScript.Binary64.Basic
/-!
# Shortest decimals

The decimal with the fewest digits that reads back as a given binary64 number, and the canonical
text of a number built on it.
-/

namespace BlockScript.Binary64

inductive Tie where
  /-- The upper one. -/
  | upper
  /-- The one whose last digit is even. -/
  | even
deriving DecidableEq, Repr

def Tie.takesLower : Tie → Nat → Bool
  | upper, _ => false
  | even, n => n % 2 = 0

/-- The neighbour of `x` on the grid of the multiples of `10 ^ p` that reads back as `x`. If both
neighbours do, it is the nearer one, and the one that `tie` says when they are equally near. -/
def onGrid? (tie : Tie) (x : Magnitude) (p : Int) : Option Decimal :=
  let (num, den) := x.ratio
  let n := num * Nat.pow 10 (-p).toNat
  let d := den * Nat.pow 10 p.toNat
  let below : Decimal := ⟨n / d, p⟩
  let above : Decimal := ⟨n / d + 1, p⟩
  let r := n % d
  let lowReads := ofDecimal? below = some x
  let highReads := r ≠ 0 ∧ ofDecimal? above = some x
  let lowWins := 2 * r < d ∨ (2 * r = d ∧ tie.takesLower (n / d))
  if lowReads ∧ (lowWins ∨ ¬ highReads) then some below
  else if highReads then some above
  else none

/-- The exact decimal value: the grid of `10 ^ min exponent 0` holds every such number. -/
def exact (x : Magnitude) : Decimal :=
  let p := min x.exponent 0
  let (num, den) := x.ratio
  ⟨num * Nat.pow 10 (-p).toNat / den, p⟩

/-- Looks through the grids of `10 ^ p`, `10 ^ (p - 1)`, … for the first that holds a decimal
reading back as `x`. -/
def firstOnGrid (tie : Tie) (x : Magnitude) : Nat → Int → Decimal
  | 0, _ => exact x
  | fuel + 1, p =>
    match onGrid? tie x p with
    | some d => d
    | none => firstOnGrid tie x fuel (p - 1)

/-- A power of ten above `x`, as its exponent. -/
def topExponent (x : Magnitude) : Int :=
  ((x.mantissa.log2 : Int) + 1 + x.exponent) * 30103 / 100000 + 1

/-- The shortest decimal that reads back as `x`, and of those the nearest. The search ends at the
latest on the grid that holds `x` itself. -/
def shortest (tie : Tie) (x : Magnitude) : Decimal :=
  let top := topExponent x
  firstOnGrid tie x (top - min x.exponent 0).toNat.succ top

def read? (s : List Char) : Option Binary64 := do
  let (negative, d) ← Decimal.signed? s
  let x ← ofDecimal? d
  pure ⟨negative, x⟩

/-- The canonical text: the shortest decimal in positional form, the upper one of two equally near,
after a minus sign for a negative number or a negative zero. -/
def plain (x : Binary64) : List Char :=
  let digits := (shortest .upper x.magnitude).plain
  if x.negative then '-' :: digits else digits

end BlockScript.Binary64
