import BlockScript.Binary64.Shortest
/-!
# Numbers in JSON texts

The lexemes of JSON numbers and their values. A lexeme without fraction and exponent that fits 64
bits is an integer. Any other is a binary64 number, found in two roundings: the leading digits that
fit 64 bits are rounded, and the result is multiplied or divided by a rounded power of ten. Such a
number appears in messages only.
-/

namespace BlockScript.Json

inductive Number where
  | natural (n : Nat)
  | negative (n : Nat)
  | float (x : Binary64)
deriving DecidableEq, Repr

/-- Why no number stands where one began: the text ended inside it, or a character does not fit. -/
inductive NumberDefect where
  | ended
  | malformed
deriving DecidableEq, Repr

structure Lexeme where
  negative : Bool
  whole : List Char
  fraction : Option (List Char)
  exponent : Option (Bool × List Char)
deriving DecidableEq, Repr

namespace Lexeme

def scanWhole : List Char → Except NumberDefect (List Char × List Char)
  | [] => .error .ended
  | c :: r =>
    if c = '0' then
      if r.head?.any Char.isDigit then .error .malformed else .ok (['0'], r)
    else if c.isDigit then .ok (c :: r.takeWhile Char.isDigit, r.dropWhile Char.isDigit)
    else .error .malformed

def scanDigits (s : List Char) : Except NumberDefect (List Char × List Char) :=
  match s.takeWhile Char.isDigit, s.dropWhile Char.isDigit with
  | [], [] => .error .ended
  | [], _ :: _ => .error .malformed
  | digits, rest => .ok (digits, rest)

def scanFraction : List Char → Except NumberDefect (Option (List Char) × List Char)
  | '.' :: r => do
    let (digits, rest) ← scanDigits r
    pure (some digits, rest)
  | r => .ok (none, r)

/-- The exponent, if there is one; the flag says whether it is negative. -/
def scanExponent : List Char → Except NumberDefect (Option (Bool × List Char) × List Char)
  | [] => .ok (none, [])
  | c :: r =>
    if c = 'e' ∨ c = 'E' then do
      let (negative, r) := match r with
        | '-' :: r => (true, r)
        | '+' :: r => (false, r)
        | r => (false, r)
      let (digits, rest) ← scanDigits r
      pure (some (negative, digits), rest)
    else .ok (none, c :: r)

def scan (negative : Bool) (s : List Char) : Except NumberDefect (Lexeme × List Char) := do
  let (whole, s) ← scanWhole s
  let (fraction, s) ← scanFraction s
  let (exponent, s) ← scanExponent s
  pure (⟨negative, whole, fraction, exponent⟩, s)

/-- Appends digits to a number while the result fits 64 bits; gives the digits left over. -/
def pushDigits : Nat → List Char → Nat × List Char
  | n, [] => (n, [])
  | n, c :: r =>
    let m := n * 10 + (c.toNat - '0'.toNat)
    if m < UInt64.size then pushDigits m r else (n, c :: r)

/-- `m` times or divided by a power of ten, each of the two rounded; none beyond the largest
finite number. Powers below `10 ^ (-308)` are divided away `10 ^ 308` at a time. -/
def scaleByTen : Nat → Binary64.Magnitude → Int → Option Binary64.Magnitude
  | 0, _, _ => some .zero
  | fuel + 1, m, e =>
    if m.mantissa = 0 then some .zero
    else if 308 < e then none
    else do
      let (num, den) := m.ratio
      let power ← Binary64.nearest? (Nat.pow 10 (min e.natAbs 308)) 1
      let (pnum, pden) := power.ratio
      if 0 ≤ e then Binary64.nearest? (num * pnum) (den * pden)
      else
        let quotient ← Binary64.nearest? (num * pden) (den * pnum)
        if -308 ≤ e then some quotient else scaleByTen fuel quotient (e + 308)

def float? (l : Lexeme) : Option Binary64.Magnitude := do
  let (n, left) := pushDigits 0 l.whole
  let fraction := l.fraction.getD []
  let (n, leftFraction) := pushDigits n fraction
  let start : Int := left.length - (fraction.length - leftFraction.length : Nat)
  let (negative, digits) := l.exponent.getD (false, [])
  let power := Decimal.valueOf digits
  if Nat.pow 2 31 ≤ power then
    if n ≠ 0 ∧ !negative then none else some .zero
  else
    let significand ← Binary64.nearest? n 1
    scaleByTen 4 significand (if negative then start - power else start + power)

/-- The value of a lexeme; none when it is too large for a binary64 number. -/
def value? (l : Lexeme) : Option Number :=
  let n := Decimal.valueOf l.whole
  if l.fraction = none ∧ l.exponent = none ∧ n < UInt64.size then
    if !l.negative then some (.natural n)
    else if 1 ≤ n ∧ n ≤ Nat.pow 2 63 then some (.negative n)
    else (Binary64.nearest? n 1).map fun m => .float ⟨true, m⟩
  else l.float?.map fun m => .float ⟨l.negative, m⟩

end Lexeme

/-- How a binary64 number is shown in a message: the shortest decimal, the even one of two equally
near, always with a point or an exponent. It is positional while the point stands within sixteen
digits to the right and five places to the left; otherwise the exponent has its sign. -/
def floatText (x : Binary64) : String :=
  let d := Binary64.shortest .even x.magnitude
  let digits := Nat.toDigits 10 d.coefficient
  let point : Int := digits.length + d.exponent
  let body : List Char :=
    if d.coefficient = 0 then ['0', '.', '0']
    else if 0 ≤ d.exponent ∧ point ≤ 16 then d.plain ++ ['.', '0']
    else if -5 < point ∧ point ≤ 16 then d.plain
    else
      let sign := if 0 < point then '+' else '-'
      let shown := sign :: Nat.toDigits 10 (point - 1).natAbs
      match digits with
      | [c] => c :: 'e' :: shown
      | c :: r => c :: '.' :: (r ++ 'e' :: shown)
      | [] => []
  String.ofList (if x.negative then '-' :: body else body)

end BlockScript.Json
