/-!
# Decimal numbers

Unsigned decimal numbers `coefficient · 10 ^ exponent`, the grammar of their texts, and the
positional text of such a number.
-/

namespace BlockScript

/-- The number `coefficient · 10 ^ exponent`. -/
structure Decimal where
  coefficient : Nat
  exponent : Int
deriving DecidableEq, Repr

namespace Decimal

def valueOf (digits : List Char) : Nat :=
  digits.foldl (fun n c => n * 10 + (c.toNat - '0'.toNat)) 0

/-- The digits of a list up to its last nonzero one. -/
def dropFinalZeros (digits : List Char) : List Char :=
  (digits.reverse.dropWhile (· == '0')).reverse

/-- The number that `digits` spells, times ten to `exponent`. Zeros at the end of the digits count
towards the exponent, so that the coefficient is as small as it can be. -/
def ofDigits (digits : List Char) (exponent : Int) : Decimal :=
  let kept := dropFinalZeros digits
  ⟨valueOf kept, exponent + (digits.length - kept.length : Nat)⟩

/-- The exponent part of a number text: nothing, or `e`, an optional sign and digits. -/
def exponentPart? : List Char → Option Int
  | [] => some 0
  | c :: r =>
    if c = 'e' ∨ c = 'E' then
      let (negative, digits) := match r with
        | '-' :: r => (true, r)
        | '+' :: r => (false, r)
        | r => (false, r)
      if digits ≠ [] ∧ digits.all Char.isDigit then
        some (if negative then -(valueOf digits : Int) else valueOf digits)
      else none
    else none

/-- Reads an unsigned number text: digits with at most one point and at least one digit, then an
optional exponent part. -/
def unsigned? (s : List Char) : Option Decimal :=
  let whole := s.takeWhile Char.isDigit
  let rest := s.dropWhile Char.isDigit
  let (fraction, rest) := match rest with
    | '.' :: r => (r.takeWhile Char.isDigit, r.dropWhile Char.isDigit)
    | r => ([], r)
  if whole = [] ∧ fraction = [] then none
  else (exponentPart? rest).map fun e => ofDigits (whole ++ fraction) (e - fraction.length)

/-- Reads a number text with an optional sign; the flag says whether the sign is a minus. -/
def signed? : List Char → Option (Bool × Decimal)
  | '-' :: r => (unsigned? r).map ((true, ·))
  | '+' :: r => (unsigned? r).map ((false, ·))
  | r => (unsigned? r).map ((false, ·))

/-- The positional text: all digits of the number, with a point only before a fraction and never
an exponent. -/
def plain (d : Decimal) : List Char :=
  let digits := Nat.toDigits 10 d.coefficient
  if d.coefficient = 0 then ['0']
  else if 0 ≤ d.exponent then digits ++ List.replicate d.exponent.toNat '0'
  else
    let places := (-d.exponent).toNat
    if places < digits.length then
      digits.take (digits.length - places) ++ '.' :: digits.drop (digits.length - places)
    else '0' :: '.' :: (List.replicate (places - digits.length) '0' ++ digits)

end Decimal

end BlockScript
