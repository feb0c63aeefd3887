import BlockScript.Json.Fault
import BlockScript.Text.Hexadecimal
/-!
# Strings in JSON texts

The two ways of passing a string: `read` gives its value, `skip` only finds its end. Skipping
accepts every string that can be read, and besides those with unpaired surrogate escapes. The
inverse of reading is `escapeAll`.
-/

namespace BlockScript.Json.Quoted

open BlockScript.Text (hexUnit?)

/-- Why no code unit could be read before the end of a text: with fewer than four bytes left the
text is at its end, otherwise the escape is wrong. -/
def unitFault (s : List Char) : Fault :=
  if (String.ofList (s.take 4)).utf8ByteSize < 4 then .endInString else .badEscape

/-- The character that a one-letter escape stands for. -/
def escaped? (c : Char) : Option Char :=
  if c = '"' then some '"'
  else if c = '\\' then some '\\'
  else if c = '/' then some '/'
  else if c = 'b' then some '\x08'
  else if c = 'f' then some '\x0c'
  else if c = 'n' then some '\n'
  else if c = 'r' then some '\r'
  else if c = 't' then some '\t'
  else none

def isLeading (n : Nat) : Bool :=
  0xd800 ≤ n && n ≤ 0xdbff

def isTrailing (n : Nat) : Bool :=
  0xdc00 ≤ n && n ≤ 0xdfff

def pair (n m : Nat) : Char :=
  Char.ofNat ((n - 0xd800) * 0x400 + (m - 0xdc00) + 0x10000)

def prepend (c : Char) : Except Fault (List Char × List Char) → Except Fault (List Char × List Char)
  | .ok (s, rest) => .ok (c :: s, rest)
  | .error f => .error f

/-- Reads the rest of a string, after its opening quote, and gives its value and what follows the
closing quote. The escape of a leading surrogate has to be followed by that of a trailing one. -/
def read : List Char → Except Fault (List Char × List Char)
  | [] => .error .endInString
  | ['\\'] => .error .endInString
  | '"' :: r => .ok ([], r)
  | '\\' :: 'u' :: a :: b :: c :: d :: r =>
    match hexUnit? a b c d with
    | none => .error .badEscape
    | some n =>
      if isTrailing n then .error .loneSurrogate
      else if isLeading n then
        match r with
        | [] => .error .endInString
        | ['\\'] => .error .endInString
        | '\\' :: 'u' :: e :: f :: g :: h :: r =>
          match hexUnit? e f g h with
          | none => .error .badEscape
          | some m => if isTrailing m then prepend (pair n m) (read r) else .error .loneSurrogate
        | '\\' :: 'u' :: r => .error (unitFault r)
        | _ => .error .unpairedEscape
      else prepend (Char.ofNat n) (read r)
  | '\\' :: c :: r =>
    if c = 'u' then .error (unitFault r)
    else match escaped? c with
      | some x => prepend x (read r)
      | none => .error .badEscape
  | c :: r => if c.toNat < 0x20 then .error .rawControl else prepend c (read r)

/-- Finds the end of a string, after its opening quote, without looking at what its escapes
stand for. -/
def skip : List Char → Except Fault (List Char)
  | [] => .error .endInString
  | ['\\'] => .error .endInString
  | '"' :: r => .ok r
  | '\\' :: 'u' :: a :: b :: c :: d :: r =>
    if (hexUnit? a b c d).isSome then skip r else .error .badEscape
  | '\\' :: c :: r =>
    if c = 'u' then .error (unitFault r)
    else if (escaped? c).isSome then skip r
    else .error .badEscape
  | c :: r => if c.toNat < 0x20 then .error .rawControl else skip r

def escape (c : Char) : List Char :=
  if c = '"' then ['\\', '"']
  else if c = '\\' then ['\\', '\\']
  else if c = '\x08' then ['\\', 'b']
  else if c = '\t' then ['\\', 't']
  else if c = '\n' then ['\\', 'n']
  else if c = '\x0c' then ['\\', 'f']
  else if c = '\r' then ['\\', 'r']
  else if c.toNat < 0x20 then
    ['\\', 'u', '0', '0', Nat.digitChar (c.toNat / 16), Nat.digitChar (c.toNat % 16)]
  else [c]

def escapeAll (s : List Char) : List Char :=
  s.flatMap escape

def encode (s : List Char) : List Char :=
  '"' :: (escapeAll s ++ ['"'])

end BlockScript.Json.Quoted
