import BlockScript.Text.Unprintable
import BlockScript.Text.Extending
import BlockScript.Text.Ignorable
/-!
# Escaped texts in messages

How a text is shown inside a message: between double quotes, with every character that would not
show itself written as an escape.
-/

namespace BlockScript.Text.Escaped

def inRanges (ranges : Array (Nat × Nat)) (n : Nat) : Bool :=
  ranges.any fun (first, last) => first ≤ n && n ≤ last

/-- Whether a character shows itself: it has a form of its own, and does not join the character
before it. -/
def isShown (c : Char) : Bool :=
  let n := c.toNat
  if n < 0x7f then 0x20 ≤ n
  else
    !inRanges unprintableRanges n && !inRanges extendingRanges n && !inRanges ignorableRanges n

/-- The escape of a character by its code point, in the fewest lower-case hexadecimal digits. -/
def byCode (c : Char) : List Char :=
  ['\\', 'u', '\x7b'] ++ Nat.toDigits 16 c.toNat ++ ['\x7d']

def escape (c : Char) : List Char :=
  if c = '\x00' then ['\\', '0']
  else if c = '\t' then ['\\', 't']
  else if c = '\n' then ['\\', 'n']
  else if c = '\r' then ['\\', 'r']
  else if c = '"' then ['\\', '"']
  else if c = '\\' then ['\\', '\\']
  else if isShown c then [c]
  else byCode c

def enclose (s : String) : String :=
  String.ofList ('"' :: (s.toList.flatMap escape ++ ['"']))

end BlockScript.Text.Escaped
