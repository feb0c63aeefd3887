import BlockScript.Text.Hexadecimal
/-!
# Single-quoted literals

The written form of a text as a single-quoted literal of the script language, and a reader of
such literals. Reading what `encode` wrote gives the text back and leaves what follows it.
-/

namespace BlockScript.Text.Quoted

/-- The escaped form of one character: a backslash, a quote and the line ends are escaped, every
other character stands for itself. -/
def escape (c : Char) : List Char :=
  if c = '\\' then ['\\', '\\']
  else if c = '\'' then ['\\', '\'']
  else if c = '\n' then ['\\', 'n']
  else if c = '\r' then ['\\', 'r']
  else if c = '\u2028' then ['\\', 'u', '2', '0', '2', '8']
  else if c = '\u2029' then ['\\', 'u', '2', '0', '2', '9']
  else [c]

def escapeAll : List Char → List Char
  | [] => []
  | c :: r => escape c ++ escapeAll r

def encode (s : List Char) : List Char :=
  '\'' :: (escapeAll s ++ ['\''])

def quote (s : String) : String :=
  String.ofList (encode s.toList)

/-- The characters that end a line, and so may not stand in a literal unescaped. -/
def isLineEnd (c : Char) : Bool :=
  c == '\n' || c == '\r' || c == '\u2028' || c == '\u2029'

/-- The character of a four-digit escape. A surrogate alone is no character. -/
def unit? (a b c d : Char) : Option Char := do
  let n ← hexUnit? a b c d
  if n.isValidChar then some (Char.ofNat n) else none

/-- The character that a one-letter escape stands for: the named control characters, and every
other character for itself. -/
def named (c : Char) : Char :=
  if c = 'n' then '\n'
  else if c = 'r' then '\r'
  else if c = 't' then '\t'
  else if c = 'b' then '\x08'
  else if c = 'f' then '\x0c'
  else if c = 'v' then '\x0b'
  else c

/-- Reads the body of a literal up to and with its closing quote, and gives the text and what
follows the quote. -/
def body : List Char → Option (List Char × List Char)
  | [] => none
  | '\'' :: r => some ([], r)
  | '\\' :: 'u' :: a :: b :: c :: d :: r => do
    let x ← unit? a b c d
    let (s, rest) ← body r
    pure (x :: s, rest)
  | '\\' :: c :: r =>
    if c = 'u' ∨ c = 'x' ∨ c.isDigit ∨ isLineEnd c then none
    else do
      let (s, rest) ← body r
      pure (named c :: s, rest)
  | c :: r =>
    if c = '\\' ∨ isLineEnd c then none
    else do
      let (s, rest) ← body r
      pure (c :: s, rest)

def decode : List Char → Option (List Char × List Char)
  | '\'' :: r => body r
  | _ => none

end BlockScript.Text.Quoted
