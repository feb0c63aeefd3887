import BlockScript.Json.Quoted
/-!
# JSON values and their texts

Values as they are written, with two layouts: `compact` without any blank, and `pretty` with a line
for each entry, indented by two blanks for each level.
-/

namespace BlockScript.Json

/-- A JSON value that the library writes. Its numbers are naturals. -/
inductive Value where
  | null
  | bool (b : Bool)
  | number (n : Nat)
  | string (s : String)
  | array (items : List Value)
  | object (members : List (String × Value))
deriving Repr, Inhabited

namespace Value

def word (b : Bool) : List Char :=
  if b then ['t', 'r', 'u', 'e'] else ['f', 'a', 'l', 's', 'e']

mutual

def compact : Value → List Char
  | null => ['n', 'u', 'l', 'l']
  | bool b => word b
  | number n => Nat.toDigits 10 n
  | string s => Quoted.encode s.toList
  | array items => '[' :: (compactItems items ++ [']'])
  | object members => '\x7b' :: (compactMembers members ++ ['\x7d'])

def compactItems : List Value → List Char
  | [] => []
  | [v] => v.compact
  | v :: w :: r => v.compact ++ ',' :: compactItems (w :: r)

def compactMembers : List (String × Value) → List Char
  | [] => []
  | [(k, v)] => Quoted.encode k.toList ++ ':' :: v.compact
  | (k, v) :: m :: r =>
    Quoted.encode k.toList ++ ':' :: (v.compact ++ ',' :: compactMembers (m :: r))

end

def newLine (level : Nat) : List Char :=
  '\n' :: List.replicate (2 * level) ' '

mutual

/-- The text of a value with a line for each entry; `level` is the number of open brackets. -/
def prettyAt (level : Nat) : Value → List Char
  | null => ['n', 'u', 'l', 'l']
  | bool b => word b
  | number n => Nat.toDigits 10 n
  | string s => Quoted.encode s.toList
  | array [] => ['[', ']']
  | array (v :: r) =>
    '[' :: (newLine (level + 1) ++ prettyItems (level + 1) (v :: r) ++ newLine level ++ [']'])
  | object [] => ['\x7b', '\x7d']
  | object (m :: r) =>
    '\x7b' :: (newLine (level + 1) ++ prettyMembers (level + 1) (m :: r) ++ newLine level ++
      ['\x7d'])

def prettyItems (level : Nat) : List Value → List Char
  | [] => []
  | [v] => v.prettyAt level
  | v :: w :: r => v.prettyAt level ++ ',' :: (newLine level ++ prettyItems level (w :: r))

def prettyMembers (level : Nat) : List (String × Value) → List Char
  | [] => []
  | [(k, v)] => Quoted.encode k.toList ++ ':' :: ' ' :: v.prettyAt level
  | (k, v) :: m :: r =>
    Quoted.encode k.toList ++ ':' :: ' ' ::
      (v.prettyAt level ++ ',' :: (newLine level ++ prettyMembers level (m :: r)))

end

def pretty (v : Value) : List Char :=
  v.prettyAt 0

def ofOption {α : Type} (encode : α → Value) : Option α → Value
  | none => null
  | some a => encode a

def tagged (name : String) (content : Value) : Value :=
  object [(name, content)]

end Value

end BlockScript.Json
