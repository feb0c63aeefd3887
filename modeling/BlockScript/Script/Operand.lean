import BlockScript.Binary64.Shortest
import BlockScript.Text.Quoted
/-!
# Names and operands of a script

The names that a generated script binds are numbers under one of four roles, and an operand is a
name or a constant. Both have one written form.
-/

namespace BlockScript.Script

inductive Name where
  | var (serial : Nat)
  | func (serial : Nat)
  | lock (serial : Nat)
  /-- The bound of a counted loop. -/
  | limit (serial : Nat)
deriving DecidableEq, Repr

def Name.render : Name → String
  | var n => "_v" ++ toString n
  | func n => "_f" ++ toString n
  | lock n => "_lock" ++ toString n
  | limit n => "__v" ++ toString n

inductive Operand where
  | name (n : Name)
  | number (x : Binary64)
  | text (s : String)
  | lineFeed
  | bool (b : Bool)
  | emptyList
  | silence
deriving DecidableEq, Repr

namespace Operand

def zero : Operand := .number ⟨false, .zero⟩

def render : Operand → String
  | name n => n.render
  | number x => String.ofList x.plain
  | text s => Text.Quoted.quote s
  | lineFeed => "'\\n'"
  | bool true => "true"
  | bool false => "false"
  | emptyList => "[]"
  | silence => "_nilSound"

def isNegative : Operand → Bool
  | number x => x.negative
  | _ => false

end Operand

end BlockScript.Script
