import BlockScript.Json.Codec
import BlockScript.Script.Operand
/-!
# Types of variables

The types that the user chooses from, with the first value of a variable of each type and the
codecs of their names.
-/

namespace BlockScript

open Json (Codec Value)
open Script (Operand)

inductive ElemType where
  | number
  | text
  | bool
  | sound
deriving DecidableEq, Repr

inductive VarType where
  | single (elem : ElemType)
  | list (elem : ElemType)
deriving DecidableEq, Repr

namespace ElemType

def describe : ElemType → String
  | number => "Num"
  | text => "Str"
  | bool => "Bool"
  | sound => "Sound"

def initial : ElemType → Operand
  | number => .zero
  | text => .text ""
  | bool => .bool false
  | sound => .silence

/-- The types, in the order in which a message lists their names. -/
def all : List ElemType := [number, text, bool, sound]

def name : ElemType → String
  | number => "num"
  | text => "str"
  | bool => "bool"
  | sound => "sound"

def codec : Codec ElemType := .enumeration all name

end ElemType

namespace VarType

def initial : VarType → Operand
  | single elem => elem.initial
  | list _ => .emptyList

/-- A list type is written as the type of its entries under a tag. -/
def codec : Codec VarType :=
  .variants [.single "var" ElemType.codec single, .single "list" ElemType.codec list] fun
    | single e => .tagged "var" (ElemType.codec.encode e)
    | list e => .tagged "list" (ElemType.codec.encode e)

end VarType

end BlockScript
