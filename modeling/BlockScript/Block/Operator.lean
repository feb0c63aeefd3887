import BlockScript.Json.Codec
/-!
# Operators

The operators of expressions, with their signs in a script and the codecs of their names.
-/

namespace BlockScript

open Json (Codec Value Variant)

inductive ArithOp where
  | add
  | sub
  | mul
  | div
deriving DecidableEq, Repr

inductive LogicOp where
  | and
  | or
deriving DecidableEq, Repr

inductive CompareOp where
  | eq
  | ne
  | lt
  | le
  | gt
  | ge
deriving DecidableEq, Repr

inductive BinaryOp where
  | arith (op : ArithOp)
  | remainder
  | logic (op : LogicOp)
  | compareNumbers (op : CompareOp)
  | compareTexts (op : CompareOp)
  | appendTexts
deriving DecidableEq, Repr

inductive UnaryOp where
  | not
  | negate
deriving DecidableEq, Repr

namespace ArithOp

def sign : ArithOp → String
  | add => "+"
  | sub => "-"
  | mul => "*"
  | div => "/"

def all : List ArithOp := [add, sub, mul, div]

def name : ArithOp → String
  | add => "add"
  | sub => "sub"
  | mul => "mul"
  | div => "div"

def codec : Codec ArithOp := .enumeration all name

end ArithOp

namespace LogicOp

def sign : LogicOp → String
  | and => "&&"
  | or => "||"

def all : List LogicOp := [and, or]

def name : LogicOp → String
  | and => "and"
  | or => "or"

def codec : Codec LogicOp := .enumeration all name

end LogicOp

namespace CompareOp

def sign : CompareOp → String
  | eq => "==="
  | ne => "!=="
  | lt => "<"
  | le => "<="
  | gt => ">"
  | ge => ">="

def all : List CompareOp := [eq, ne, lt, le, gt, ge]

def name : CompareOp → String
  | eq => "eq"
  | ne => "neq"
  | lt => "lt"
  | le => "lte"
  | gt => "gt"
  | ge => "gte"

def codec : Codec CompareOp := .enumeration all name

end CompareOp

namespace BinaryOp

def sign : BinaryOp → String
  | arith op => op.sign
  | remainder => "%"
  | logic op => op.sign
  | compareNumbers op => op.sign
  | compareTexts op => op.sign
  | appendTexts => "+"

/-- The sign with the blanks around it. -/
def token (op : BinaryOp) : String :=
  " " ++ op.sign ++ " "

/-- Whether the result may be no finite number. -/
def isArithmetic : BinaryOp → Bool
  | arith _ => true
  | remainder => true
  | _ => false

def variants : List (Variant BinaryOp) :=
  [.single "arith" ArithOp.codec arith, .unit "mod" remainder,
    .single "logic" LogicOp.codec logic, .single "num_comp" CompareOp.codec compareNumbers,
    .single "str_comp" CompareOp.codec compareTexts, .unit "append_str" appendTexts]

def encode : BinaryOp → Value
  | arith op => .tagged "arith" (ArithOp.codec.encode op)
  | remainder => .string "mod"
  | logic op => .tagged "logic" (LogicOp.codec.encode op)
  | compareNumbers op => .tagged "num_comp" (CompareOp.codec.encode op)
  | compareTexts op => .tagged "str_comp" (CompareOp.codec.encode op)
  | appendTexts => .string "append_str"

def codec : Codec BinaryOp := .variants variants encode

end BinaryOp

namespace UnaryOp

def sign : UnaryOp → String
  | not => "!"
  | negate => "-"

def all : List UnaryOp := [not, negate]

def name : UnaryOp → String
  | not => "not"
  | negate => "neg"

def codec : Codec UnaryOp := .enumeration all name

end UnaryOp

end BlockScript
