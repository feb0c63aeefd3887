import BlockScript.Block.Type
/-!
# Functions of the library

The functions that blocks offer: their names in a script, their arities, whether they give a value,
what replaces an undefined one, and the codecs of their own names.
-/

namespace BlockScript

open Json (Codec Fields Value Variant)
open Script (Operand)

inductive ListOp where
  | push
  | pop
  | insert
  | remove
  | append
  | clear
  | set
  | get
  | getLast
  | length
deriving DecidableEq, Repr

inductive Builtin where
  | numberToText
  | textToNumber
  | boolToText
  | scan
  | randomInt
  | round
  | abs
  | maxMin
  | measureDistance
  | melody
  | print
  | printNumber
  | move
  | sleep
  | playMelody
  | playSounds
  | say
  | list (elem : ElemType) (op : ListOp)
deriving DecidableEq, Repr

/-- The entry chosen on a block that stands for several functions. -/
inductive Choice where
  | round
  | ceil
  | floor
  | max
  | min
  | moveForward
  | moveBackward
  | turnRight
  | turnLeft
deriving DecidableEq, Repr

namespace ListOp

def describe : ListOp → String
  | push => "Push"
  | pop => "Pop"
  | insert => "Insert"
  | remove => "Remove"
  | append => "Append"
  | clear => "Clear"
  | set => "Set"
  | get => "Get"
  | getLast => "GetLast"
  | length => "Length"

def function : ListOp → String
  | push => "_aryPush"
  | pop => "_aryPop"
  | insert => "_aryInsert"
  | remove => "_aryRemove"
  | append => "_aryAddAll"
  | clear => "_aryClear"
  | set => "_arySet"
  | get => "_aryGet"
  | getLast => "_aryGetLast"
  | length => "_aryLength"

def arity : ListOp → Nat
  | pop | clear | getLast | length => 1
  | push | remove | append | get => 2
  | insert | set => 3

def all : List ListOp := [push, pop, insert, remove, append, clear, set, get, getLast, length]

def name : ListOp → String
  | push => "push"
  | pop => "pop"
  | insert => "insert"
  | remove => "remove"
  | append => "append"
  | clear => "clear"
  | set => "set"
  | get => "get"
  | getLast => "get_last"
  | length => "length"

def codec : Codec ListOp := .enumeration all name

end ListOp

namespace Choice

def describe : Choice → String
  | round => "Round"
  | ceil => "Ceil"
  | floor => "Floor"
  | max => "Max"
  | min => "Min"
  | moveForward => "MoveForward"
  | moveBackward => "MoveBackward"
  | turnRight => "TurnRight"
  | turnLeft => "TurnLeft"

/-- How a message shows whether a choice was made, and which. -/
def describeOption : Option Choice → String
  | none => "None"
  | some c => "Some(" ++ c.describe ++ ")"

def all : List Choice :=
  [round, ceil, floor, max, min, moveForward, moveBackward, turnRight, turnLeft]

def name : Choice → String
  | round => "round"
  | ceil => "ceil"
  | floor => "floor"
  | max => "max"
  | min => "min"
  | moveForward => "move_forward"
  | moveBackward => "move_backward"
  | turnRight => "turn_right"
  | turnLeft => "turn_left"

def codec : Codec Choice := .enumeration all name

end Choice

namespace Builtin

def describe : Builtin → String
  | numberToText => "NumToStr"
  | textToNumber => "StrToNum"
  | boolToText => "BoolToStr"
  | scan => "Scan"
  | randomInt => "RandomInt"
  | round => "NumRound"
  | abs => "Abs"
  | maxMin => "MaxMin"
  | measureDistance => "MeasureDistance"
  | melody => "Melody"
  | print => "Print"
  | printNumber => "PrintNum"
  | move => "Move"
  | sleep => "Sleep"
  | playMelody => "PlayMelody"
  | playSounds => "PlaySoundList"
  | say => "Say"
  | list elem op => "Array \x7b elem: " ++ elem.describe ++ ", op: " ++ op.describe ++ " \x7d"

/-- The library's name of a function. A function that stands for several is named by the choice,
and no other takes one. -/
def function? : Builtin → Option Choice → Option String
  | numberToText, none => some "String"
  | textToNumber, none => some "_strToNum"
  | boolToText, none => some "_boolToStr"
  | scan, none => some "_scan"
  | randomInt, none => some "_randomInt"
  | round, some .round => some "Math.round"
  | round, some .ceil => some "Math.ceil"
  | round, some .floor => some "Math.floor"
  | abs, none => some "Math.abs"
  | maxMin, some .max => some "Math.max"
  | maxMin, some .min => some "Math.min"
  | measureDistance, none => some "_measureDistance"
  | melody, none => some "_pushSound"
  | print, none => some "_println"
  | printNumber, none => some "_println"
  | move, some .moveForward => some "_moveForward"
  | move, some .moveBackward => some "_moveBackward"
  | move, some .turnRight => some "_turnRight"
  | move, some .turnLeft => some "_turnLeft"
  | sleep, none => some "_sleep"
  | playMelody, none => some "_playMelodies"
  | playSounds, none => some "_playMelodies"
  | say, none => some "_say"
  | list _ op, none => some op.function
  | _, _ => none

def arity : Builtin → Nat
  | measureDistance => 0
  | numberToText | textToNumber | boolToText | scan | round | abs | print | printNumber | sleep
  | playMelody | playSounds | say => 1
  | randomInt | maxMin | melody | move => 2
  | list _ op => op.arity

def hasValue : Builtin → Bool
  | print | printNumber | move | sleep | playMelody | playSounds | say => false
  | list _ op =>
    match op with
    | .get | .getLast | .length => true
    | _ => false
  | _ => true

/-- What replaces the undefined value of a list access. -/
def substitute? : Builtin → Option Operand
  | list elem .get => some elem.initial
  | list elem .getLast => some elem.initial
  | _ => none

def listFields : Fields [ElemType, ListOp] :=
  (.required "elem" ElemType.codec, .required "op" ListOp.codec, ())

def variants : List (Variant Builtin) :=
  [.unit "num_to_str" numberToText, .unit "str_to_num" textToNumber,
    .unit "bool_to_str" boolToText, .unit "scan" scan, .unit "random_int" randomInt,
    .unit "num_round" round, .unit "abs" abs, .unit "max_min" maxMin,
    .unit "measure_distance" measureDistance, .unit "melody" melody, .unit "print" print,
    .unit "print_num" printNumber, .unit "move" move, .unit "sleep" sleep,
    .unit "play_melody" playMelody, .unit "play_sound_list" playSounds, .unit "say" say,
    .record "array" "struct variant PreDefFunc::Array" listFields fun (elem, op, _) => list elem op]

def encode : Builtin → Value
  | numberToText => .string "num_to_str"
  | textToNumber => .string "str_to_num"
  | boolToText => .string "bool_to_str"
  | scan => .string "scan"
  | randomInt => .string "random_int"
  | round => .string "num_round"
  | abs => .string "abs"
  | maxMin => .string "max_min"
  | measureDistance => .string "measure_distance"
  | melody => .string "melody"
  | print => .string "print"
  | printNumber => .string "print_num"
  | move => .string "move"
  | sleep => .string "sleep"
  | playMelody => .string "play_melody"
  | playSounds => .string "play_sound_list"
  | say => .string "say"
  | list elem op => .tagged "array" (.object (listFields.write (elem, op, ())))

/-- A function is written as its name, an operation on lists as an object under a tag. -/
def codec : Codec Builtin := .variants variants encode

end Builtin

end BlockScript
