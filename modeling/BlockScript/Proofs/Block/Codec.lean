import BlockScript.Block.Builtin
import BlockScript.Block.Operator
import BlockScript.Block.Trigger
import BlockScript.Proofs.Json.Codec
/-!
# What blocks offer is read as it is written

Types, functions of the library, operators and triggers, with the shapes of the values that stand
for them.
-/

namespace BlockScript

open Json

theorem ElemType.tolerates_codec : ElemType.codec.Tolerates .enumeration :=
  Codec.tolerates_enumeration fun a => by cases a <;> rfl

def VarType.shape : Shape :=
  .variants [("var", .enumeration), ("list", .enumeration)]

theorem VarType.tolerates_codec : VarType.codec.Tolerates shape := by
  refine Codec.tolerates_variants fun type => ?_
  cases type with
  | single elem | list elem => exact .single rfl rfl ElemType.tolerates_codec elem rfl

theorem ListOp.tolerates_codec : ListOp.codec.Tolerates .enumeration :=
  Codec.tolerates_enumeration fun a => by cases a <;> rfl

theorem Choice.tolerates_codec : Choice.codec.Tolerates .enumeration :=
  Codec.tolerates_enumeration fun a => by cases a <;> rfl

namespace Builtin

def listShape : List (FieldShape Shape) :=
  [.required "elem" .enumeration, .required "op" .enumeration]

def shape : Shape :=
  .variants [("array", .record listShape)]

theorem tolerates_codec : codec.Tolerates shape := by
  have hfields : listFields.Tolerates listShape :=
    ⟨.required _ ElemType.tolerates_codec, by decide, .required _ ListOp.tolerates_codec, by decide,
      trivial⟩
  refine Codec.tolerates_variants fun func => ?_
  cases func with
  | list elem op => exact .record rfl rfl hfields (elem, op, ()) rfl
  | numberToText | textToNumber | boolToText | scan | randomInt | round | abs | maxMin
    | measureDistance | melody | print | printNumber | move | sleep | playMelody | playSounds
    | say => exact .unit rfl

end Builtin

theorem ArithOp.tolerates_codec : ArithOp.codec.Tolerates .enumeration :=
  Codec.tolerates_enumeration fun a => by cases a <;> rfl

theorem LogicOp.tolerates_codec : LogicOp.codec.Tolerates .enumeration :=
  Codec.tolerates_enumeration fun a => by cases a <;> rfl

theorem CompareOp.tolerates_codec : CompareOp.codec.Tolerates .enumeration :=
  Codec.tolerates_enumeration fun a => by cases a <;> rfl

def BinaryOp.shape : Shape :=
  .variants [("arith", .enumeration), ("logic", .enumeration), ("num_comp", .enumeration),
    ("str_comp", .enumeration)]

theorem BinaryOp.tolerates_codec : BinaryOp.codec.Tolerates shape := by
  refine Codec.tolerates_variants fun op => ?_
  cases op with
  | arith op => exact .single rfl rfl ArithOp.tolerates_codec op rfl
  | logic op => exact .single rfl rfl LogicOp.tolerates_codec op rfl
  | compareNumbers op | compareTexts op => exact .single rfl rfl CompareOp.tolerates_codec op rfl
  | remainder | appendTexts => exact .unit rfl

theorem UnaryOp.tolerates_codec : UnaryOp.codec.Tolerates .enumeration :=
  Codec.tolerates_enumeration fun a => by cases a <;> rfl

def Trigger.shape : Shape :=
  .variants [("key_pressed", .plain), ("delayed_start", .plain)]

theorem Trigger.tolerates_codec : Trigger.codec.Tolerates shape := by
  refine Codec.tolerates_variants fun trigger => ?_
  cases trigger with
  | keyPressed text | delayedStart text =>
      exact .single rfl rfl Codec.tolerates_string text rfl

end BlockScript
