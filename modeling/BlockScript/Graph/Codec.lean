import BlockScript.Graph.Basic
import BlockScript.Json.Codec
/-!
# Graphs as JSON documents

The codecs of nodes and of all that they hold, and the reading and writing of whole graphs. Writing
is pretty-printed; reading accepts every form that the codecs accept.
-/

namespace BlockScript

open Json

namespace NodeId

def codec : Codec NodeId :=
  Codec.word.imap NodeId.mk NodeId.number

end NodeId

namespace NodeState

def all : List NodeState := [onWorkspace, dangling, child, deleted]

def name : NodeState → String
  | onWorkspace => "root_directly_under_workspace"
  | dangling => "root_dangling"
  | child => "child"
  | deleted => "deleted"

def codec : Codec NodeState := .enumeration all name

end NodeState

namespace Literal

def toneFields : Fields [NodeId, NodeId] :=
  (.required "frequency" NodeId.codec, .required "duration" NodeId.codec, ())

def variants : List (Variant Literal) :=
  [.single "num" .string number, .single "str" .string text, .single "bool" .string bool,
    .unit "line_feed" lineFeed, .single "empty_list" ElemType.codec emptyList,
    .record "freq_sound" "struct variant Literal::FreqSound" toneFields
      fun (frequency, duration, _) => tone frequency duration,
    .unit "nil_sound" silence]

def encode : Literal → Value
  | number s => .tagged "num" (.string s)
  | text s => .tagged "str" (.string s)
  | bool s => .tagged "bool" (.string s)
  | lineFeed => .string "line_feed"
  | emptyList e => .tagged "empty_list" (ElemType.codec.encode e)
  | tone frequency duration =>
    .tagged "freq_sound" (.object (toneFields.write (frequency, duration, ())))
  | silence => .string "nil_sound"

def codec : Codec Literal := .variants variants encode

end Literal

namespace BuiltinCall

def fields : Fields [Builtin, Option Choice, List NodeId] :=
  (.required "func" Builtin.codec, .optional "option" Choice.codec,
    .withDefault "args" (.list NodeId.codec) [], ())

def codec : Codec BuiltinCall :=
  .record "struct PreDefCall" fields (fun (func, choice, args, _) => ⟨func, choice, args⟩)
    fun c => (c.func, c.choice, c.args, ())

end BuiltinCall

namespace Declaration

def fields : Fields [VarType, String, NodeId] :=
  (.required "ty" VarType.codec, .required "name" .string, .required "next" NodeId.codec, ())

def codec : Codec Declaration :=
  .record "struct VarDecl" fields (fun (type, name, next, _) => ⟨type, name, next⟩)
    fun d => (d.type, d.name, d.next, ())

end Declaration

namespace StatementKind

def assignFields : Fields [NodeId, NodeId] :=
  (.required "target" NodeId.codec, .required "value" NodeId.codec, ())

/-- The fields of a branch; a branch without alternative writes none as null. -/
def branchFields : Fields [NodeId, NodeId, Option NodeId] :=
  (.required "cond" NodeId.codec, .required "then_stat" NodeId.codec,
    .withDefault "else_stat" (.option NodeId.codec) none, ())

def whileFields : Fields [NodeId, NodeId] :=
  (.required "cond" NodeId.codec, .required "body" NodeId.codec, ())

def repeatFields : Fields [NodeId, NodeId] :=
  (.required "count" NodeId.codec, .required "body" NodeId.codec, ())

def compoundFields : Fields [NodeId, NodeId] :=
  (.required "locals" NodeId.codec, .required "body" NodeId.codec, ())

def returnFields : Fields [Option NodeId] :=
  (.withDefault "value" (.option NodeId.codec) none, ())

def callFields : Fields [NodeId] :=
  (.required "args" NodeId.codec, ())

def variants : List (Variant StatementKind) :=
  [.record "assign" "struct variant StatKind::Assign" assignFields
      fun (target, value, _) => assign target value,
    .record "add_assign" "struct variant StatKind::AddAssign" assignFields
      fun (target, value, _) => addAssign target value,
    .record "if" "struct variant StatKind::If" branchFields
      fun (condition, onTrue, onFalse, _) => branch condition onTrue onFalse,
    .record "while" "struct variant StatKind::While" whileFields
      fun (condition, body, _) => whileTrue condition body,
    .record "repeat" "struct variant StatKind::Repeat" repeatFields
      fun (count, body, _) => repeatTimes count body,
    .record "compound" "struct variant StatKind::Compound" compoundFields
      fun (locals, body, _) => compound locals body,
    .unit "break" breakLoop,
    .unit "continue" continueLoop,
    .record "return" "struct variant StatKind::Return" returnFields
      fun (value, _) => returnValue value,
    .single "pre_def_call" BuiltinCall.codec builtin,
    .record "func_call" "struct variant StatKind::FuncCall" callFields fun (args, _) => call args]

def encode : StatementKind → Value
  | assign target value => .tagged "assign" (.object (assignFields.write (target, value, ())))
  | addAssign target value =>
    .tagged "add_assign" (.object (assignFields.write (target, value, ())))
  | branch condition onTrue onFalse =>
    .tagged "if" (.object (branchFields.write (condition, onTrue, onFalse, ())))
  | whileTrue condition body =>
    .tagged "while" (.object (whileFields.write (condition, body, ())))
  | repeatTimes count body => .tagged "repeat" (.object (repeatFields.write (count, body, ())))
  | compound locals body => .tagged "compound" (.object (compoundFields.write (locals, body, ())))
  | breakLoop => .string "break"
  | continueLoop => .string "continue"
  | returnValue value => .tagged "return" (.object (returnFields.write (value, ())))
  | builtin c => .tagged "pre_def_call" (BuiltinCall.codec.encode c)
  | call args => .tagged "func_call" (.object (callFields.write (args, ())))

def codec : Codec StatementKind := .variants variants encode

end StatementKind

namespace Statement

def fields : Fields [StatementKind, NodeId] :=
  (.required "stat" StatementKind.codec, .required "next" NodeId.codec, ())

def codec : Codec Statement :=
  .record "struct Statement" fields (fun (kind, next, _) => ⟨kind, next⟩)
    fun s => (s.kind, s.next, ())

end Statement

namespace Expression

def binaryFields : Fields [BinaryOp, NodeId, NodeId] :=
  (.required "op" BinaryOp.codec, .required "left" NodeId.codec, .required "right" NodeId.codec, ())

def unaryFields : Fields [UnaryOp, NodeId] :=
  (.required "op" UnaryOp.codec, .required "operand" NodeId.codec, ())

def callFields : Fields [NodeId] :=
  (.required "args" NodeId.codec, ())

def variants : List (Variant Expression) :=
  [.record "binary" "struct variant Expression::Binary" binaryFields
      fun (op, left, right, _) => binary op left right,
    .record "unary" "struct variant Expression::Unary" unaryFields
      fun (op, operand, _) => unary op operand,
    .unit "var" read,
    .single "literal" Literal.codec literal,
    .single "pre_def_call" BuiltinCall.codec builtin,
    .record "func_call" "struct variant Expression::FuncCall" callFields
      fun (args, _) => call args]

def encode : Expression → Value
  | binary op left right =>
    .tagged "binary" (.object (binaryFields.write (op, left, right, ())))
  | unary op operand => .tagged "unary" (.object (unaryFields.write (op, operand, ())))
  | read => .string "var"
  | literal l => .tagged "literal" (Literal.codec.encode l)
  | builtin c => .tagged "pre_def_call" (BuiltinCall.codec.encode c)
  | call args => .tagged "func_call" (.object (callFields.write (args, ())))

def codec : Codec Expression := .variants variants encode

end Expression

namespace Argument

def fields : Fields [NodeId, NodeId] :=
  (.required "value" NodeId.codec, .required "next" NodeId.codec, ())

def codec : Codec Argument :=
  .record "struct Arg" fields (fun (value, next, _) => ⟨value, next⟩)
    fun a => (a.value, a.next, ())

end Argument

namespace Definition

def fields : Fields [String, NodeId, NodeId, Option VarType] :=
  (.required "name" .string, .required "params" NodeId.codec, .required "body" NodeId.codec,
    .optional "returns" VarType.codec, ())

def codec : Codec Definition :=
  .record "struct FuncDef" fields
    (fun (name, params, body, returns, _) => ⟨name, params, body, returns⟩)
    fun d => (d.name, d.params, d.body, d.returns, ())

end Definition

namespace Handler

def fields : Fields [Trigger, NodeId] :=
  (.required "trigger" Trigger.codec, .required "body" NodeId.codec, ())

def codec : Codec Handler :=
  .record "struct Event" fields (fun (trigger, body, _) => ⟨trigger, body⟩)
    fun h => (h.trigger, h.body, ())

end Handler

namespace NodeKind

def variants : List (Variant NodeKind) :=
  [.single "var_decl" Declaration.codec declaration, .unit "var_decl_void" declarationEnd,
    .single "statement" Statement.codec statement, .unit "void_stat" statementEnd,
    .single "expression" Expression.codec expression, .single "arg" Argument.codec argument,
    .unit "arg_void" argumentEnd, .single "func_def" Definition.codec definition,
    .single "event" Handler.codec handler]

def encode : NodeKind → Value
  | declaration d => .tagged "var_decl" (Declaration.codec.encode d)
  | declarationEnd => .string "var_decl_void"
  | statement s => .tagged "statement" (Statement.codec.encode s)
  | statementEnd => .string "void_stat"
  | expression e => .tagged "expression" (Expression.codec.encode e)
  | argument a => .tagged "arg" (Argument.codec.encode a)
  | argumentEnd => .string "arg_void"
  | definition d => .tagged "func_def" (Definition.codec.encode d)
  | handler h => .tagged "event" (Handler.codec.encode h)

def codec : Codec NodeKind := .variants variants encode

end NodeKind

namespace Node

def fields : Fields [NodeKind, NodeState, Option NodeId] :=
  (.required "kind" NodeKind.codec, .withDefault "state" NodeState.codec .child,
    .optional "original" NodeId.codec, ())

def codec : Codec Node :=
  .record "struct Node" fields (fun (kind, state, referent, _) => ⟨kind, state, referent⟩)
    fun n => (n.kind, n.state, n.referent, ())

end Node

namespace Graph

def fields : Fields [List Node] :=
  (.required "nodes" (.list Node.codec), ())

def codec : Codec Graph :=
  .record "struct Graph" fields (fun (nodes, _) => ⟨nodes.toArray⟩) fun g => (g.nodes.toList, ())

def toJson (g : Graph) : String :=
  String.ofList (codec.encode g).pretty

def ofJson (s : String) : Except Error Graph :=
  (codec.parse s).mapError fun f => .malformed (.document f)

end Graph

end BlockScript
