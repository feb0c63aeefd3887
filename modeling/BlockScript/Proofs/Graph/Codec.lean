import BlockScript.Graph.Codec
import BlockScript.Proofs.Block.Codec
/-!
# Graphs are read as they are written

The codecs of nodes and of what they hold read what they write, and what says the same, so a graph
is read from the text that was written for it (`ofJson_toJson`) and from any text of a document that
comes from it (`ofJson_of_varies`).
-/

namespace BlockScript

open Json

theorem NodeId.tolerates_codec : NodeId.codec.Tolerates .plain :=
  Codec.tolerates_word.imap fun _ => rfl

theorem NodeId.tolerates_option : NodeId.codec.option.Tolerates (.option .plain) :=
  NodeId.tolerates_codec.option fun _ h => nomatch h

/-- Many records hold two nodes under different names. -/
theorem NodeId.tolerates_two {first second : String} (h : first ≠ second) :
    @Fields.Tolerates [NodeId, NodeId] (.required first codec, .required second codec, ())
      ([first, second].map (.required · .plain)) :=
  ⟨.required first tolerates_codec, by simpa [Fields.names, Field.required] using h,
    .required second tolerates_codec, List.not_mem_nil, trivial⟩

theorem NodeState.tolerates_codec : NodeState.codec.Tolerates .enumeration :=
  Codec.tolerates_enumeration fun a => by cases a <;> rfl

namespace Literal

def shape : Shape :=
  .variants [("num", .plain), ("str", .plain), ("bool", .plain), ("empty_list", .enumeration),
    ("freq_sound", .plainRecord ["frequency", "duration"])]

theorem tolerates_codec : codec.Tolerates shape := by
  refine Codec.tolerates_variants fun l => ?_
  cases l with
  | number text | text text | bool text => exact .single rfl rfl Codec.tolerates_string text rfl
  | emptyList elem => exact .single rfl rfl ElemType.tolerates_codec elem rfl
  | tone frequency duration =>
      exact .record rfl rfl (NodeId.tolerates_two (by decide)) (frequency, duration, ()) rfl
  | lineFeed | silence => exact .unit rfl

end Literal

namespace BuiltinCall

def shapes : List (FieldShape Shape) :=
  [.required "func" Builtin.shape, .withDefault "option" (.option .enumeration) .null,
    .withDefault "args" (.list .plain) (.array [])]

theorem tolerates_codec : codec.Tolerates (.record shapes) := by
  have hchoice : Choice.codec.option.Tolerates (.option .enumeration) :=
    Choice.tolerates_codec.option fun _ h => nomatch h
  have hfields : fields.Tolerates shapes :=
    ⟨.required _ Builtin.tolerates_codec, by decide, .optional _ hchoice, by decide,
      .withDefault _ NodeId.tolerates_codec.list [], by decide, trivial⟩
  exact Codec.tolerates_record _ hfields fun _ => rfl

end BuiltinCall

namespace Declaration

def shapes : List (FieldShape Shape) :=
  [.required "ty" VarType.shape, .required "name" .plain, .required "next" .plain]

theorem tolerates_codec : codec.Tolerates (.record shapes) := by
  have hfields : fields.Tolerates shapes :=
    ⟨.required _ VarType.tolerates_codec, by decide, .required _ Codec.tolerates_string, by decide,
      .required _ NodeId.tolerates_codec, by decide, trivial⟩
  exact Codec.tolerates_record _ hfields fun _ => rfl

end Declaration

namespace StatementKind

def branchShapes : List (FieldShape Shape) :=
  [.required "cond" .plain, .required "then_stat" .plain,
    .withDefault "else_stat" (.option .plain) .null]

def returnShapes : List (FieldShape Shape) :=
  [.withDefault "value" (.option .plain) .null]

def shape : Shape :=
  .variants [("assign", .plainRecord ["target", "value"]),
    ("add_assign", .plainRecord ["target", "value"]), ("if", .record branchShapes),
    ("while", .plainRecord ["cond", "body"]), ("repeat", .plainRecord ["count", "body"]),
    ("compound", .plainRecord ["locals", "body"]), ("return", .record returnShapes),
    ("pre_def_call", .record BuiltinCall.shapes), ("func_call", .plainRecord ["args"])]

theorem tolerates_codec : codec.Tolerates shape := by
  have hid := NodeId.tolerates_codec
  have hbranch : branchFields.Tolerates branchShapes :=
    ⟨.required _ hid, by decide, .required _ hid, by decide,
      .withDefault _ NodeId.tolerates_option none, by decide, trivial⟩
  have hreturn : returnFields.Tolerates returnShapes :=
    ⟨.withDefault _ NodeId.tolerates_option none, by decide, trivial⟩
  have hcall : callFields.Tolerates (["args"].map (.required · .plain)) :=
    ⟨.required _ hid, by decide, trivial⟩
  refine Codec.tolerates_variants fun kind => ?_
  cases kind with
  | assign target value | addAssign target value =>
      exact .record rfl rfl (NodeId.tolerates_two (by decide)) (target, value, ()) rfl
  | branch condition onTrue onFalse =>
      exact .record rfl rfl hbranch (condition, onTrue, onFalse, ()) rfl
  | whileTrue condition body =>
      exact .record rfl rfl (NodeId.tolerates_two (by decide)) (condition, body, ()) rfl
  | repeatTimes count body =>
      exact .record rfl rfl (NodeId.tolerates_two (by decide)) (count, body, ()) rfl
  | compound locals body =>
      exact .record rfl rfl (NodeId.tolerates_two (by decide)) (locals, body, ()) rfl
  | returnValue value => exact .record rfl rfl hreturn (value, ()) rfl
  | builtin call => exact .single rfl rfl BuiltinCall.tolerates_codec call rfl
  | call args => exact .record rfl rfl hcall (args, ()) rfl
  | breakLoop | continueLoop => exact .unit rfl

end StatementKind

namespace Statement

def shapes : List (FieldShape Shape) :=
  [.required "stat" StatementKind.shape, .required "next" .plain]

theorem tolerates_codec : codec.Tolerates (.record shapes) := by
  have hfields : fields.Tolerates shapes :=
    ⟨.required _ StatementKind.tolerates_codec, by decide, .required _ NodeId.tolerates_codec,
      by decide, trivial⟩
  exact Codec.tolerates_record _ hfields fun _ => rfl

end Statement

namespace Expression

def binaryShapes : List (FieldShape Shape) :=
  [.required "op" BinaryOp.shape, .required "left" .plain, .required "right" .plain]

def unaryShapes : List (FieldShape Shape) :=
  [.required "op" .enumeration, .required "operand" .plain]

def shape : Shape :=
  .variants [("binary", .record binaryShapes), ("unary", .record unaryShapes),
    ("literal", Literal.shape), ("pre_def_call", .record BuiltinCall.shapes),
    ("func_call", .plainRecord ["args"])]

theorem tolerates_codec : codec.Tolerates shape := by
  have hid := NodeId.tolerates_codec
  have hbinary : binaryFields.Tolerates binaryShapes :=
    ⟨.required _ BinaryOp.tolerates_codec, by decide, .required _ hid, by decide, .required _ hid,
      by decide, trivial⟩
  have hunary : unaryFields.Tolerates unaryShapes :=
    ⟨.required _ UnaryOp.tolerates_codec, by decide, .required _ hid, by decide, trivial⟩
  have hcall : callFields.Tolerates (["args"].map (.required · .plain)) :=
    ⟨.required _ hid, by decide, trivial⟩
  refine Codec.tolerates_variants fun e => ?_
  cases e with
  | binary op left right => exact .record rfl rfl hbinary (op, left, right, ()) rfl
  | unary op operand => exact .record rfl rfl hunary (op, operand, ()) rfl
  | read => exact .unit rfl
  | literal l => exact .single rfl rfl Literal.tolerates_codec l rfl
  | builtin call => exact .single rfl rfl BuiltinCall.tolerates_codec call rfl
  | call args => exact .record rfl rfl hcall (args, ()) rfl

end Expression

theorem Argument.tolerates_codec : Argument.codec.Tolerates (.plainRecord ["value", "next"]) := by
  have hfields : fields.Tolerates (["value", "next"].map (.required · .plain)) :=
    NodeId.tolerates_two (by decide)
  exact Codec.tolerates_record _ hfields fun _ => rfl

namespace Definition

def shapes : List (FieldShape Shape) :=
  [.required "name" .plain, .required "params" .plain, .required "body" .plain,
    .withDefault "returns" (.option VarType.shape) .null]

theorem tolerates_codec : codec.Tolerates (.record shapes) := by
  have htype : VarType.codec.option.Tolerates (.option VarType.shape) :=
    VarType.tolerates_codec.option fun type h => by cases type <;> nomatch h
  have hfields : fields.Tolerates shapes :=
    ⟨.required _ Codec.tolerates_string, by decide, .required _ NodeId.tolerates_codec, by decide,
      .required _ NodeId.tolerates_codec, by decide, .optional _ htype, by decide, trivial⟩
  exact Codec.tolerates_record _ hfields fun _ => rfl

end Definition

namespace Handler

def shapes : List (FieldShape Shape) :=
  [.required "trigger" Trigger.shape, .required "body" .plain]

theorem tolerates_codec : codec.Tolerates (.record shapes) := by
  have hfields : fields.Tolerates shapes :=
    ⟨.required _ Trigger.tolerates_codec, by decide, .required _ NodeId.tolerates_codec, by decide,
      trivial⟩
  exact Codec.tolerates_record _ hfields fun _ => rfl

end Handler

namespace NodeKind

def shape : Shape :=
  .variants [("var_decl", .record Declaration.shapes), ("statement", .record Statement.shapes),
    ("expression", Expression.shape), ("arg", .plainRecord ["value", "next"]),
    ("func_def", .record Definition.shapes), ("event", .record Handler.shapes)]

theorem tolerates_codec : codec.Tolerates shape := by
  refine Codec.tolerates_variants fun kind => ?_
  cases kind with
  | declaration d => exact .single rfl rfl Declaration.tolerates_codec d rfl
  | statement s => exact .single rfl rfl Statement.tolerates_codec s rfl
  | expression e => exact .single rfl rfl Expression.tolerates_codec e rfl
  | argument a => exact .single rfl rfl Argument.tolerates_codec a rfl
  | definition d => exact .single rfl rfl Definition.tolerates_codec d rfl
  | handler h => exact .single rfl rfl Handler.tolerates_codec h rfl
  | declarationEnd | statementEnd | argumentEnd => exact .unit rfl

end NodeKind

namespace Node

def shapes : List (FieldShape Shape) :=
  [.required "kind" NodeKind.shape, .withDefault "state" .enumeration (.string "child"),
    .withDefault "original" (.option .plain) .null]

theorem tolerates_codec : codec.Tolerates (.record shapes) := by
  have hfields : fields.Tolerates shapes :=
    ⟨.required _ NodeKind.tolerates_codec, by decide,
      .withDefault _ NodeState.tolerates_codec .child, by decide,
      .optional _ NodeId.tolerates_option, by decide, trivial⟩
  exact Codec.tolerates_record _ hfields fun _ => rfl

end Node

namespace Graph

def shape : Shape :=
  .record [.required "nodes" (.list (.record Node.shapes))]

theorem tolerates_codec : codec.Tolerates shape := by
  have hfields : fields.Tolerates [.required "nodes" (.list (.record Node.shapes))] :=
    ⟨.required _ Node.tolerates_codec.list, by decide, trivial⟩
  exact Codec.tolerates_record _ hfields fun _ => rfl

theorem faithful_codec : codec.Faithful :=
  tolerates_codec.faithful

/-- The text of a graph is a JSON document, and the graph is read from it. -/
theorem ofJson_toJson (g : Graph) :
    Spells g.toJson.toList (codec.encode g).draft ∧ ofJson g.toJson = .ok g := by
  constructor
  · rw [toJson, String.toList_ofList]
    exact (codec.encode g).spells_prettyAt 0
  · rw [ofJson, toJson, Codec.parse_pretty faithful_codec]
    rfl

/-- What is written for a graph is a text of a document that comes from the value of the graph, and
the graph is read from every text of every such document. -/
theorem ofJson_of_varies (g : Graph) :
    (∃ d, Varies shape (codec.encode g) d ∧ IsText g.toJson.toList d) ∧
      ∀ {d : Document} {t w w' : List Char}, Varies shape (codec.encode g) d → IsText t d →
        Spaces w → Spaces w' → ofJson (String.ofList (w ++ (t ++ w'))) = .ok g := by
  constructor
  · refine ⟨_, tolerates_codec.written g, ?_⟩
    rw [toJson, String.toList_ofList]
    exact Value.isText_prettyAt 0 (codec.encode g)
  · intro d t w w' hd ht hw hw'
    rw [ofJson, Codec.parse_of_varies tolerates_codec hd ht hw hw']
    rfl

/-- The end of a chain as an array of its first field, which is the key of a null, and one with its
fields exchanged, behind a number that is too large but is not read. -/
theorem ofJson_of_varies_reshaped :
    ∃ t, String.ofList t = "\x7b\"later\":1e99999, \"nodes\":[[\x7b\"void_stat\":null\x7d]," ++
        "\x7b\"state\":\"deleted\",\"kind\":\"void_stat\"\x7d]\x7d" ∧
      ofJson (String.ofList ([] ++ (t ++ ['\n']))) =
        .ok ⟨#[.ofKind .statementEnd, ⟨.statementEnd, .deleted, none⟩]⟩ := by
  let word (name : String) := StringToken.ofString name
  let first : Document := .array [.object [(word "void_stat", .null)]]
  let second : Document :=
    .object [(word "state", .string (word "deleted")), (word "kind", .string (word "void_stat"))]
  let large : Numeral := ⟨false, ['1'], .digits (by decide) (List.all_eq_true.mp rfl), none,
    some ⟨false, none, ⟨['9', '9', '9', '9', '9'], List.cons_ne_nil _ _, List.all_eq_true.mp rfl⟩⟩⟩
  have hword (name : String) : (word name).text = .ok name := StringToken.text_ofString name
  have hfirst : Varies (.record Node.shapes) (Node.codec.encode (.ofKind .statementEnd)) first :=
    .array (.given rfl (.unitObject (hword _)) (.ended (List.forall_mem_cons.mpr
      ⟨⟨_, rfl, rfl⟩, List.forall_mem_singleton.mpr ⟨_, rfl, rfl⟩⟩)))
  have hsecond : Varies (.record Node.shapes)
      (Node.codec.encode ⟨.statementEnd, .deleted, none⟩) second :=
    .object (.given rfl (hword _) (.unit (hword _)) (.given rfl (hword _) (.unit (hword _))
      (.left rfl rfl .nil))) (List.forall_mem_nil _) (.swap _ _ _)
  have hvaries : Varies shape
      (codec.encode ⟨#[.ofKind .statementEnd, ⟨.statementEnd, .deleted, none⟩]⟩)
      (.object [(word "later", .number large), (word "nodes", .array [first, second])]) :=
    .object (.given rfl (hword _) (.list (.cons hfirst (.cons hsecond .nil))) .nil)
      (List.forall_mem_singleton.mpr ⟨"later", hword _, by simp [FieldShape.required]⟩)
      (.swap _ _ _)
  have hno := spaces_nil
  have hspace : Spaces [' '] := List.forall_mem_singleton.mpr rfl
  have hbehind : Spaces ['\n'] := List.forall_mem_singleton.mpr rfl
  have htextFirst := IsText.array hno
    (.last (.object hno (.last (word "void_stat") hno hno .null hno)) hno)
  have htextSecond := IsText.object hno
    (.more (word "state") hno hno (.string (word "deleted")) hno hno
      (.last (word "kind") hno hno (.string (word "void_stat")) hno))
  have htext := IsText.object hno (.more (word "later") hno hno (.number large) hno hspace
    (.last (word "nodes") hno hno
      (.array hno (.more htextFirst hno hno (.last htextSecond hno))) hno))
  exact ⟨_, rfl, (ofJson_of_varies _).2 hvaries htext hno hbehind⟩

end Graph

end BlockScript
