import BlockScript.Block.Builtin
import BlockScript.Block.Operator
import BlockScript.Block.Trigger
/-!
# Nodes of a program graph

A program made of blocks is a graph of nodes. Every slot of a block is a typed field that names
another node. Statements, declarations and arguments form chains: each names the next one, and a
node without content ends the chain.
-/

namespace BlockScript

/-- The position of a node in its graph, a number of 32 bits. -/
structure NodeId where
  number : UInt32
deriving DecidableEq, Repr, Hashable

namespace NodeId

def index (id : NodeId) : Nat :=
  id.number.toNat

/-- The id of a position, modulo `2 ^ 32`. -/
def ofNat (n : Nat) : NodeId :=
  ⟨UInt32.ofNat n⟩

def label (id : NodeId) : String :=
  "#" ++ toString id.index

@[simp] theorem index_ofNat {n : Nat} (h : n < UInt32.size) : (ofNat n).index = n := by
  simp [index, ofNat, UInt32.toNat_ofNat_of_lt' h]

@[simp] theorem ofNat_index (id : NodeId) : ofNat id.index = id := by
  simp [index, ofNat]

theorem index_injective {a b : NodeId} (h : a.index = b.index) : a = b := by
  rw [← ofNat_index a, ← ofNat_index b, h]

end NodeId

/-- Where a node is kept in the editor. A program starts only at a root on a workspace. -/
inductive NodeState where
  | onWorkspace
  | dangling
  | child
  | deleted
deriving DecidableEq, Repr

def NodeState.describe : NodeState → String
  | onWorkspace => "root directly under workspace"
  | dangling => "dangling root"
  | child => "child"
  | deleted => "deleted"

/-- The constants. Numbers and truth values hold the text shown on their block. -/
inductive Literal where
  | number (text : String)
  | text (text : String)
  | bool (text : String)
  | lineFeed
  | emptyList (elem : ElemType)
  /-- A sound of a frequency in hertz and a duration in seconds. -/
  | tone (frequency duration : NodeId)
  | silence
deriving DecidableEq, Repr

def boolOfText? (s : String) : Option Bool :=
  if s = "true" ∨ s = "真" then some true
  else if s = "false" ∨ s = "偽" then some false
  else none

structure BuiltinCall where
  func : Builtin
  choice : Option Choice
  args : List NodeId
deriving DecidableEq, Repr

structure Declaration where
  type : VarType
  name : String
  next : NodeId
deriving DecidableEq, Repr

/-- What a statement does. The callee of a user's function is the node's referent. -/
inductive StatementKind where
  | assign (target value : NodeId)
  | addAssign (target value : NodeId)
  | branch (condition onTrue : NodeId) (onFalse : Option NodeId)
  | whileTrue (condition body : NodeId)
  | repeatTimes (count body : NodeId)
  | compound (locals body : NodeId)
  | breakLoop
  | continueLoop
  | returnValue (value : Option NodeId)
  | builtin (call : BuiltinCall)
  | call (args : NodeId)
deriving DecidableEq, Repr

structure Statement where
  kind : StatementKind
  next : NodeId
deriving DecidableEq, Repr

/-- An expression. The variable that is read and the function that is called are the node's
referent. -/
inductive Expression where
  | binary (op : BinaryOp) (left right : NodeId)
  | unary (op : UnaryOp) (operand : NodeId)
  | read
  | literal (l : Literal)
  | builtin (call : BuiltinCall)
  | call (args : NodeId)
deriving DecidableEq, Repr

structure Argument where
  value : NodeId
  next : NodeId
deriving DecidableEq, Repr

/-- A function of the user: its name, the heads of the chains of its parameters and of its body,
and the type of its value if it returns one. -/
structure Definition where
  name : String
  params : NodeId
  body : NodeId
  returns : Option VarType
deriving DecidableEq, Repr

structure Handler where
  trigger : Trigger
  body : NodeId
deriving DecidableEq, Repr

inductive NodeKind where
  | declaration (d : Declaration)
  | declarationEnd
  | statement (s : Statement)
  | statementEnd
  | expression (e : Expression)
  | argument (a : Argument)
  | argumentEnd
  | definition (d : Definition)
  | handler (h : Handler)
deriving DecidableEq, Repr

inductive NodeSort where
  | declaration
  | declarationEnd
  | statement
  | statementEnd
  | expression
  | argument
  | argumentEnd
  | definition
  | handler
deriving DecidableEq, Repr

def NodeSort.label : NodeSort → String
  | declaration => "variable declaration"
  | declarationEnd => "end of declarations"
  | statement => "statement"
  | statementEnd => "end of statements"
  | expression => "expression"
  | argument => "argument"
  | argumentEnd => "end of arguments"
  | definition => "function definition"
  | handler => "event handler"

def NodeKind.sort : NodeKind → NodeSort
  | declaration _ => .declaration
  | declarationEnd => .declarationEnd
  | statement _ => .statement
  | statementEnd => .statementEnd
  | expression _ => .expression
  | argument _ => .argument
  | argumentEnd => .argumentEnd
  | definition _ => .definition
  | handler _ => .handler

/-- A node. A variable's use and a function's call refer to another node, their referent. -/
structure Node where
  kind : NodeKind
  state : NodeState
  referent : Option NodeId
deriving DecidableEq, Repr

namespace Node

/-- A node without referent that is no root. -/
def ofKind (kind : NodeKind) : Node :=
  ⟨kind, .child, none⟩

end Node

/-- The nodes in a statement's slots, in the order in which code is generated for them. -/
def StatementKind.children : StatementKind → List NodeId
  | assign target value => [target, value]
  | addAssign target value => [target, value]
  | branch condition onTrue onFalse => condition :: onTrue :: onFalse.toList
  | whileTrue condition body => [condition, body]
  | repeatTimes count body => [count, body]
  | compound locals body => [locals, body]
  | breakLoop => []
  | continueLoop => []
  | returnValue value => value.toList
  | builtin c => c.args
  | call args => [args]

def Expression.children : Expression → List NodeId
  | binary _ left right => [left, right]
  | unary _ operand => [operand]
  | read => []
  | literal (.tone frequency duration) => [frequency, duration]
  | literal _ => []
  | builtin c => c.args
  | call args => [args]

def NodeKind.children : NodeKind → List NodeId
  | declaration d => [d.next]
  | statement s => s.kind.children ++ [s.next]
  | expression e => e.children
  | argument a => [a.value, a.next]
  | definition d => [d.params, d.body]
  | handler h => [h.body]
  | declarationEnd => []
  | statementEnd => []
  | argumentEnd => []

end BlockScript
