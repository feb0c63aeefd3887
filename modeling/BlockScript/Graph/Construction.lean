import BlockScript.Graph.Basic
/-!
# Building graphs

Operations that add nodes to a graph or link nodes of it. As long as ids last, adding appends: the
ids handed out are the positions in order, and the nodes before stay as they are. A statement or
declaration is added with an end of chain of its own; `chainStatements` and `chainDeclarations` link
several of them.
-/

namespace BlockScript

namespace Graph

def set (g : Graph) (id : NodeId) (n : Node) : Graph :=
  ⟨g.nodes.setIfInBounds id.index n⟩

@[simp] theorem size_set (g : Graph) (id : NodeId) (n : Node) : (g.set id n).size = g.size := by
  simp [set, size]

theorem node?_set_self {g : Graph} {id : NodeId} (h : id.index < g.size) (n : Node) :
    (g.set id n).node? id = some n := by
  have hi : id.index < g.nodes.size := h
  simp [set, node?, hi]

theorem node?_set_of_ne (g : Graph) {id other : NodeId} (h : id ≠ other) (n : Node) :
    (g.set id n).node? other = g.node? other := by
  have hi : id.index ≠ other.index := fun e => h (NodeId.index_injective e)
  simp [set, node?, hi]

def adjust (g : Graph) (id : NodeId) (change : Node → Node) : Graph :=
  ⟨g.nodes.modify id.index change⟩

@[simp] theorem size_adjust (g : Graph) (id : NodeId) (change : Node → Node) :
    (g.adjust id change).size = g.size := by
  simp [adjust, size]

theorem adjust_push {g : Graph} {id : NodeId} (h : id.index = g.size) (n : Node)
    (change : Node → Node) : (mk (g.nodes.push n)).adjust id change = ⟨g.nodes.push (change n)⟩ := by
  have hindex : id.index = g.nodes.size := h
  rw [adjust, hindex]
  congr 1
  refine Array.ext_getElem? fun i => ?_
  simp only [Array.getElem?_modify, Array.getElem?_push]
  by_cases hi : i = g.nodes.size
  · simp [hi]
  · simp [hi, Ne.symm hi]

def setState (g : Graph) (id : NodeId) (state : NodeState) : Except GraphFault Graph := do
  let n ← g.node id
  pure (g.set id { n with state := state })

end Graph

/-- An operation on a graph that adds to it. -/
abbrev Build := StateM Graph

namespace Build

def pushNode (n : Node) : Build NodeId := fun g =>
  (NodeId.ofNat g.size, ⟨g.nodes.push n⟩)

@[simp] theorem size_pushNode (n : Node) (g : Graph) : (pushNode n g).2.size = g.size + 1 := by
  simp [pushNode, Graph.size]

/-- The id handed out names the new node, as long as ids last. -/
theorem node?_pushNode {g : Graph} (h : g.size < UInt32.size) (n : Node) :
    (pushNode n g).2.node? (pushNode n g).1 = some n := by
  have hi : (NodeId.ofNat g.size).index = g.nodes.size := NodeId.index_ofNat h
  simp [pushNode, Graph.node?, hi]

def push (kind : NodeKind) : Build NodeId :=
  pushNode (.ofKind kind)

/-- Adds a node and then changes the node that the id handed out names.  That is the new one as long
as ids last. -/
def pushWith (kind : NodeKind) (change : Node → Node) : Build NodeId := do
  let id ← push kind
  modify fun g => g.adjust id change
  pure id

@[simp] theorem size_pushWith (kind : NodeKind) (change : Node → Node) (g : Graph) :
    (pushWith kind change g).2.size = g.size + 1 := by
  change ((push kind g).2.adjust (push kind g).1 change).size = g.size + 1
  rw [Graph.size_adjust, push, size_pushNode]

theorem pushWith_eq_pushNode {g : Graph} (h : g.size < UInt32.size) (kind : NodeKind)
    (change : Node → Node) : pushWith kind change g = pushNode (change (.ofKind kind)) g := by
  have hindex : (NodeId.ofNat g.size).index = g.size := NodeId.index_ofNat h
  exact congrArg _ (Graph.adjust_push hindex (.ofKind kind) change)

def pushReference (kind : NodeKind) (referent : NodeId) : Build NodeId :=
  pushWith kind fun n => { n with referent := some referent }

def pushRoot (kind : NodeKind) : Build NodeId :=
  pushWith kind fun n => { n with state := .onWorkspace }

def statementEnd : Build NodeId :=
  push .statementEnd

/-- Adds a statement that ends its chain. -/
def statement (kind : StatementKind) : Build NodeId := do
  let next ← statementEnd
  push (.statement ⟨kind, next⟩)

/-- Adds arguments before the one at `next`, from the last to the first. -/
def argumentsBefore (next : NodeId) : List NodeId → Build NodeId
  | [] => pure next
  | value :: r => do
    let rest ← argumentsBefore next r
    push (.argument ⟨value, rest⟩)

def arguments (values : List NodeId) : Build NodeId := do
  let last ← push .argumentEnd
  argumentsBefore last values

def callStatement (definition : NodeId) (args : List NodeId) : Build NodeId := do
  let args ← arguments args
  let next ← statementEnd
  pushReference (.statement ⟨.call args, next⟩) definition

def declaration (type : VarType) (name : String) : Build NodeId := do
  let next ← push .declarationEnd
  push (.declaration ⟨type, name, next⟩)

def expression (e : Expression) : Build NodeId :=
  push (.expression e)

def variableAt (declaration : NodeId) : Build NodeId :=
  pushReference (.expression .read) declaration

def number (text : String) : Build NodeId :=
  expression (.literal (.number text))

def text (text : String) : Build NodeId :=
  expression (.literal (.text text))

def bool (b : Bool) : Build NodeId :=
  expression (.literal (.bool (if b then "true" else "false")))

def binary (op : BinaryOp) (left right : NodeId) : Build NodeId :=
  expression (.binary op left right)

def unary (op : UnaryOp) (operand : NodeId) : Build NodeId :=
  expression (.unary op operand)

def builtin (func : Builtin) (choice : Option Choice) (args : List NodeId) : Build NodeId :=
  expression (.builtin ⟨func, choice, args⟩)

def builtinStatement (func : Builtin) (choice : Option Choice) (args : List NodeId) :
    Build NodeId :=
  statement (.builtin ⟨func, choice, args⟩)

def call (definition : NodeId) (args : List NodeId) : Build NodeId := do
  let args ← arguments args
  pushReference (.expression (.call args)) definition

def definition (name : String) (params body : NodeId) (returns : Option VarType) : Build NodeId :=
  pushRoot (.definition ⟨name, params, body, returns⟩)

def handler (trigger : Trigger) (body : NodeId) : Build NodeId :=
  pushRoot (.handler ⟨trigger, body⟩)

end Build

namespace Graph

/-- Makes each node of a list the predecessor of the one before it in the list, the first the
predecessor of `next`; gives the last. `link` sets the next node of a kind that can have one. The
links set before a failure stay set. -/
def linkBefore (link : NodeId → NodeKind → Option NodeKind) :
    List NodeId → NodeId → Graph → Except GraphFault NodeId × Graph
  | [], next, g => (.ok next, g)
  | id :: r, next, g =>
    match g.node? id with
    | none => (.error (.absent id), g)
    | some n =>
      match link next n.kind with
      | none => (.error (.notChainable id n.kind.sort), g)
      | some kind => linkBefore link r id (g.set id { n with kind := kind })

def linkStatement (next : NodeId) : NodeKind → Option NodeKind
  | .statement s => some (.statement { s with next := next })
  | _ => none

def linkDeclaration (next : NodeId) : NodeKind → Option NodeKind
  | .declaration d => some (.declaration { d with next := next })
  | _ => none

/-- Links statements in order and gives the first. The last keeps its next node and may be an end
of statements; an empty list gives a new one. -/
def chainStatements (g : Graph) (ids : List NodeId) : Except GraphFault NodeId × Graph :=
  match ids.reverse with
  | [] => let (id, g) := Build.push .statementEnd g; (.ok id, g)
  | last :: r =>
    match g.statement last with
    | .error e => (.error e, g)
    | .ok _ => linkBefore linkStatement r last g

def chainDeclarations (g : Graph) (ids : List NodeId) : Except GraphFault NodeId × Graph :=
  match ids.reverse with
  | [] => let (id, g) := Build.push .declarationEnd g; (.ok id, g)
  | last :: r =>
    match g.declaration last with
    | .error e => (.error e, g)
    | .ok _ => linkBefore linkDeclaration r last g

end Graph

end BlockScript
