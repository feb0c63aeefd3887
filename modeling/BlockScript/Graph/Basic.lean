import BlockScript.Error
/-!
# Program graphs

A graph holds its nodes in order; a node's id is its position. The typed accessors give the
contents of a node of the sort that a slot asks for, and chains give the nodes that follow each
other by their `next` slots.
-/

namespace BlockScript

/-- The nodes of a program, each at the position that its id names. -/
structure Graph where
  nodes : Array Node
deriving DecidableEq, Repr

namespace Graph

def empty : Graph := ⟨#[]⟩

def size (g : Graph) : Nat := g.nodes.size

def ids (g : Graph) : List NodeId :=
  (List.range g.size).map NodeId.ofNat

def node? (g : Graph) (id : NodeId) : Option Node :=
  g.nodes[id.index]?

def node (g : Graph) (id : NodeId) : Except GraphFault Node :=
  match g.node? id with
  | some n => .ok n
  | none => .error (.absent id)

theorem node_eq_ok_iff {g : Graph} {id : NodeId} {n : Node} :
    g.node id = .ok n ↔ g.node? id = some n := by
  rw [node]
  cases g.node? id <;> simp

theorem node_eq_error_iff {g : Graph} {id : NodeId} {e : GraphFault} :
    g.node id = .error e ↔ g.node? id = none ∧ e = .absent id := by
  rw [node]
  cases g.node? id <;> simp [eq_comm]

theorem node?_eq_none_iff {g : Graph} {id : NodeId} : g.node? id = none ↔ g.size ≤ id.index := by
  simp [node?, size]

theorem index_lt_size {g : Graph} {id : NodeId} {n : Node} (h : g.node? id = some n) :
    id.index < g.size := by
  by_cases hi : id.index < g.size
  · exact hi
  · rw [node?_eq_none_iff.2 (by omega)] at h
    cases h

theorem mem_ids {g : Graph} {id : NodeId} {n : Node} (h : g.node? id = some n) : id ∈ g.ids :=
  List.mem_map.mpr ⟨id.index, List.mem_range.mpr (index_lt_size h), NodeId.ofNat_index id⟩

/-- The contents of the node at an id, which has to be of the sort that a slot asks for: `ofKind`
gives the contents of the nodes that are. -/
def contents {α : Type} (g : Graph) (id : NodeId) (expected : NodeSort)
    (ofKind : NodeKind → Option α) : Except GraphFault α := do
  let n ← g.node id
  match ofKind n.kind with
  | some a => pure a
  | none => throw (.unexpected id expected n.kind.sort)

theorem contents_eq_ok_iff {α : Type} {g : Graph} {id : NodeId} {expected : NodeSort}
    {ofKind : NodeKind → Option α} {a : α} :
    g.contents id expected ofKind = .ok a ↔
      ∃ n, g.node? id = some n ∧ ofKind n.kind = some a := by
  unfold contents node
  cases hn : g.node? id with
  | none => simp [bind, Except.bind]
  | some n =>
      cases hk : ofKind n.kind <;>
        simp [hk, bind, Except.bind, pure, Except.pure, throw, throwThe, MonadExceptOf.throw]

/-- The statement at an id, or none at the end of a chain. -/
def statement (g : Graph) (id : NodeId) : Except GraphFault (Option Statement) :=
  g.contents id .statement fun
    | .statement s => some (some s)
    | .statementEnd => some none
    | _ => none

def expression (g : Graph) (id : NodeId) : Except GraphFault Expression :=
  g.contents id .expression fun
    | .expression e => some e
    | _ => none

def declaration (g : Graph) (id : NodeId) : Except GraphFault (Option Declaration) :=
  g.contents id .declaration fun
    | .declaration d => some (some d)
    | .declarationEnd => some none
    | _ => none

def argument (g : Graph) (id : NodeId) : Except GraphFault (Option Argument) :=
  g.contents id .argument fun
    | .argument a => some (some a)
    | .argumentEnd => some none
    | _ => none

def definition (g : Graph) (id : NodeId) : Except GraphFault Definition :=
  g.contents id .definition fun
    | .definition d => some d
    | _ => none

/-- The number of steps that any walk along distinct nodes stays below. -/
def budget (g : Graph) : Nat := g.size + 1

end Graph

/-- A chain as far as it can be followed: its entries in order, and whether it ends as it should. -/
structure Chain (α : Type) where
  entries : List (NodeId × α)
  ending : Except GraphFault Unit

namespace Chain

/-- Follows a chain from an id. `read` gives the entry at an id, or none at the end of the chain,
and `next` the id that an entry names. -/
def follow {α : Type} (read : NodeId → Except GraphFault (Option α)) (next : α → NodeId) :
    Nat → NodeId → Chain α
  | 0, _ => ⟨[], .error .outOfSteps⟩
  | fuel + 1, id =>
    match read id with
    | .error e => ⟨[], .error e⟩
    | .ok none => ⟨[], .ok ()⟩
    | .ok (some a) =>
      let rest := follow read next fuel (next a)
      ⟨(id, a) :: rest.entries, rest.ending⟩

end Chain

namespace Graph

def statements (g : Graph) (head : NodeId) : Chain Statement :=
  .follow g.statement Statement.next g.budget head

def declarations (g : Graph) (head : NodeId) : Chain Declaration :=
  .follow g.declaration Declaration.next g.budget head

def arguments (g : Graph) (head : NodeId) : Chain Argument :=
  .follow g.argument Argument.next g.budget head

end Graph

end BlockScript
