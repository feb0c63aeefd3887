import BlockScript.Graph.Basic
/-!
# Numbering

The serial numbers that the names of a program are made of. The nodes under the node to run and
under each compiled root are numbered from one, each node before those in its slots. A node with a
referent shares the number of the last referent it leads to, so names depend only on the shape of
the graph.
-/

namespace BlockScript

/-- The numbers of a program's nodes. The two tables have an entry for each position of the
graph. -/
structure Numbering where
  /-- The numbered nodes; the first has the number one. -/
  sequence : Array NodeId
  serials : Array (Option Nat)
  /-- The last referents of the nodes that have one. -/
  referents : Array (Option NodeId)
deriving DecidableEq, Repr

namespace Graph

/-- Follows referents for a number of steps to a node without one; `start` is where the walk
began. -/
def lastReferentWithin (g : Graph) (start : NodeId) : Nat → NodeId → Except GraphFault NodeId
  | 0, _ => .error (.endlessReferent start)
  | fuel + 1, id =>
    match g.node? id with
    | none => .error (.absent id)
    | some n =>
      match n.referent with
      | none => .ok id
      | some next => g.lastReferentWithin start fuel next

/-- The node without referent that the referents from a node lead to. As many steps as there are
nodes, and one more, are enough. -/
def lastReferent (g : Graph) (id : NodeId) : Except GraphFault NodeId :=
  g.lastReferentWithin id g.budget id

end Graph

namespace Numbering

def empty (g : Graph) : Numbering :=
  ⟨#[], Array.replicate g.size none, Array.replicate g.size none⟩

/-- The number that a node has itself. -/
def own? (ns : Numbering) (id : NodeId) : Option Nat :=
  ns.serials[id.index]?.join

def referent? (ns : Numbering) (id : NodeId) : Option NodeId :=
  ns.referents[id.index]?.join

@[simp] theorem own?_empty (g : Graph) (id : NodeId) : (empty g).own? id = none := by
  simp only [own?, empty, Array.getElem?_replicate]
  split <;> rfl

@[simp] theorem referent?_empty (g : Graph) (id : NodeId) : (empty g).referent? id = none := by
  simp only [referent?, empty, Array.getElem?_replicate]
  split <;> rfl

/-- The node whose number a node uses. -/
def bearer (ns : Numbering) (id : NodeId) : NodeId :=
  (ns.referent? id).getD id

def serial (ns : Numbering) (id : NodeId) : Except GraphFault Nat :=
  match ns.own? (ns.bearer id) with
  | some n => .ok n
  | none => .error (.unnumbered id)

def size (ns : Numbering) : Nat := ns.sequence.size

def references (ns : Numbering) : Nat := ns.referents.countP Option.isSome

def push (ns : Numbering) (id : NodeId) : Numbering :=
  { ns with
    sequence := ns.sequence.push id
    serials := ns.serials.setIfInBounds id.index (some (ns.size + 1)) }

@[simp] theorem size_push (ns : Numbering) (id : NodeId) : (ns.push id).size = ns.size + 1 := by
  simp [push, size]

theorem own?_push_self {ns : Numbering} {id : NodeId} (h : id.index < ns.serials.size) :
    (ns.push id).own? id = some (ns.size + 1) := by
  simp [push, own?, h]

theorem own?_push_of_ne (ns : Numbering) {id other : NodeId} (h : id ≠ other) :
    (ns.push id).own? other = ns.own? other := by
  have hi : id.index ≠ other.index := fun e => h (NodeId.index_injective e)
  simp [push, own?, hi]

@[simp] theorem referent?_push (ns : Numbering) (id other : NodeId) :
    (ns.push id).referent? other = ns.referent? other := rfl

def noteReferent (ns : Numbering) (id referent : NodeId) : Numbering :=
  { ns with referents := ns.referents.setIfInBounds id.index (some referent) }

theorem referent?_noteReferent_self {ns : Numbering} {id : NodeId}
    (h : id.index < ns.referents.size) (referent : NodeId) :
    (ns.noteReferent id referent).referent? id = some referent := by
  simp [noteReferent, referent?, h]

theorem referent?_noteReferent_of_ne (ns : Numbering) {id other : NodeId} (h : id ≠ other)
    (referent : NodeId) : (ns.noteReferent id referent).referent? other = ns.referent? other := by
  have hi : id.index ≠ other.index := fun e => h (NodeId.index_injective e)
  simp [noteReferent, referent?, hi]

/-- Numbers the nodes of a stack and all below them, each before those in its slots. A node that
already has a number stands in two slots, or below itself. -/
def walk (g : Graph) : Nat → List NodeId → Numbering → Except GraphFault Numbering
  | _, [], ns => .ok ns
  | 0, _ :: _, _ => .error .outOfSteps
  | fuel + 1, id :: stack, ns =>
    if (ns.own? id).isSome then .error (.shared id)
    else
      match g.node? id with
      | none => .error (.absent id)
      | some n => walk g fuel (n.kind.children ++ stack) (ns.push id)

/-- Numbers the tree under a root, unless an earlier tree holds the root. -/
def addTree (g : Graph) (ns : Numbering) (root : NodeId) : Except GraphFault Numbering :=
  if (ns.own? root).isSome then .ok ns else walk g g.budget [root] ns

/-- Notes the last referent of a node that has a referent, and numbers it if nothing has. -/
def addReferent (g : Graph) (ns : Numbering) (id : NodeId) : Except GraphFault Numbering := do
  match (← g.node id).referent with
  | none => pure ns
  | some _ => do
    let referent ← g.lastReferent id
    let ns := if (ns.own? referent).isSome then ns else ns.push referent
    pure (ns.noteReferent id referent)

/-- Numbers the tree under the node to run, those under the compiled roots in order, and at last
the referents that stand in none of them. -/
def ofProgram (g : Graph) (run : NodeId) (roots : List NodeId) : Except GraphFault Numbering := do
  let ns ← (run :: roots).foldlM (addTree g) (empty g)
  ns.sequence.toList.foldlM (addReferent g) ns

end Numbering

end BlockScript
