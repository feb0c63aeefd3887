import BlockScript.Numbering
/-!
# Graphs without the user's texts

`clearTexts` empties the texts of all text literals of a graph and leaves everything else.  No
accessor but that of expressions sees a difference, and the numbering of a program is the same
(`ofProgram_clearTexts`).
-/

namespace BlockScript

def Literal.clearTexts : Literal → Literal
  | text _ => text ""
  | l => l

def Expression.clearTexts : Expression → Expression
  | literal l => literal l.clearTexts
  | e => e

def NodeKind.clearTexts : NodeKind → NodeKind
  | expression e => expression e.clearTexts
  | kind => kind

def Node.clearTexts (n : Node) : Node :=
  { n with kind := n.kind.clearTexts }

/-- The graph with the empty text in the place of the text of each text literal. -/
def Graph.clearTexts (g : Graph) : Graph :=
  ⟨g.nodes.map Node.clearTexts⟩

theorem Expression.children_clearTexts (e : Expression) : e.clearTexts.children = e.children := by
  cases e with
  | literal l => cases l <;> rfl
  | binary _ _ _ | unary _ _ | read | builtin _ | call _ => rfl

theorem NodeKind.children_clearTexts (kind : NodeKind) :
    kind.clearTexts.children = kind.children := by
  cases kind with
  | expression e => exact e.children_clearTexts
  | declaration _ | declarationEnd | statement _ | statementEnd | argument _ | argumentEnd
    | definition _ | handler _ => rfl

theorem Node.kind_clearTexts (n : Node) : n.clearTexts.kind = n.kind.clearTexts := rfl

theorem Node.referent_clearTexts (n : Node) : n.clearTexts.referent = n.referent := rfl

theorem NodeKind.sort_clearTexts (kind : NodeKind) : kind.clearTexts.sort = kind.sort := by
  cases kind <;> rfl

namespace Graph

variable (g : Graph) (id : NodeId)

@[simp] theorem size_clearTexts : g.clearTexts.size = g.size := by
  simp [size, clearTexts]

@[simp] theorem budget_clearTexts : g.clearTexts.budget = g.budget := by
  simp [budget]

theorem node?_clearTexts : g.clearTexts.node? id = (g.node? id).map Node.clearTexts := by
  simp [node?, clearTexts]

theorem node_clearTexts : g.clearTexts.node id = (g.node id).map Node.clearTexts := by
  unfold node
  rw [node?_clearTexts]
  cases g.node? id <;> rfl

/-! ## The accessors -/

theorem contents_clearTexts {α β : Type} {expected : NodeSort} {ofKind : NodeKind → Option α}
    {ofKind' : NodeKind → Option β} {F : α → β}
    (h : ∀ kind : NodeKind, ofKind' kind.clearTexts = (ofKind kind).map F) :
    g.clearTexts.contents id expected ofKind' = (g.contents id expected ofKind).map F := by
  unfold contents
  rw [node_clearTexts]
  cases g.node id with
  | error e => rfl
  | ok n =>
      simp only [Except.map, bind, Except.bind, Node.kind_clearTexts, h, NodeKind.sort_clearTexts]
      cases ofKind n.kind <;> rfl

theorem contents_clearTexts_of_eq {α : Type} {expected : NodeSort} {ofKind : NodeKind → Option α}
    (h : ∀ kind : NodeKind, ofKind kind.clearTexts = ofKind kind) :
    g.clearTexts.contents id expected ofKind = g.contents id expected ofKind := by
  have hmap : g.clearTexts.contents id expected ofKind =
      (g.contents id expected ofKind).map fun a => a :=
    g.contents_clearTexts id fun kind => by rw [h, Option.map_id']
  rw [hmap]
  cases g.contents id expected ofKind <;> rfl

theorem expression_clearTexts :
    g.clearTexts.expression id = (g.expression id).map Expression.clearTexts :=
  g.contents_clearTexts id fun kind => by cases kind <;> rfl

@[simp] theorem statement_clearTexts : g.clearTexts.statement id = g.statement id :=
  g.contents_clearTexts_of_eq id fun kind => by cases kind <;> rfl

@[simp] theorem declaration_clearTexts : g.clearTexts.declaration id = g.declaration id :=
  g.contents_clearTexts_of_eq id fun kind => by cases kind <;> rfl

@[simp] theorem argument_clearTexts : g.clearTexts.argument id = g.argument id :=
  g.contents_clearTexts_of_eq id fun kind => by cases kind <;> rfl

@[simp] theorem definition_clearTexts : g.clearTexts.definition id = g.definition id :=
  g.contents_clearTexts_of_eq id fun kind => by cases kind <;> rfl

@[simp] theorem statements_clearTexts : g.clearTexts.statements id = g.statements id := by
  have hread : g.clearTexts.statement = g.statement := funext g.statement_clearTexts
  rw [statements, statements, hread, budget_clearTexts]

@[simp] theorem declarations_clearTexts : g.clearTexts.declarations id = g.declarations id := by
  have hread : g.clearTexts.declaration = g.declaration := funext g.declaration_clearTexts
  rw [declarations, declarations, hread, budget_clearTexts]

@[simp] theorem arguments_clearTexts : g.clearTexts.arguments id = g.arguments id := by
  have hread : g.clearTexts.argument = g.argument := funext g.argument_clearTexts
  rw [arguments, arguments, hread, budget_clearTexts]

theorem lastReferentWithin_clearTexts (start : NodeId) (fuel : Nat) :
    g.clearTexts.lastReferentWithin start fuel id = g.lastReferentWithin start fuel id := by
  induction fuel generalizing id with
  | zero => rfl
  | succ fuel ih =>
      unfold lastReferentWithin
      rw [node?_clearTexts]
      cases g.node? id with
      | none => rfl
      | some n =>
          simp only [Option.map_some, Node.referent_clearTexts]
          cases n.referent with
          | none => rfl
          | some next => exact ih next

theorem lastReferent_clearTexts : g.clearTexts.lastReferent id = g.lastReferent id := by
  rw [lastReferent, lastReferent, lastReferentWithin_clearTexts, budget_clearTexts]

end Graph

/-! ## The numbering -/

namespace Numbering

variable (g : Graph) (ns : Numbering)

theorem empty_clearTexts : empty g.clearTexts = empty g := by
  simp [empty]

theorem walk_clearTexts (fuel : Nat) (stack : List NodeId) :
    walk g.clearTexts fuel stack ns = walk g fuel stack ns := by
  induction fuel generalizing stack ns with
  | zero => cases stack <;> rfl
  | succ fuel ih =>
      cases stack with
      | nil => rfl
      | cons id stack =>
          unfold walk
          rw [Graph.node?_clearTexts]
          cases g.node? id with
          | none => rfl
          | some n =>
              have hchildren : n.clearTexts.kind.children = n.kind.children :=
                n.kind.children_clearTexts
              simp only [Option.map_some, hchildren, ih]

theorem addTree_clearTexts : addTree g.clearTexts = addTree g := by
  funext ns root
  rw [addTree, addTree, walk_clearTexts, Graph.budget_clearTexts]

theorem addReferent_clearTexts : addReferent g.clearTexts = addReferent g := by
  funext ns id
  unfold addReferent
  rw [Graph.node_clearTexts, Graph.lastReferent_clearTexts]
  cases g.node id <;> rfl

theorem ofProgram_clearTexts (run : NodeId) (roots : List NodeId) :
    ofProgram g.clearTexts run roots = ofProgram g run roots := by
  unfold ofProgram
  rw [empty_clearTexts, addTree_clearTexts, addReferent_clearTexts]

end Numbering

end BlockScript
