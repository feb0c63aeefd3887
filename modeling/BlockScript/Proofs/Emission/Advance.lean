import BlockScript.Proofs.Emission.Regular
import BlockScript.Proofs.Graph.Entered
import BlockScript.Proofs.Numbering.Forward
/-!
# Generating code moves on

Wherever generating code comes in a program's trees, it goes on only to nodes with larger numbers,
so it never comes back: chains and nesting are no longer than the numbering (`advances_of_ordered`).
-/

namespace BlockScript.Emission.Context

open Script (Operand)
open BlockScript.Graph (IsTree)

variable {c : Context} {id : NodeId} {nodes below : List NodeId}

/-- At a node, generating code moves on to nodes with larger numbers only, and it needs no more
steps along a chain and no more levels of nesting than there are numbers. -/
structure Advances (c : Context) (id : NodeId) : Prop where
  enters : ∀ x, c.graph.Enters id x → c.numbering.Precedes id x
  statements : c.numbering.Ascending (c.graph.statements id)
  declarations : c.numbering.Ascending (c.graph.declarations id)
  arguments : c.numbering.Ascending (c.graph.arguments id)
  /-- The code of an expression depends only on the code of nodes with larger numbers. -/
  operand_congr : ∀ depth e (f k : NodeId → Emission Operand), c.graph.expression id = .ok e →
    (∀ x, c.numbering.Precedes id x → f x = k x) →
    c.expressionCode depth f id e = c.expressionCode depth k id e
  /-- The code of a statement depends only on the code of nodes with larger numbers. -/
  nested_congr : ∀ depth s (f k : Nat → NodeId → Emission Unit),
    c.graph.statement id = .ok (some s) →
    (∀ x, c.numbering.Precedes id x → ∀ depth, f depth x = k depth x) →
    c.statement f depth id s.kind = c.statement k depth id s.kind
  operand_levels : ∀ depth levels, c.numbering.size ≤ levels →
    c.expression depth levels id = c.operand depth id
  nested_levels : ∀ depth levels, c.numbering.size ≤ levels →
    c.statementsWithin levels depth id = c.statements depth id
  operand_ends : ∀ depth, (c.operand depth id).result ≠ .error .outOfSteps
  nested_ends : ∀ depth, (c.statements depth id).result ≠ .error .outOfSteps

/-- What follows for a node from the place of its tree in the numbering. -/
theorem advances_of_ordered (h : c.numbering.Ordered c.graph id below)
    (hcovers : c.numbering.Covers c.graph nodes) (hid : id ∈ nodes) : c.Advances id := by
  have hsize := h.length_le
  have hbudget := h.length_le_budget
  have henters : ∀ x, c.graph.Enters id x → c.numbering.Precedes id x := by
    intro x hx
    obtain ⟨n, hn, hmem⟩ := Graph.enters_iff.mp hx
    exact h.precedes (h.mem_of_child hn hmem)
  exact
    { enters := henters
      statements := h.ascending (Graph.followsSlots_statement _) (Graph.readsGrammar_statement _)
      declarations :=
        h.ascending (Graph.followsSlots_declaration _) (Graph.readsGrammar_declaration _)
      arguments := h.ascending (Graph.followsSlots_argument _) (Graph.readsGrammar_argument _)
      operand_congr := by
        intro depth e f k he hfk
        obtain ⟨hslots, hvalues⟩ := hcovers.operand_mem hid h.preOrder he
        refine expressionCode_congr (fun x hx => ?_) fun args hargs entry hentry => ?_
        · exact hfk x (h.precedes (hslots x hx).1)
        · exact hfk _ (h.precedes (hvalues args hargs entry hentry).1)
      nested_congr := by
        intro depth s f k hs hfk
        obtain ⟨hslots, _⟩ := hcovers.statement_mem hid h.preOrder hs
        exact statement_congr fun x hx => hfk x (h.precedes (hslots x hx).1)
      operand_levels := fun depth levels hlevels =>
        expression_eq_of_preOrder h.preOrder (by omega) hbudget
      nested_levels := fun depth levels hlevels =>
        statementsWithin_eq_of_preOrder h.preOrder (by omega) hbudget depth
      operand_ends := fun depth => (regular_operand hcovers hid depth).ne_outOfSteps
      nested_ends := fun depth => (regular_statements hcovers hid depth).ne_outOfSteps }

end BlockScript.Emission.Context
