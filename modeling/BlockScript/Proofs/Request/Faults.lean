import BlockScript.Proofs.Emission.Regular
import BlockScript.Proofs.Graph.Entered
import BlockScript.Proofs.Numbering.Turns
import BlockScript.Proofs.Request.Answer
/-!
# Why a request fails

A request fails because its program cannot start, because its nodes cannot be numbered or because
its blocks break the grammar (`refuses_of_generate`).  In particular, once the nodes have numbers no
generator asks for the number of a node that has none (`lookups_succeed`).
-/

namespace BlockScript.Request

open BlockScript.Graph (Traversal)
open Emission (Regular)

variable {r : Request} {library : Library} {ns : Numbering} {nodes : List NodeId}

/-- What makes a request fail: the state of the node to run, or a fault of shape or grammar. -/
inductive Refuses : Error → Prop where
  | state {id : NodeId} {state : NodeState} : Refuses (.notExecutable id state)
  | shape {e : GraphFault} (h : e.OfShape) : Refuses (.malformed e)
  | grammar {e : GraphFault} (h : e.OfGrammar) : Refuses (.malformed e)

theorem regular_code (h : ns.Covers r.graph nodes) (hnodes : ∀ x ∈ r.run :: r.roots, x ∈ nodes) :
    Regular (r.code ns) := by
  have hcovers : (r.context ns).numbering.Covers (r.context ns).graph nodes := h
  have hroots : ∀ root ∈ r.roots, root ∈ nodes := fun root hroot =>
    hnodes root (List.mem_cons_of_mem _ hroot)
  have hglobals : Regular ((r.context ns).globalDeclarations bodyDepth r.roots) :=
    (Emission.Context.regular_globals hcovers hroots []).bind fun _ _ => .pure ()
  refine hglobals.bind fun _ _ => ?_
  refine (Emission.Context.regular_definitions hcovers hroots).bind fun _ _ => ?_
  refine (Emission.Context.regular_handlers hcovers hroots).bind fun _ _ => ?_
  exact Emission.Context.regular_statements hcovers (hnodes r.run List.mem_cons_self) bodyDepth

theorem exists_covers (h : Numbering.ofProgram r.graph r.run r.roots = .ok ns) :
    ∃ nodes, ns.Covers r.graph nodes ∧ ∀ x ∈ r.run :: r.roots, x ∈ nodes := by
  obtain ⟨nodes, htraversal, _, hnoted⟩ := Numbering.exists_noted h
  exact ⟨nodes, Numbering.covers_of_noted htraversal hnoted, fun _ hx => htraversal.root_mem hx⟩

theorem regular_of_ofProgram (h : Numbering.ofProgram r.graph r.run r.roots = .ok ns) :
    Regular (r.code ns) := by
  obtain ⟨nodes, hcovers, hnodes⟩ := exists_covers h
  exact regular_code hcovers hnodes

theorem refuses_of_checkRun {e : Error} (h : r.checkRun = .error e) : Refuses e := by
  unfold checkRun at h
  cases hn : r.graph.node r.run with
  | error e' =>
      simp only [hn, Except.mapError, bind, Except.bind, Except.error.injEq] at h
      rw [(Graph.node_eq_error_iff.mp hn).2] at h
      exact h ▸ .shape trivial
  | ok n =>
      simp only [hn, Except.mapError, bind, Except.bind] at h
      by_cases hstate : n.state = .onWorkspace
      · cases hread : r.graph.statement r.run with
        | error e' =>
            simp only [hstate, hread, ne_eq, not_true_eq_false, if_false, Except.error.injEq] at h
            exact h ▸ .grammar (Graph.ofGrammar_of_contents (Graph.node_eq_ok_iff.mp hn) hread)
        | ok o => simp [hstate, hread, pure, Except.pure] at h
      · simp only [ne_eq, hstate, not_false_eq_true, if_true, throw, throwThe, MonadExceptOf.throw,
          Except.error.injEq] at h
        exact h ▸ .state

theorem refuses_of_numbering {e : Error} (h : r.numbering = .error e) : Refuses e := by
  unfold numbering at h
  cases hrun : r.checkRun with
  | error e' =>
      simp only [hrun, bind, Except.bind, Except.error.injEq] at h
      exact h ▸ refuses_of_checkRun hrun
  | ok u =>
      cases hns : Numbering.ofProgram r.graph r.run r.roots with
      | ok ns => simp [hrun, hns, bind, Except.bind, Except.mapError] at h
      | error e' =>
          simp only [hrun, hns, bind, Except.bind, Except.mapError, Except.error.injEq] at h
          exact h ▸ .shape (Numbering.ofShape_of_ofProgram hns)

theorem refuses_of_generate {e : Error} (h : (r.generate library).result = .error e) :
    Refuses e := by
  unfold generate at h
  cases hns : r.numbering with
  | error e' =>
      simp only [hns, Except.error.injEq] at h
      exact h ▸ refuses_of_numbering hns
  | ok ns =>
      cases hcode : (r.code ns).result with
      | ok u => simp [hns, hcode] at h
      | error e' =>
          simp only [hns, hcode, Except.error.injEq] at h
          have hregular := regular_of_ofProgram (numbering_eq_ok_iff.mp hns).2
          exact h ▸ .grammar (hregular.fault e' hcode)

/-- No wording of a refusal says that a node is not part of the program. -/
theorem Refuses.message_ne_unnumbered {e : Error} (h : Refuses e) (id : NodeId) :
    e.message ≠ (Error.malformed (.unnumbered id)).message := by
  have hends : GraphFault.EndsApart e.message := by
    cases h with
    | state => exact GraphFault.EndsApart.append ⟨_, rfl, by decide⟩ _
    | shape h => exact (GraphFault.endsApart_message (.inl h)).append _
    | grammar h => exact (GraphFault.endsApart_message (.inr h)).append _
  intro heq
  exact GraphFault.not_endsApart_unnumbered id _ (heq ▸ hends)

/-- Wherever generators come from the node to run and the roots, by the fields that they know of,
the nodes have numbers, and so do all nodes whose numbers are used for others.  So no request fails
for the want of a number. -/
theorem lookups_succeed (r : Request) (library : Library) :
    (∀ ns, Numbering.ofProgram r.graph r.run r.roots = .ok ns →
      (∀ id, r.graph.Entered (r.run :: r.roots) id →
        (ns.own? id).isSome ∧ ∃ k, ns.serial id = .ok k) ∧
      ∀ id last, ns.referent? id = some last → (ns.own? last).isSome) ∧
    ∀ e, (r.generate library).result = .error e →
      ∀ id, e.message ≠ (Error.malformed (.unnumbered id)).message := by
  refine ⟨fun ns hns => ?_, fun e he => (refuses_of_generate he).message_ne_unnumbered⟩
  obtain ⟨nodes, htraversal, _, hnoted⟩ := Numbering.exists_noted hns
  have hcovers := Numbering.covers_of_noted htraversal hnoted
  constructor
  · intro id hid
    have hmem := hcovers.mem_of_entered (fun _ hx => htraversal.root_mem hx) hid
    exact ⟨hnoted.indexed.own?_isSome_iff.mpr (hnoted.extends_all hmem), hcovers.serial id hmem⟩
  · intro id last hlast
    have hmem : id ∈ nodes := by
      by_contra hnot
      rw [hnoted.referent? id hnot] at hlast
      cases hlast
    have hbearer : ns.bearer id = last := by
      rw [Numbering.bearer, hlast, Option.getD_some]
    rw [hnoted.indexed.own?_isSome_iff, ← hbearer]
    exact hnoted.numbered id hmem

end BlockScript.Request
