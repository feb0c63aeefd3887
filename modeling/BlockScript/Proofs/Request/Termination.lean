import BlockScript.Proofs.Emission.Advance
import BlockScript.Proofs.Request.Faults
/-!
# Every request ends

Whatever a graph looks like, numbering its nodes ends after a turn for each, or with one more turn
that fails; and once the nodes have numbers, generating code only moves on to larger ones (`ends`).
The bounds on steps in the definitions are therefore never met.
-/

namespace BlockScript.Request

open BlockScript.Numbering (WalksTrees)

variable {r : Request} {ns : Numbering} {id : NodeId}

theorem advances_of_entered (hns : Numbering.ofProgram r.graph r.run r.roots = .ok ns)
    (hid : r.graph.Entered (r.run :: r.roots) id) : (r.context ns).Advances id := by
  obtain ⟨nodes, htraversal, hcompletion⟩ := Numbering.ofProgram_eq_ok_iff.mp hns
  obtain ⟨_, hnoted⟩ := Numbering.noted_of_completion htraversal hcompletion
  have hcovers := Numbering.covers_of_noted htraversal hnoted
  have hmem := hcovers.mem_of_entered (fun _ hx => htraversal.root_mem hx) hid
  obtain ⟨below, hordered⟩ := Numbering.exists_ordered htraversal hcompletion hmem
  exact Emission.Context.advances_of_ordered hordered hcovers hmem

/-- Every request ends.  The loop that numbers nodes, taken without a bound, runs in exactly one
way, to the answer that it has with the bound: after a turn for each node that gets a number, of
which there are no more than the graph has, or with at most one turn more.  No walk of the numbering
runs out of steps.  Once it has succeeded, generating code moves on to larger numbers wherever it
comes, and no walk of it runs out of steps either. -/
theorem ends (r : Request) (library : Library) :
    (∃ turns answer, WalksTrees r.graph (r.run :: r.roots) (.empty r.graph) turns answer ∧
      (∀ turns' answer', WalksTrees r.graph (r.run :: r.roots) (.empty r.graph) turns' answer' →
        turns' = turns ∧ answer' = answer) ∧
      (r.run :: r.roots).foldlM (Numbering.addTree r.graph) (.empty r.graph) = answer ∧
      (∀ ns, answer = .ok ns → turns = ns.size ∧ ns.size ≤ r.graph.size) ∧
      ∀ e, answer = .error e → turns ≤ r.graph.size + 1) ∧
    Numbering.ofProgram r.graph r.run r.roots ≠ .error .outOfSteps ∧
    (∀ ns, Numbering.ofProgram r.graph r.run r.roots = .ok ns →
      ∀ id, r.graph.Entered (r.run :: r.roots) id → (r.context ns).Advances id) ∧
    (r.generate library).result ≠ .error (.malformed .outOfSteps) := by
  obtain ⟨turns, answer, hwalks, hanswer, hcounted⟩ :=
    Numbering.exists_walksTrees (r.run :: r.roots)
      ⟨List.nodup_nil, List.forall_mem_nil _⟩
  refine ⟨⟨turns, answer, hwalks, fun _ _ h => h.unique hwalks, hanswer, ?_, ?_⟩, ?_, ?_, ?_⟩
  · rintro ns rfl
    exact hcounted.size_of_ok
  · rintro e rfl
    exact hcounted.le_of_error
  · intro heq
    exact (Numbering.ofShape_of_ofProgram heq).ne_outOfSteps rfl
  · intro ns hns id hid
    exact advances_of_entered hns hid
  · intro heq
    cases refuses_of_generate heq with
    | shape h => exact h.ne_outOfSteps rfl
    | grammar h => exact h.ne_outOfSteps rfl

end BlockScript.Request
