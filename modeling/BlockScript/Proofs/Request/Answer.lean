import BlockScript.Request
import BlockScript.Proofs.Emission.Sequence
import BlockScript.Proofs.Graph.Chain
/-!
# When a request is answered

A request has an answer exactly if its program can start, its nodes can be numbered and its code
can be generated; the answer is the library around the lines of the code (`generate_eq_ok_iff`).
-/

namespace BlockScript.Request

open Emission (Gives)

variable {r : Request} {library : Library} {text : String} {ns : Numbering}

/-- The node to run is a root on a workspace, and a statement or the end of a chain of them. -/
def Executable (r : Request) : Prop :=
  ∃ n, r.graph.node? r.run = some n ∧ n.state = .onWorkspace ∧
    ((∃ s, n.kind = .statement s) ∨ n.kind = .statementEnd)

theorem mapError_bind_eq_ok_iff {α β : Type} {x : Except GraphFault α} {f : GraphFault → Error}
    {k : α → Except Error β} {b : β} :
    x.mapError f >>= k = .ok b ↔ ∃ a, x = .ok a ∧ k a = .ok b := by
  cases x <;> simp [Except.mapError, bind, Except.bind]

theorem checkRun_eq_ok_iff : r.checkRun = .ok () ↔ r.Executable := by
  have hcheck : r.checkRun = .ok () ↔
      ∃ n, r.graph.node? r.run = some n ∧ n.state = .onWorkspace ∧
        ∃ o, r.graph.statement r.run = .ok o := by
    unfold checkRun
    rw [mapError_bind_eq_ok_iff]
    refine exists_congr fun n => and_congr Graph.node_eq_ok_iff ?_
    by_cases hstate : n.state = .onWorkspace
    · simp only [hstate, ne_eq, not_true_eq_false, if_false, true_and]
      rw [mapError_bind_eq_ok_iff]
      simp [pure, Except.pure]
    · simp [hstate, throw, throwThe, MonadExceptOf.throw, bind, Except.bind]
  rw [hcheck]
  refine exists_congr fun n => and_congr_right fun hn => and_congr_right fun _ => ?_
  constructor
  · rintro ⟨o, ho⟩
    cases o with
    | none =>
        obtain ⟨m, hm, hkind⟩ := Graph.statement_eq_none_iff.mp ho
        obtain rfl := Option.some.inj (hn.symm.trans hm)
        exact .inr hkind
    | some s =>
        obtain ⟨m, hm, hkind⟩ := Graph.statement_eq_some_iff.mp ho
        obtain rfl := Option.some.inj (hn.symm.trans hm)
        exact .inl ⟨s, hkind⟩
  · rintro (⟨s, hkind⟩ | hkind)
    · exact ⟨some s, Graph.statement_eq_some_iff.mpr ⟨n, hn, hkind⟩⟩
    · exact ⟨none, Graph.statement_eq_none_iff.mpr ⟨n, hn, hkind⟩⟩

theorem numbering_eq_ok_iff :
    r.numbering = .ok ns ↔
      r.Executable ∧ Numbering.ofProgram r.graph r.run r.roots = .ok ns := by
  rw [← checkRun_eq_ok_iff]
  unfold numbering
  cases hrun : r.checkRun with
  | error e => simp [bind, Except.bind]
  | ok u =>
      cases Numbering.ofProgram r.graph r.run r.roots <;>
        simp [bind, Except.bind, Except.mapError]

theorem result_generate_of_error {e : Error} (h : r.numbering = .error e) :
    (r.generate library).result = .error e := by
  unfold generate
  rw [h]

theorem result_generate (h : r.numbering = .ok ns) :
    (r.generate library).result = ((r.code ns).result.mapError Error.malformed).map fun _ =>
      wrap (library.source r.options.isLocal) (r.code ns).output.lines := by
  unfold generate
  rw [h]
  cases hcode : (r.code ns).result <;> simp [hcode, Except.mapError, Except.map]

theorem generate_eq_ok_iff :
    (r.generate library).result = .ok text ↔
      ∃ ns ls, r.Executable ∧ Numbering.ofProgram r.graph r.run r.roots = .ok ns ∧
        Gives (r.code ns) ls () ∧ text = wrap (library.source r.options.isLocal) ls := by
  simp only [← and_assoc, ← numbering_eq_ok_iff]
  unfold generate
  cases hns : r.numbering with
  | error e => simp
  | ok ns =>
      cases hcode : (r.code ns).result with
      | error e => simp [hcode, Gives]
      | ok u => simp [hcode, Gives, eq_comm]

end BlockScript.Request
