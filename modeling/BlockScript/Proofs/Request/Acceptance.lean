import BlockScript.Proofs.Emission.Acceptance
import BlockScript.Proofs.Request.Answer
/-!
# Which requests are answered

A request is answered exactly if it is well formed (`generate_succeeds_iff`): the program can start,
the nodes under its roots form trees whose referents lead to an end, and blocks stand only where the
grammar allows them.  Neither the library nor the options matter.
-/

namespace BlockScript.Request

open BlockScript.Graph (Traversal LeadsTo)
open Emission (Context succeeds_bind_iff_and succeeds_pure succeeds_iff_gives)

structure WellFormed (r : Request) : Prop where
  executable : r.Executable
  /-- No node is met twice, and none is missing, on the way from the node to run and from each root
  not met before; and all referents of the nodes met lead to an end. -/
  trees : ∃ met, Traversal r.graph [] (r.run :: r.roots) met ∧
    ∀ id ∈ met, ∃ last, LeadsTo r.graph id last
  body : r.graph.BodyAt r.run
  roots : ∀ root ∈ r.roots, ∀ n, r.graph.node? root = some n → r.graph.RootAt root n.kind

variable {r : Request} {ns : Numbering}

/-- Once the nodes are numbered only the grammar matters. -/
theorem succeeds_code_iff (hns : Numbering.ofProgram r.graph r.run r.roots = .ok ns) :
    (r.code ns).Succeeds ↔
      r.graph.BodyAt r.run ∧
        ∀ root ∈ r.roots, ∀ n, r.graph.node? root = some n → r.graph.RootAt root n.kind := by
  obtain ⟨all, htraversal, _, hnoted⟩ := Numbering.exists_noted hns
  have hcovers : (r.context ns).numbering.Covers (r.context ns).graph all :=
    Numbering.covers_of_noted htraversal hnoted
  have hroots : ∀ root ∈ r.roots, root ∈ all := fun root hroot =>
    htraversal.root_mem (List.mem_cons_of_mem _ hroot)
  have hrun : r.run ∈ all := htraversal.root_mem List.mem_cons_self
  have hcode : (r.code ns).Succeeds ↔
      ((r.context ns).globalDeclarations bodyDepth r.roots).Succeeds ∧
        ((r.context ns).definitions bodyDepth r.roots).Succeeds ∧
          ((r.context ns).handlers bodyDepth r.roots).Succeeds ∧
            ((r.context ns).statements bodyDepth r.run).Succeeds :=
    succeeds_bind_iff_and fun _ => succeeds_bind_iff_and fun _ => succeeds_bind_iff_and fun _ =>
      Iff.rfl
  have hglobals : ((r.context ns).globalDeclarations bodyDepth r.roots).Succeeds ↔
      ((r.context ns).globals bodyDepth r.roots []).Succeeds ∧ True :=
    succeeds_bind_iff_and fun _ => iff_true_intro (succeeds_pure _)
  rw [hcode, hglobals, and_true, Context.succeeds_globals_iff hcovers [] hroots,
    Context.succeeds_definitions_iff hcovers hroots, Context.succeeds_handlers_iff hcovers hroots,
    Context.succeeds_statements_iff hcovers hrun bodyDepth]
  constructor
  · rintro ⟨hdeclarations, hdefinitions, hhandlers, hbody⟩
    refine ⟨hbody, fun root hroot n hn => ?_⟩
    cases hkind : n.kind with
    | declaration d => exact hdeclarations root hroot n hn d hkind
    | definition d => exact hdefinitions root hroot n hn d hkind
    | handler x => exact hhandlers root hroot n hn x hkind
    | statement _ | declarationEnd | statementEnd | expression _ | argument _ | argumentEnd =>
        trivial
  · rintro ⟨hbody, hall⟩
    refine ⟨fun root hroot n hn d hkind => ?_, fun root hroot n hn d hkind => ?_,
      fun root hroot n hn x hkind => ?_, hbody⟩
    all_goals
      have hroot' := hall root hroot n hn
      rw [hkind] at hroot'
      exact hroot'

/-- A request is answered exactly if it is well formed. -/
theorem generate_succeeds_iff (r : Request) (library : Library) :
    (∃ text, (r.generate library).result = .ok text) ↔ r.WellFormed := by
  constructor
  · rintro ⟨text, htext⟩
    obtain ⟨ns, ls, hexecutable, hns, hgives, _⟩ := generate_eq_ok_iff.mp htext
    obtain ⟨all, htraversal, hcompletion⟩ := Numbering.ofProgram_eq_ok_iff.mp hns
    obtain ⟨hbody, hroots⟩ := (succeeds_code_iff hns).mp (succeeds_iff_gives.mpr ⟨ls, (), hgives⟩)
    exact ⟨hexecutable, ⟨all, htraversal, Numbering.exists_completion_iff.mp ⟨ns, hcompletion⟩⟩,
      hbody, hroots⟩
  · rintro ⟨hexecutable, ⟨met, htraversal, hleads⟩, hbody, hroots⟩
    obtain ⟨ns, hcompletion⟩ := Numbering.exists_completion_iff.mpr hleads
    have hns := Numbering.ofProgram_eq_ok_iff.mpr ⟨met, htraversal, hcompletion⟩
    obtain ⟨ls, u, hgives⟩ := succeeds_iff_gives.mp ((succeeds_code_iff hns).mpr ⟨hbody, hroots⟩)
    exact ⟨_, generate_eq_ok_iff.mpr ⟨ns, ls, hexecutable, hns, hgives, rfl⟩⟩

end BlockScript.Request
