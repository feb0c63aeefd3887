import BlockScript.Proofs.Emission.Binding
import BlockScript.Proofs.Request.Answer
/-!
# Names that are bound twice

The call of a function for its value is a use of the function, and so the temporary for the value
has the function's number.  In a program in whose graph only reads and calls have referents this is
the one way in which a block can bind a name twice: it does so exactly if it calls a function for
its value more than once (`nodup_names_iff_of_generate`).
-/

namespace BlockScript.Request

open Emission (Context Gives)
open Script (Line Name)

variable {r : Request} {library : Library} {text : String} {ns : Numbering}

/-- The blocks of a program's own part bind their names at sites apart. -/
theorem binds_code {nodes : List NodeId} {ls : List Line} (h : (r.context ns).Plain nodes)
    (hrun : r.run ∈ nodes) (hroots : ∀ x ∈ r.roots, x ∈ nodes) (hnodup : r.roots.Nodup)
    (hgives : Gives (r.code ns) ls ()) : (r.context ns).Binds (fun _ => True) ls := by
  obtain ⟨_, l₁, _, hglobals, hafterGlobals, rfl⟩ := Emission.gives_bind.mp hgives
  obtain ⟨_, l₂, _, hdefinitions, hrest, rfl⟩ := Emission.gives_bind.mp hafterGlobals
  obtain ⟨_, l₃, l₄, hhandlers, hstatements, rfl⟩ := Emission.gives_bind.mp hrest
  obtain ⟨l, hl, hlnodup⟩ := h.covers.tree r.run hrun
  have hdeclared := Context.binds_globalDeclarations h hroots hglobals
  have hdefined := Context.binds_definitions h hnodup hroots hdefinitions
  have hhandled := Context.binds_handlers h hnodup hroots hhandlers
  have hrunning := (Context.lays_statements h hrun l l₄ () hl hstatements).binds hlnodup
  have hfromHandlers := hhandled.append hrunning fun s hs => hs.2.not_temporary
  have hfromDefinitions := hdefined.append hfromHandlers fun s hs hs' =>
    hs'.elim (fun hhandles => hs.2.not_handles hhandles.2) hs.2.not_temporary
  refine (hdeclared.append hfromDefinitions fun s hs hs' => ?_).imp fun _ _ => trivial
  rcases hs' with ⟨_, hdefines⟩ | ⟨_, hhandles⟩ | htemporary
  · exact hs.not_defined hdefines
  · exact hs.not_handles hhandles
  · exact hs.not_temporary htemporary

/-- Where only reads and calls have referents and no root is given twice, a block of the program's
own part binds a name twice exactly if it calls a function for its value more than once. -/
theorem nodup_names_iff_of_generate (hrefers : r.graph.RefersOnlyByUse) (hroots : r.roots.Nodup)
    (htext : (r.generate library).result = .ok text) :
    ∃ ns, r.numbering = .ok ns ∧
      text = wrap (library.source r.options.isLocal) (r.code ns).output.lines ∧
      ∀ b ∈ Script.blocks (r.code ns).output.lines,
        (b.names.map Name.render).Nodup ↔ b.callees.Nodup := by
  obtain ⟨ns, ls, hrun, hns, hgives, rfl⟩ := generate_eq_ok_iff.mp htext
  obtain ⟨nodes, htraversal, _, hnoted⟩ := Numbering.exists_noted hns
  have hcovers := Numbering.covers_of_noted htraversal hnoted
  have hmem : ∀ x ∈ r.run :: r.roots, x ∈ nodes := fun x hx => htraversal.root_mem hx
  have hplain : (r.context ns).Plain nodes := ⟨hcovers, hrefers⟩
  have hbinds := binds_code hplain (hmem r.run List.mem_cons_self)
    (fun x hx => hmem x (List.mem_cons_of_mem _ hx)) hroots hgives
  obtain ⟨_, rfl⟩ := hgives
  exact ⟨ns, numbering_eq_ok_iff.mpr ⟨hrun, hns⟩, rfl, fun b hb =>
    hbinds.nodup_names_iff hnoted.indexed hb⟩

/-- Returns the conjunction of the values of two functions: of the one at 0 and of the one at
`second`, which may be the same. -/
def returnBoth (second : NodeId) : Request where
  graph := ⟨#[⟨.definition ⟨"f", ⟨1⟩, ⟨2⟩, some (.single .bool)⟩, .onWorkspace, none⟩,
    .ofKind .declarationEnd,
    .ofKind (.statement ⟨.returnValue (some ⟨3⟩), ⟨4⟩⟩),
    .ofKind (.expression (.literal (.bool "true"))),
    .ofKind .statementEnd,
    ⟨.definition ⟨"g", ⟨6⟩, ⟨7⟩, some (.single .bool)⟩, .onWorkspace, none⟩,
    .ofKind .declarationEnd,
    .ofKind (.statement ⟨.returnValue (some ⟨8⟩), ⟨9⟩⟩),
    .ofKind (.expression (.literal (.bool "false"))),
    .ofKind .statementEnd,
    ⟨.expression (.call ⟨11⟩), .child, some ⟨0⟩⟩,
    .ofKind .argumentEnd,
    ⟨.expression (.call ⟨13⟩), .child, some second⟩,
    .ofKind .argumentEnd,
    .ofKind (.expression (.binary (.logic .and) ⟨10⟩ ⟨12⟩)),
    ⟨.statement ⟨.returnValue (some ⟨14⟩), ⟨16⟩⟩, .onWorkspace, none⟩,
    .ofKind .statementEnd]⟩
  run := ⟨15⟩
  roots := [⟨0⟩, ⟨5⟩]
  options := .standard

/-- With two functions no name is bound twice. -/
theorem nodup_names_of_returnBoth :
    (returnBoth ⟨5⟩).graph.RefersOnlyByUse ∧ (returnBoth ⟨5⟩).roots.Nodup ∧
      ∃ text ns, ((returnBoth ⟨5⟩).generate ⟨"", "", ""⟩).result = .ok text ∧
        (returnBoth ⟨5⟩).numbering = .ok ns ∧
        ∀ b ∈ Script.blocks ((returnBoth ⟨5⟩).code ns).output.lines,
          (b.names.map Name.render).Nodup := by
  have hrefers : (returnBoth ⟨5⟩).graph.RefersOnlyByUse := by decide
  have htext : ((returnBoth ⟨5⟩).generate ⟨"", "", ""⟩).result = .ok _ := rfl
  obtain ⟨ns, hns, _, hblocks⟩ := nodup_names_iff_of_generate hrefers (by decide) htext
  refine ⟨hrefers, by decide, _, ns, htext, hns, fun b hb => (hblocks b hb).mpr ?_⟩
  obtain rfl := Except.ok.inj ((show (returnBoth ⟨5⟩).numbering = .ok _ from rfl).symm.trans hns)
  revert b
  decide

/-- With one function, called twice, a name is bound twice. -/
theorem not_nodup_names_of_returnBoth :
    (returnBoth ⟨0⟩).graph.RefersOnlyByUse ∧ (returnBoth ⟨0⟩).roots.Nodup ∧
      ∃ text ns, ((returnBoth ⟨0⟩).generate ⟨"", "", ""⟩).result = .ok text ∧
        (returnBoth ⟨0⟩).numbering = .ok ns ∧
        ∃ b ∈ Script.blocks ((returnBoth ⟨0⟩).code ns).output.lines,
          b.names = [.func 8, .func 13, .var 8, .var 8, .var 2] ∧
            ¬(b.names.map Name.render).Nodup := by
  refine ⟨by decide, by decide, _, _, rfl, rfl,
    ⟨[.func 8, .func 13, .var 8, .var 8, .var 2], [8, 8]⟩, by decide, rfl, fun hnodup => ?_⟩
  have hnames := hnodup.of_map
  revert hnames
  decide

end BlockScript.Request
