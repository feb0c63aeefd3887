import BlockScript.Proofs.Emission.Indentation
import BlockScript.Proofs.Request.Answer
/-!
# Programs are indented by their nesting

The part of a program after the library is well indented if the user's names are not shown
(`generate_wellIndented`): every block that is opened on the way to an answer is closed, and texts
of the user end no line.
-/

namespace BlockScript.Request

open Emission (Gives)
open Script (WellIndented)
open Text.Quoted (isLineEnd)

variable {r : Request} {text : String} {ns : Numbering}

/-- The lines of a program start and end inside the function around it. -/
theorem keeps_code (hcomments : r.options.withComments = false) :
    Emission.Keeps bodyDepth (r.code ns) := by
  have hdepth : 1 ≤ bodyDepth := Nat.le_refl 1
  have hcontext : (r.context ns).options.withComments = false := hcomments
  refine (Emission.Context.keeps_globalDeclarations hcontext hdepth r.roots).bind fun _ => ?_
  refine (Emission.Context.keeps_definitions hcontext hdepth r.roots).bind fun _ => ?_
  refine (Emission.Context.keeps_handlers hcontext hdepth r.roots).bind fun _ => ?_
  exact Emission.Context.keeps_statements hcontext hdepth r.run

/-- If names are not shown, what a program holds between the library and the end of the function
around it is well indented, and a line feed is the only character of it that ends a line. -/
theorem generate_wellIndented {library : Library} (hcomments : r.options.withComments = false)
    (htext : (r.generate library).result = .ok text) :
    ∃ part, text = "(function()\x7b\n" ++ library.source r.options.isLocal ++ part ++
        "\x7d)();\n" ∧
      (∀ c ∈ part.toList, isLineEnd c = true → c = '\n') ∧ WellIndented part.toList := by
  obtain ⟨ns, ls, _, _, hgives, rfl⟩ := generate_eq_ok_iff.mp htext
  have hreads := keeps_code hcomments ls () hgives
  exact ⟨Script.render ls, rfl, fun c hc => Script.eq_of_mem_render hreads.clean hc,
    Script.wellIndented_render hreads⟩

/-- A handler that chooses between a text and nothing, and a loop around a sum. -/
def printBraces : Request where
  graph := ⟨#[⟨.handler ⟨.keyPressed "a", ⟨1⟩⟩, .onWorkspace, none⟩,
    .ofKind (.statement ⟨.branch ⟨2⟩ ⟨3⟩ (some ⟨6⟩), ⟨8⟩⟩),
    .ofKind (.expression (.literal (.bool "true"))),
    .ofKind (.statement ⟨.builtin ⟨.print, none, [⟨4⟩]⟩, ⟨5⟩⟩),
    .ofKind (.expression (.literal (.text "\x7d\n\x7b"))),
    .ofKind .statementEnd,
    .ofKind (.statement ⟨.returnValue none, ⟨7⟩⟩),
    .ofKind .statementEnd,
    .ofKind .statementEnd,
    ⟨.statement ⟨.whileTrue ⟨10⟩ ⟨11⟩, ⟨16⟩⟩, .onWorkspace, none⟩,
    .ofKind (.expression (.literal (.bool "true"))),
    .ofKind (.statement ⟨.returnValue (some ⟨12⟩), ⟨15⟩⟩),
    .ofKind (.expression (.binary (.arith .add) ⟨13⟩ ⟨14⟩)),
    .ofKind (.expression (.literal (.number "1"))),
    .ofKind (.expression (.literal (.number "2"))),
    .ofKind .statementEnd,
    .ofKind .statementEnd]⟩
  run := ⟨9⟩
  roots := [⟨0⟩]
  options := .standard

/-- The text that is printed would close a block and open one. -/
theorem generate_printBraces :
    printBraces.options.withComments = false ∧
      ∃ text part, (printBraces.generate ⟨"", "", ""⟩).result = .ok text ∧
        text = "(function()\x7b\n" ++ Library.source ⟨"", "", ""⟩ true ++ part ++ "\x7d)();\n" ∧
        WellIndented part.toList := by
  have htext : (printBraces.generate ⟨"", "", ""⟩).result = .ok _ := rfl
  obtain ⟨part, hpart, _, hindented⟩ := generate_wellIndented rfl htext
  exact ⟨rfl, _, part, htext, hpart, hindented⟩

end BlockScript.Request
