import BlockScript.Proofs.Emission.CallRecords
import BlockScript.Proofs.Request.Indentation
import BlockScript.Proofs.Request.Options
/-!
# Programs that record their calls

A program that records its calls is the program without records, with two more lines for each call
that is generated: one directly before the line that performs the call and one directly after it
(`generate_recording`).
-/

namespace BlockScript.Request

open Emission (Context Gives NodeRelation Recorded Traced Traces)
open Script (Line Paired)
open Text.Quoted (isLineEnd)

variable {r : Request} {library : Library} {text : String} {ns : Numbering}

def recording (r : Request) (isDebug : Bool) : Request :=
  r.under { r.options with isDebug := isDebug }

/-- The chains of statements of a program, in the order of their code: those of its definitions,
those of its handlers, and the one to run. -/
def chains (r : Request) : List NodeId :=
  r.roots.filterMap r.graph.definitionBody? ++ (r.roots.filterMap r.graph.handlerBody? ++ [r.run])

/-- The code of a program under two options is related for the nodes of its chains. -/
theorem traces_code {R : NodeRelation} {o : Options} (h : Context.Suits R (r.context ns) o) :
    Traces R r.graph r.chains [] (r.code ns) ((r.under o).code ns) := by
  have hglobals := Context.traces_globals h bodyDepth r.roots []
  have hdefinitions := Traces.each (Context.traces_rootDefinition h bodyDepth) r.roots
  have hhandlers := Traces.each (Context.traces_rootHandler h bodyDepth) r.roots
  refine (hglobals.bind fun _ => .pure ()).bind fun _ => hdefinitions.bind fun _ => ?_
  exact hhandlers.bind fun _ => Context.traces_statements h bodyDepth r.run

theorem traced_code (r : Request) (ns : Numbering) :
    Traced r.graph ns r.chains [] ((r.recording false).code ns) ((r.recording true).code ns) :=
  Context.traced_of_traces (traces_code (r := r.recording false)
    (Context.suits_records (r.context ns)))

def linesRecording (r : Request) (ns : Numbering) (isDebug : Bool) : List Line :=
  ((r.recording isDebug).code ns).output.lines

theorem result_code_recording (hns : r.numbering = .ok ns) (hresult : (r.code ns).result = .ok ())
    (isDebug : Bool) : ((r.recording isDebug).code ns).result = .ok () :=
  (result_code_under hns _).trans hresult

theorem result_generate_recording (hns : r.numbering = .ok ns)
    (hresult : (r.code ns).result = .ok ()) (library : Library) (isDebug : Bool) :
    ((r.recording isDebug).generate library).result =
      .ok (wrap (library.source r.options.isLocal) (r.linesRecording ns isDebug)) := by
  have hnumbering : (r.recording isDebug).numbering = .ok ns := hns
  rw [result_generate hnumbering, result_code_recording hns hresult]
  rfl

/-- If names are not shown, each line of a program is one line of its text. -/
theorem splitOnP_linesRecording (hcomments : r.options.withComments = false)
    (hns : r.numbering = .ok ns) (hresult : (r.code ns).result = .ok ()) (isDebug : Bool) :
    (Script.render (r.linesRecording ns isDebug)).toList.splitOnP isLineEnd =
      (r.linesRecording ns isDebug).map Line.text ++ [[]] := by
  have hkeeps : Emission.Keeps bodyDepth ((r.recording isDebug).code ns) := keeps_code hcomments
  exact Script.splitOnP_render
    (hkeeps _ () ⟨result_code_recording hns hresult isDebug, rfl⟩).clean

/-- What is generated without comments is generated with records of its calls and without, line for
line of the text.  The lines with records are those without, with the line of each call between the
records of its beginning and end, and with no others.  The calls are those of the program's chains,
in the order of their code.  So the records of beginnings and ends take turns, and only the line of
the call stands between those of one call. -/
theorem generate_recording (hcomments : r.options.withComments = false)
    (htext : (r.generate library).result = .ok text) :
    ∃ ns turn, r.numbering = .ok ns ∧
      (∀ isDebug, ((r.recording isDebug).generate library).result =
          .ok (wrap (library.source r.options.isLocal) (r.linesRecording ns isDebug)) ∧
        (Script.render (r.linesRecording ns isDebug)).toList.splitOnP isLineEnd =
          (r.linesRecording ns isDebug).map Line.text ++ [[]]) ∧
      r.graph.InTurn r.chains turn ∧
      (∃ nodes, r.graph.PreOrder r.chains nodes ∧ nodes.Perm turn) ∧
      Recorded r.graph ns (turn.filter r.graph.performsCall) (r.linesRecording ns false)
        (r.linesRecording ns true) ∧
      (r.linesRecording ns true).filter (fun l => !l.code.isRecord) = r.linesRecording ns false ∧
      (∃ serials, List.Forall₂ (fun id n => ns.serial id = .ok n)
          (turn.filter r.graph.performsCall) serials ∧
        ((r.linesRecording ns true).map Line.code).filter Script.Code.isRecord =
          serials.flatMap fun n => [.enterCall n, .leaveCall]) ∧
      Paired (r.linesRecording ns true) := by
  obtain ⟨ns, _, hrun, hprogram, ⟨hresult, rfl⟩, _⟩ := generate_eq_ok_iff.mp htext
  have hns := numbering_eq_ok_iff.mpr ⟨hrun, hprogram⟩
  obtain ⟨ls, turn, ⟨_, hplain⟩, hturn, hrecorded⟩ :=
    traced_code r ns _ () ⟨result_code_recording hns hresult true, rfl⟩
  subst hplain
  rw [List.append_nil] at hrecorded
  refine ⟨ns, turn, hns, fun isDebug => ?_, hturn, hturn.exists_preOrder, hrecorded,
    hrecorded.filter_eq, hrecorded.records_eq, hrecorded.paired⟩
  exact ⟨result_generate_recording hns hresult library isDebug,
    splitOnP_linesRecording hcomments hns hresult isDebug⟩

/-- Prints the value of a function, which is the last entry of a list. -/
def printLast : Request where
  graph := ⟨#[⟨.definition ⟨"f", ⟨1⟩, ⟨2⟩, some (.single .number)⟩, .onWorkspace, none⟩,
    .ofKind .declarationEnd,
    .ofKind (.statement ⟨.returnValue (some ⟨3⟩), ⟨5⟩⟩),
    .ofKind (.expression (.builtin ⟨.list .number .getLast, none, [⟨4⟩]⟩)),
    .ofKind (.expression (.literal (.emptyList .number))),
    .ofKind .statementEnd,
    ⟨.statement ⟨.builtin ⟨.print, none, [⟨7⟩]⟩, ⟨9⟩⟩, .onWorkspace, none⟩,
    ⟨.expression (.call ⟨8⟩), .child, some ⟨0⟩⟩,
    .ofKind .argumentEnd,
    .ofKind .statementEnd]⟩
  run := ⟨6⟩
  roots := [⟨0⟩]
  options := .standard

/-- The lines of the program with records: the argument of the print is called for before, and the
lines that replace a missing entry follow the end of the call that looks for it. -/
theorem recorded_printLast :
    printLast.options.withComments = false ∧
      ∃ text ns turn, (printLast.generate ⟨"", "", ""⟩).result = .ok text ∧
        printLast.numbering = .ok ns ∧ printLast.graph.InTurn printLast.chains turn ∧
        Recorded printLast.graph ns (turn.filter printLast.graph.performsCall)
          (printLast.linesRecording ns false) (printLast.linesRecording ns true) ∧
        printLast.linesRecording ns true =
          [⟨1, .openFunction 5 [] none⟩,
            ⟨2, .enterCall 8⟩, ⟨2, .bind 8 (.call ⟨.library "_aryGetLast", [.emptyList]⟩)⟩,
            ⟨2, .leaveCall⟩,
            ⟨2, .ifUndefined 8⟩, ⟨3, .assign 8 .zero⟩,
            ⟨2, .returnValue (some (.name (.var 8)))⟩,
            ⟨1, .close⟩,
            ⟨1, .enterCall 5⟩, ⟨1, .bind 5 (.call ⟨.user 5, []⟩)⟩, ⟨1, .leaveCall⟩,
            ⟨1, .enterCall 1⟩, ⟨1, .perform ⟨.library "_println", [.name (.var 5)]⟩⟩,
            ⟨1, .leaveCall⟩] := by
  have htext : (printLast.generate ⟨"", "", ""⟩).result = .ok _ := rfl
  obtain ⟨ns, turn, hns, _, hturn, _, hrecorded, _⟩ := generate_recording rfl htext
  refine ⟨rfl, _, ns, turn, htext, hns, hturn, hrecorded, ?_⟩
  obtain rfl := Except.ok.inj ((show printLast.numbering = .ok _ from rfl).symm.trans hns)
  rfl

end BlockScript.Request
