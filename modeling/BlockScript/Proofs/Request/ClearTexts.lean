import BlockScript.Proofs.Emission.ClearTexts
import BlockScript.Proofs.Request.Faults
/-!
# The user's texts do not change a program

Two requests that differ only in the texts of text literals fail with the same error, or have
programs that are the same with every literal emptied (`generate_sameButTexts`).
-/

namespace BlockScript.Request

open Emission (Cleared ClearedSame Regular)
open Script (Alike)

variable {r r' : Request} {library : Library} {ns : Numbering}

def clearTexts (r : Request) : Request :=
  { r with graph := r.graph.clearTexts }

def SameButTexts (r r' : Request) : Prop :=
  r.clearTexts = r'.clearTexts

theorem checkRun_clearTexts (r : Request) : r.clearTexts.checkRun = r.checkRun := by
  have hstatement : r.clearTexts.graph.statement r.run = r.graph.statement r.run :=
    r.graph.statement_clearTexts r.run
  have hnode : r.clearTexts.graph.node r.run = (r.graph.node r.run).map Node.clearTexts :=
    r.graph.node_clearTexts r.run
  have hrun : r.clearTexts.run = r.run := rfl
  unfold checkRun
  rw [hrun, hnode, hstatement]
  cases r.graph.node r.run <;> rfl

theorem numbering_clearTexts (r : Request) : r.clearTexts.numbering = r.numbering := by
  have hns : Numbering.ofProgram r.clearTexts.graph r.run r.roots =
      Numbering.ofProgram r.graph r.run r.roots :=
    Numbering.ofProgram_clearTexts r.graph r.run r.roots
  unfold numbering
  rw [checkRun_clearTexts]
  exact congrArg (fun x => r.checkRun >>= fun _ => x.mapError Error.malformed) hns

theorem cleared_code (r : Request) (ns : Numbering) :
    ClearedSame (r.code ns) (r.clearTexts.code ns) := by
  have hglobals := (r.context ns).cleared_globals bodyDepth r.roots []
  have hdeclarations : ClearedSame ((r.context ns).globalDeclarations bodyDepth r.roots)
      ((r.context ns).clearTexts.globalDeclarations bodyDepth r.roots) :=
    hglobals.bind fun _ => .pure rfl
  refine hdeclarations.bind fun _ => ?_
  refine ((r.context ns).cleared_definitions bodyDepth r.roots).bind fun _ => ?_
  refine ((r.context ns).cleared_handlers bodyDepth r.roots).bind fun _ => ?_
  exact (r.context ns).cleared_statements bodyDepth r.run

/-- The lines of the code of two programs that differ only in texts. -/
theorem alike_code (h : SameButTexts r r')
    (hns : Numbering.ofProgram r.graph r.run r.roots = .ok ns)
    (hns' : Numbering.ofProgram r'.graph r'.run r'.roots = .ok ns) :
    (r.code ns).result = (r'.code ns).result ∧
      Alike (Script.render (r.code ns).output.lines).toList
        (Script.render (r'.code ns).output.lines).toList := by
  have hcode := cleared_code r ns
  have hcode' := cleared_code r' ns
  have hsame : r.clearTexts = r'.clearTexts := h
  rw [hsame] at hcode
  have halike := Script.alike_render (regular_of_ofProgram hns).plain
  have halike' := Script.alike_render (regular_of_ofProgram hns').plain
  rw [← hcode.lines] at halike
  rw [← hcode'.lines] at halike'
  exact ⟨hcode.result_eq.symm.trans hcode'.result_eq, halike.trans halike'.symm⟩

/-- Two requests that differ only in the texts of text literals fail with the same error, or have
programs whose parts after the library are closed and the same with every literal emptied; so both
have the same lines and identifiers. -/
theorem generate_sameButTexts (h : SameButTexts r r') (library : Library) :
    (∃ e, (r.generate library).result = .error e ∧ (r'.generate library).result = .error e) ∨
      ∃ before p q, before = "(function()\x7b\n" ++ library.source r.options.isLocal ∧
        (r.generate library).result = .ok (before ++ p) ∧
        (r'.generate library).result = .ok (before ++ q) ∧
        Script.Closed p.toList ∧ Script.Closed q.toList ∧
        Script.emptyLiterals p.toList = Script.emptyLiterals q.toList ∧
        Script.lineEnds p.toList = Script.lineEnds q.toList ∧
        Script.identifiers p.toList = Script.identifiers q.toList := by
  have hsame : r.clearTexts = r'.clearTexts := h
  have hnumbering : r.numbering = r'.numbering := by
    rw [← numbering_clearTexts r, ← numbering_clearTexts r', hsame]
  have hoptions : r.clearTexts.options = r'.clearTexts.options := by rw [hsame]
  change r.options = r'.options at hoptions
  unfold generate
  rw [← hnumbering, ← hoptions]
  cases hns : r.numbering with
  | error e => exact .inl ⟨e, rfl, rfl⟩
  | ok ns =>
      obtain ⟨hresult, halike⟩ := alike_code h (numbering_eq_ok_iff.mp hns).2
        (numbering_eq_ok_iff.mp (hnumbering ▸ hns)).2
      simp only [← hresult]
      cases hcode : (r.code ns).result with
      | error e => exact .inl ⟨_, rfl, rfl⟩
      | ok u =>
          right
          have hend : Alike "\x7d)();\n".toList "\x7d)();\n".toList := .fixed (by decide)
          have hafter := halike.concat hend
          exact ⟨_, _, _, rfl, congrArg Except.ok String.append_assoc,
            congrArg Except.ok String.append_assoc, hafter.left, hafter.right,
            hafter.emptyLiterals_eq, hafter.lineEnds_eq, hafter.identifiers_eq⟩

def returnText (text : String) : Request where
  graph := ⟨#[⟨.statement ⟨.returnValue (some ⟨1⟩), ⟨2⟩⟩, .onWorkspace, none⟩,
    .ofKind (.expression (.literal (.text text))),
    .ofKind .statementEnd]⟩
  run := ⟨0⟩
  roots := []
  options := .standard

theorem sameButTexts_returnText (s t : String) : SameButTexts (returnText s) (returnText t) := by
  simp [SameButTexts, clearTexts, returnText, Graph.clearTexts, Node.clearTexts, Node.ofKind,
    NodeKind.clearTexts, Expression.clearTexts, Literal.clearTexts]

/-- A quote and the sign that opens a comment, each as the text that is returned. -/
theorem generate_returnText :
    SameButTexts (returnText "'") (returnText "/*") ∧
      ∃ p q,
        ((returnText "'").generate ⟨"", "", ""⟩).result =
          .ok ("(function()\x7b\n" ++ Library.source ⟨"", "", ""⟩ true ++ p) ∧
        ((returnText "/*").generate ⟨"", "", ""⟩).result =
          .ok ("(function()\x7b\n" ++ Library.source ⟨"", "", ""⟩ true ++ q) ∧
        Script.emptyLiterals p.toList = Script.emptyLiterals q.toList ∧
        Script.lineEnds p.toList = Script.lineEnds q.toList ∧
        Script.identifiers p.toList = Script.identifiers q.toList := by
  have hsame := sameButTexts_returnText "'" "/*"
  have htext : ((returnText "'").generate ⟨"", "", ""⟩).result = .ok _ := rfl
  refine ⟨hsame, ?_⟩
  rcases generate_sameButTexts hsame ⟨"", "", ""⟩ with
    ⟨e, he, _⟩ | ⟨_, p, q, rfl, hp, hq, _, _, hrest⟩
  · rw [htext] at he
    cases he
  · exact ⟨p, q, hp, hq, hrest⟩

end BlockScript.Request
