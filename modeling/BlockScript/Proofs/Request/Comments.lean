import BlockScript.Proofs.Request.Options
import BlockScript.Proofs.Script.Comments
/-!
# Programs without comments

A program with comments, from which its comments are deleted, is the program without them
(`generate_withoutComments`), whatever the names are that the comments show.
-/

namespace BlockScript

open Emission (Context LineRelation)

namespace Script

/-- Lines that are the same under all options show no notes. -/
theorem Line.hideNotes_of_steady {l : Line} (h : l.code.Steady) : l.hideNotes = l := by
  obtain ⟨depth, code⟩ := l
  cases code with
  | declare n initial note => exact h.elim
  | openFunction n params note =>
      obtain ⟨rfl, rfl⟩ := h
      rfl
  | _ => rfl

end Script

namespace Emission.Context

/-- Without comments no line shows a note, and nothing else changes. -/
theorem varies_hideNotes (c : Context) :
    Varies (.mapped Script.Line.hideNotes) c { c.options with withComments := false } where
  isDebug := id
  steady _ h := congrArg (fun l => [l]) (Script.Line.hideNotes_of_steady h).symm
  call depth n call target := by
    cases hdebug : c.options.isDebug <;> cases target <;>
      simp [LineRelation.mapped, callLines, callCode, under, hdebug, Script.Line.hideNotes,
        Script.Code.hideNotes]
  operation depth t op a b := by
    by_cases hguard : c.options.guardsArithmetic ∧ op.isArithmetic <;>
      simp [LineRelation.mapped, operationLines, under, hguard, Script.Line.hideNotes,
        Script.Code.hideNotes]
  declaration _ _ _ _ := rfl
  function depth n entries serials name := by
    have hparams : List.zipWith (c.under { c.options with withComments := false }).param entries
        serials = (List.zipWith c.param entries serials).map Script.Param.hideNote := by
      rw [List.map_zipWith]
      rfl
    rw [hparams]
    rfl

end Emission.Context

namespace Request

/-- A program with comments and one without fail with the same error or are both generated, behind
the same library.  The part behind the library, read as a program, with each block comment deleted
together with the blank before it, is the part of the program without comments. -/
theorem generate_withoutComments (r : Request) (library : Library) :
    (∃ e, ((r.under { r.options with withComments := true }).generate library).result = .error e ∧
      ((r.under { r.options with withComments := false }).generate library).result = .error e) ∨
    ∃ part part',
      ((r.under { r.options with withComments := true }).generate library).result =
        .ok ("(function()\x7b\n" ++ library.source r.options.isLocal ++ part) ∧
      ((r.under { r.options with withComments := false }).generate library).result =
        .ok ("(function()\x7b\n" ++ library.source r.options.isLocal ++ part') ∧
      Script.withoutComments part.toList = part'.toList := by
  let shown := r.under { r.options with withComments := true }
  let hidden := r.under { r.options with withComments := false }
  cases hns : r.numbering with
  | error e =>
      have hshown : shown.numbering = .error e := hns
      have hhidden : hidden.numbering = .error e := hns
      exact .inl ⟨e, result_generate_of_error hshown, result_generate_of_error hhidden⟩
  | ok ns =>
      have hshown : shown.numbering = .ok ns := hns
      have hhidden : hidden.numbering = .ok ns := hns
      obtain ⟨hresult, hlines⟩ := matches_code (Context.varies_hideNotes (shown.context ns)) hshown
      have hplain : ∀ l ∈ (shown.code ns).output.lines, l.code.Plain :=
        (regular_of_ofProgram (numbering_eq_ok_iff.mp hshown).2).plain
      rw [result_generate hshown, result_generate hhidden]
      change (hidden.code ns).result = _ at hresult
      change (hidden.code ns).output.lines = _ at hlines
      rw [hresult, hlines]
      cases (shown.code ns).result with
      | error e => exact .inl ⟨_, rfl, rfl⟩
      | ok u =>
          right
          refine ⟨_, _, congrArg Except.ok String.append_assoc,
            congrArg Except.ok String.append_assoc, ?_⟩
          exact Script.withoutComments_render hplain (by decide)

end Request

end BlockScript
