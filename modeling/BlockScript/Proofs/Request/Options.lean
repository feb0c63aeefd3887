import BlockScript.Proofs.Emission.Options
import BlockScript.Proofs.Request.Faults
/-!
# Programs under other options

Options and libraries decide neither whether a request is answered nor the fault if it is not
(`generate_under`).  The choice of the host changes nothing but the library's text, which ends a
line, so that the program behind it starts one.
-/

namespace BlockScript

namespace Library

theorem getLast?_endLine (s : String) : (endLine s).toList.getLast? = some '\n' := by
  unfold endLine
  split
  · assumption
  · simp

/-- A library ends its last line, whatever its parts end with. -/
theorem getLast?_source (l : Library) (isLocal : Bool) :
    (l.source isLocal).toList.getLast? = some '\n' := by
  have hhost := getLast?_endLine (if isLocal then l.localHost else l.remoteHost)
  rw [source, String.toList_append, List.getLast?_append, hhost]
  rfl

end Library

open Emission (Context LineRelation Matches Parallel)

namespace Emission.Context

variable {c : Context} {o : Options}

theorem varies_same (h : { o with isLocal := c.options.isLocal } = c.options) :
    Varies .same c o := by
  obtain ⟨_, _, ⟨_, _, _, _⟩⟩ := c
  obtain ⟨_, _, _, _⟩ := o
  injection h with _ hdebug hguards hcomments
  subst hdebug hguards hcomments
  exact
    { isDebug := id
      steady := fun _ _ => rfl
      call := fun _ _ _ _ => rfl
      operation := fun _ _ _ _ _ => rfl
      declaration := fun _ _ _ _ => rfl
      function := fun _ _ _ _ _ => rfl }

end Emission.Context

namespace Request

variable {r : Request} {ns : Numbering} {o : Options}

def under (r : Request) (o : Options) : Request :=
  { r with options := o }

theorem numbering_under (r : Request) (o : Options) : (r.under o).numbering = r.numbering := rfl

/-- The code of a program under two options ends alike, and its lines are related wherever those are
that options decide on. -/
theorem matches_code {R : LineRelation} (hvaries : (r.context ns).Varies R o)
    (hns : r.numbering = .ok ns) : Matches R (r.code ns) ((r.under o).code ns) := by
  have hcode : Parallel R (r.code ns) ((r.under o).code ns) := by
    refine (Context.parallel_globalDeclarations hvaries bodyDepth r.roots).bind fun _ => ?_
    refine (Context.parallel_definitions hvaries bodyDepth r.roots).bind fun _ => ?_
    refine (Context.parallel_handlers hvaries bodyDepth r.roots).bind fun _ => ?_
    exact Context.parallel_statements hvaries bodyDepth r.run
  have hregular := regular_of_ofProgram (r := r.under o) (numbering_eq_ok_iff.mp hns).2
  rcases hcode with ⟨id, hmissing⟩ | hcode
  · exact (hregular.fault _ hmissing).elim
  · exact hcode

theorem result_code_under (hns : r.numbering = .ok ns) (o : Options) :
    ((r.under o).code ns).result = (r.code ns).result := by
  -- Both are compared with options under which calls are recorded.
  have hleft := matches_code (r := r) (o := { o with isDebug := true })
    (Context.varies_any fun _ => rfl) hns
  have hright := matches_code (r := r.under o) (o := { o with isDebug := true })
    (Context.varies_any fun _ => rfl) hns
  exact hright.result.symm.trans hleft.result

/-- Two requests that differ in their options, each with a library of its own, fail with the same
error or are both answered.  The program in an answer starts behind the library, on a line of its
own, and it is the same if the options differ in the choice of the host alone. -/
theorem generate_under (r : Request) (o : Options) (library library' : Library) :
    (∃ e, (r.generate library).result = .error e ∧
      ((r.under o).generate library').result = .error e) ∨
    ∃ source source' part part',
      source = library.source r.options.isLocal ∧ source' = library'.source o.isLocal ∧
      (r.generate library).result = .ok ("(function()\x7b\n" ++ source ++ part) ∧
      ((r.under o).generate library').result = .ok ("(function()\x7b\n" ++ source' ++ part') ∧
      source.toList.getLast? = some '\n' ∧ source'.toList.getLast? = some '\n' ∧
      ({ o with isLocal := r.options.isLocal } = r.options → part = part') := by
  have hnumbering := numbering_under r o
  cases hns : r.numbering with
  | error e =>
      exact .inl ⟨e, result_generate_of_error hns, result_generate_of_error (hnumbering.trans hns)⟩
  | ok ns =>
      rw [result_generate hns, result_generate (hnumbering.trans hns), result_code_under hns o]
      cases (r.code ns).result with
      | error e => exact .inl ⟨_, rfl, rfl⟩
      | ok u =>
          right
          refine ⟨_, _, _, _, rfl, rfl, congrArg Except.ok String.append_assoc,
            congrArg Except.ok String.append_assoc, Library.getLast?_source _ _,
            Library.getLast?_source _ _, fun hoptions => ?_⟩
          have hlines := (matches_code (Context.varies_same hoptions) hns).lines
          have hsame : (r.code ns).output.lines = ((r.under o).code ns).output.lines := hlines
          rw [hsame]

end Request

end BlockScript
