import BlockScript.Script.Line
/-!
# Records of calls in a script

The records of a call's beginning and end come in pairs around the line that performs the call:
`Paired` says so of all lines of a script.
-/

namespace BlockScript.Script

def Code.isRecord : Code → Bool
  | enterCall _ | leaveCall => true
  | _ => false

def Code.performsCall : Code → Bool
  | perform _ | bind _ (.call _) => true
  | _ => false

theorem Code.isRecord_of_performsCall {code : Code} (h : code.performsCall = true) :
    code.isRecord = false := by
  cases code with
  | enterCall _ | leaveCall => cases h
  | _ => rfl

/-- Between the records of a call's beginning and end stands the line that performs it and no other,
at the same depth. -/
structure Paired (ls : List Line) : Prop where
  enter : ∀ before depth n after, ls = before ++ ⟨depth, .enterCall n⟩ :: after →
    ∃ code rest, code.performsCall = true ∧ after = ⟨depth, code⟩ :: ⟨depth, .leaveCall⟩ :: rest
  leave : ∀ before depth after, ls = before ++ ⟨depth, .leaveCall⟩ :: after →
    ∃ earlier n code, code.performsCall = true ∧
      before = earlier ++ [⟨depth, .enterCall n⟩, ⟨depth, code⟩]

namespace Paired

variable {ls : List Line}

theorem nil : Paired [] :=
  ⟨fun before _ _ _ h => by simp at h, fun before _ _ h => by simp at h⟩

theorem line {l : Line} (h : Paired ls) (hl : l.code.isRecord = false) : Paired (l :: ls) := by
  constructor
  · intro before depth n after heq
    cases before with
    | nil =>
        obtain ⟨rfl, _⟩ := List.cons.inj heq
        cases hl
    | cons x before => exact h.enter before depth n after (List.cons.inj heq).2
  · intro before depth after heq
    cases before with
    | nil =>
        obtain ⟨rfl, _⟩ := List.cons.inj heq
        cases hl
    | cons x before =>
        obtain ⟨_, hrest⟩ := List.cons.inj heq
        obtain ⟨earlier, n, code, hcall, rfl⟩ := h.leave before depth after hrest
        exact ⟨x :: earlier, n, code, hcall, rfl⟩

theorem call {depth n : Nat} {code : Code} (h : Paired ls) (hcode : code.performsCall = true) :
    Paired (⟨depth, .enterCall n⟩ :: ⟨depth, code⟩ :: ⟨depth, .leaveCall⟩ :: ls) := by
  constructor
  · intro before depth' n' after heq
    match before with
    | [] =>
        obtain ⟨hl, rfl⟩ := List.cons.inj heq
        obtain ⟨rfl, _⟩ := Line.mk.inj hl
        exact ⟨code, ls, hcode, rfl⟩
    | [_] =>
        simp only [List.cons_append, List.nil_append, List.cons.injEq, Line.mk.injEq] at heq
        obtain ⟨_, ⟨_, rfl⟩, _⟩ := heq
        cases hcode
    | [_, _] => simp at heq
    | _ :: _ :: _ :: before =>
        simp only [List.cons_append, List.cons.injEq] at heq
        exact h.enter before depth' n' after heq.2.2.2
  · intro before depth' after heq
    match before with
    | [] => simp at heq
    | [_] =>
        simp only [List.cons_append, List.nil_append, List.cons.injEq, Line.mk.injEq] at heq
        obtain ⟨_, ⟨_, rfl⟩, _⟩ := heq
        cases hcode
    | [_, _] =>
        simp only [List.cons_append, List.nil_append, List.cons.injEq, Line.mk.injEq] at heq
        obtain ⟨rfl, rfl, ⟨rfl, _⟩, _⟩ := heq
        exact ⟨[], n, code, hcode, rfl⟩
    | _ :: _ :: _ :: before =>
        simp only [List.cons_append, List.cons.injEq] at heq
        obtain ⟨rfl, rfl, rfl, heq⟩ := heq
        obtain ⟨earlier, n', code', hcode', rfl⟩ := h.leave before depth' after heq
        exact ⟨_ :: _ :: _ :: earlier, n', code', hcode', rfl⟩

end Paired

end BlockScript.Script
