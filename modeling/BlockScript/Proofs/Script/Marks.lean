import BlockScript.Proofs.Script.Skeleton
/-!
# Reading marks

The mark of a line of a statement is read from the line's text: from its last character, its first
word, and what follows that word (`ofText_code`).  So lines with the same text have the same marks
(`marks_eq_of_render_eq`).
-/

namespace BlockScript.Script

/-! ## Reading marks -/

namespace Mark

/-- What a line opens that ends with an open brace. -/
def openingOf (s : List Char) : Opening :=
  if firstWord s = "if".toList then
    if [' ', '(', '!'].isPrefixOf (afterWord s) then .unless else .whenTrue
  else if firstWord s = "else".toList then .otherwise
  else if firstWord s = "while".toList then .enclosure .whileTrue
  else if firstWord s = "for".toList then .enclosure .repeatTimes
  else .enclosure .compound

/-- What a line does that opens and closes nothing. -/
def doneBy (s : List Char) : Mark :=
  if firstWord s = "break".toList then .leaf .breakLoop
  else if firstWord s = "continue".toList then .leaf .continueLoop
  else if firstWord s = "return".toList then
    .leaf (if afterWord s = [';'] then .returnNothing else .returnValue)
  else if firstWord s ∈ leadingWords then .silent
  else if isNumbered (firstWord s) then
    match afterWord s with
    | '(' :: _ => .leaf .call
    | ' ' :: '=' :: _ => .leaf .assign
    | _ => .leaf .addAssign
  else .leaf .builtin

def ofText (s : List Char) : Mark :=
  if s.getLast? = some ')' then .guard
  else if s.getLast? = some '\x7d' then .closes
  else if s.getLast? = some '\x7b' then .opens (openingOf s)
  else doneBy s

end Mark

theorem ofText_of_semicolon {s : List Char} (h : s.getLast? = some ';') :
    Mark.ofText s = Mark.doneBy s := by
  rw [Mark.ofText, h]
  rfl

theorem ofText_of_openBrace {s : List Char} (h : s.getLast? = some '\x7b') :
    Mark.ofText s = .opens (Mark.openingOf s) := by
  rw [Mark.ofText, h]
  rfl

/-- A word that has ended is not changed by what follows. -/
theorem words_append {a : List Char} (h : ∃ c ∈ a, isWordChar c = false) (b : List Char) :
    firstWord (a ++ b) = firstWord a ∧ afterWord (a ++ b) = afterWord a ++ b := by
  induction a with
  | nil =>
      obtain ⟨c, hc, _⟩ := h
      cases hc
  | cons x a ih =>
      simp only [firstWord, afterWord, List.cons_append, List.takeWhile_cons, List.dropWhile_cons]
        at ih ⊢
      cases hx : isWordChar x with
      | false => simp
      | true =>
          obtain ⟨c, hc, hend⟩ := h
          rcases List.mem_cons.mp hc with rfl | hc
          · rw [hx] at hend
            cases hend
          · obtain ⟨hfirst, hafter⟩ := ih ⟨c, hc, hend⟩
            simp [hfirst, hafter]

theorem isWordChar_of_mem_name {a : Name} {c : Char} (hc : c ∈ a.render.toList) :
    isWordChar c = true := by
  rw [Name.toList_render, List.mem_append] at hc
  rcases hc with hc | hc
  · have hstem : a.stem.all isWordChar = true := by
      cases a <;> rfl
    exact List.all_eq_true.mp hstem c hc
  · rw [isWordChar, Char.isAlphanum, Name.isDigit_of_mem_toDigits _ c hc, Bool.or_true]
    rfl

theorem words_name (a : Name) {c : Char} (hc : isWordChar c = false) (r : List Char) :
    firstWord (a.render.toList ++ c :: r) = a.render.toList ∧
      afterWord (a.render.toList ++ c :: r) = c :: r := by
  have hname : ∀ x ∈ a.render.toList, isWordChar x = true := fun _ => isWordChar_of_mem_name
  constructor
  · rw [firstWord, List.takeWhile_append_of_pos hname]
    simp [hc]
  · rw [afterWord, List.dropWhile_append_of_pos hname]
    simp [hc]

theorem not_mem_leadingWords {w : List Char} (h : isNumbered w = true) : w ∉ leadingWords := by
  have hall : ∀ x ∈ leadingWords, isNumbered x = false := by decide
  intro hw
  rw [hall w hw] at h
  cases h

/-- A line that starts with a word other than those that lead lines. -/
theorem doneBy_of_not_mem {s : List Char} (h : firstWord s ∉ leadingWords) :
    Mark.doneBy s =
      if isNumbered (firstWord s) then
        match afterWord s with
        | '(' :: _ => .leaf .call
        | ' ' :: '=' :: _ => .leaf .assign
        | _ => .leaf .addAssign
      else .leaf .builtin := by
  have hne : ∀ w ∈ leadingWords, firstWord s ≠ w := by
    rintro w hw rfl
    exact h hw
  rw [Mark.doneBy, if_neg (hne _ (by decide)), if_neg (hne _ (by decide)),
    if_neg (hne _ (by decide)), if_neg h]

theorem doneBy_name (a : Name) {c : Char} (hc : isWordChar c = false) (r : List Char) :
    Mark.doneBy (a.render.toList ++ c :: r) =
      match c :: r with
      | '(' :: _ => .leaf .call
      | ' ' :: '=' :: _ => .leaf .assign
      | _ => .leaf .addAssign := by
  obtain ⟨hfirst, hafter⟩ := words_name a hc r
  have hnumbered := a.isNumbered_render
  rw [doneBy_of_not_mem (by rw [hfirst]; exact not_mem_leadingWords hnumbered), hfirst, hafter,
    if_pos hnumbered]

theorem doneBy_silent {a : List Char} (h : ∃ c ∈ a, isWordChar c = false)
    (hword : firstWord a ∈ ["let".toList, "const".toList, "_callStack".toList]) (b : List Char) :
    Mark.doneBy (a ++ b) = .silent := by
  rw [Mark.doneBy, (words_append h b).1]
  simp only [List.mem_cons, List.not_mem_nil, or_false] at hword
  rcases hword with hword | hword | hword <;> rw [hword] <;> rfl

theorem openingOf_if {s : List Char} (h : s.head? ≠ some '!') :
    Mark.openingOf ("if (".toList ++ s) = .whenTrue := by
  obtain ⟨hfirst, hafter⟩ := words_append (a := "if (".toList) ⟨' ', by decide, by decide⟩ s
  have hrest : afterWord "if (".toList = [' ', '('] := by decide
  have hprefix : [' ', '(', '!'].isPrefixOf ([' ', '('] ++ s) = false := by
    cases s with
    | nil => rfl
    | cons c s =>
        have hc : ('!' == c) = false := by
          rw [beq_eq_false_iff_ne]
          rintro rfl
          exact h rfl
        simp [List.isPrefixOf, hc]
  rw [Mark.openingOf, hfirst, hafter, hrest, hprefix]
  rfl

/-- No operand starts with the sign of a negation. -/
theorem head?_operand (a : Operand) : a.render.toList.head? ≠ some '!' := by
  cases a with
  | name n => simp [Operand.render, head?_name]
  | number x =>
      intro hhead
      rw [Operand.render, String.toList_ofList] at hhead
      rcases isDigit_or_of_mem_number (List.mem_of_mem_head? hhead) with h | h | h
      · exact absurd h (by decide)
      · exact absurd h (by decide)
      · exact absurd h (by decide)
  | text s => simp [Operand.render, Text.Quoted.quote, Text.Quoted.encode]
  | bool b => cases b <;> decide
  | lineFeed | emptyList | silence => decide

theorem firstWord_append_cons {name : List Char} {c : Char} (hc : isWordChar c = false)
    (r : List Char) : firstWord (name ++ c :: r) = firstWord name := by
  induction name with
  | nil => simp [firstWord, hc]
  | cons x name ih =>
      simp only [firstWord] at ih ⊢
      rw [List.cons_append, List.takeWhile_cons, List.takeWhile_cons, ih]

/-- The mark of a line of code can be read from its text. -/
theorem ofText_code {code : Code} (h : code.Ordinary false) :
    Mark.ofText code.render.toList = code.mark := by
  have hlast := getLast?_code h.clean
  cases code with
  | createLock _ | unlock _ | register _ _ | openFunction _ _ _ | openTryLock _ | openTry
    | openFinally => exact h.elim
  | ifNotFinite _ | ifUndefined _ =>
      rw [Mark.ofText, hlast]
      rfl
  | breakLoop | continueLoop | openElse | openWhile | openBlock | leaveCall | close => decide
  | declare _ _ _ | bind _ _ =>
      rw [ofText_of_semicolon hlast]
      simp only [Code.render.eq_def, String.append_assoc, String.toList_append]
      exact doneBy_silent (a := "let ".toList) ⟨' ', by decide, by decide⟩ (by decide) _
  | bindLimit n count =>
      rw [ofText_of_semicolon hlast]
      simp only [Code.render.eq_def, String.append_assoc, String.toList_append]
      exact doneBy_silent (a := "const ".toList) ⟨' ', by decide, by decide⟩ (by decide) _
  | enterCall n =>
      rw [ofText_of_semicolon hlast]
      simp only [Code.render.eq_def, String.append_assoc, String.toList_append]
      exact doneBy_silent (a := "_callStack.push(".toList) ⟨'.', by decide, by decide⟩ (by decide) _
  | assign n value | addAssign n value =>
      rw [ofText_of_semicolon hlast]
      simp only [Code.render.eq_def, String.append_assoc, String.toList_append]
      exact doneBy_name (.var n) (c := ' ') rfl _
  | perform c =>
      rw [ofText_of_semicolon hlast]
      obtain ⟨callee, args⟩ := c
      simp only [Code.render.eq_def, Call.render, callText, String.append_assoc, String.toList_append]
      cases callee with
      | user n => exact doneBy_name (.func n) (c := '(') rfl _
      | library name =>
          obtain ⟨-, hword, hnumbered, -⟩ := h
          have hfirst : ∀ r, firstWord (name.toList ++ '(' :: r) = firstWord name.toList :=
            firstWord_append_cons rfl
          have hdone : ∀ r, Mark.doneBy (name.toList ++ '(' :: r) = .leaf .builtin := by
            intro r
            rw [doneBy_of_not_mem (by rw [hfirst]; exact hword), hfirst, hnumbered]
            rfl
          exact hdone _
  | returnValue value =>
      cases value with
      | none => decide
      | some a =>
          rw [ofText_of_semicolon hlast]
          simp only [Code.render.eq_def, String.append_assoc, String.toList_append]
          obtain ⟨hfirst, hafter⟩ := words_append (a := "return ".toList)
            ⟨' ', by decide, by decide⟩ (a.render.toList ++ ";".toList)
          rw [Mark.doneBy, hfirst, hafter]
          rfl
  | openIf a =>
      rw [ofText_of_openBrace hlast]
      simp only [Code.render.eq_def, String.append_assoc, String.toList_append]
      refine congrArg Mark.opens (openingOf_if fun hhead => ?_)
      cases hrender : a.render.toList with
      | nil => simp [hrender] at hhead
      | cons c r =>
          rw [hrender] at hhead
          exact head?_operand a (by rw [hrender]; exact hhead)
  | openUnless a =>
      rw [ofText_of_openBrace hlast]
      simp only [Code.render.eq_def, String.append_assoc, String.toList_append]
      obtain ⟨hfirst, hafter⟩ := words_append (a := "if (!".toList) ⟨' ', by decide, by decide⟩
        (a.render.toList ++ ") \x7b".toList)
      rw [Mark.openingOf, hfirst, hafter]
      rfl
  | openRepeat n =>
      rw [ofText_of_openBrace hlast]
      simp only [Code.render.eq_def, String.append_assoc, String.toList_append]
      rw [Mark.openingOf, (words_append (a := "for (let ".toList) ⟨' ', by decide, by decide⟩ _).1]
      rfl

/-- Lines with the same text have the same marks. -/
theorem marks_eq_of_render_eq {a b : List Line} (ha : ∀ l ∈ a, l.code.Ordinary false)
    (hb : ∀ l ∈ b, l.code.Ordinary false) (h : render a = render b) :
    a.map (fun l => l.code.mark) = b.map (fun l => l.code.mark) := by
  have hread : ∀ {ls : List Line}, (∀ l ∈ ls, l.code.Ordinary false) →
      ls.map (fun l => l.code.mark) =
        (ls.map Line.text).map fun s => Mark.ofText (afterTabs s) := by
    intro ls hls
    rw [List.map_map]
    refine List.map_congr_left fun l hl => ?_
    rw [Function.comp_apply, afterTabs_text (hls l hl).clean, ofText_code (hls l hl)]
  have hsplit : a.map Line.text ++ [[]] = b.map Line.text ++ [[]] := by
    rw [← splitOnP_render fun l hl => (ha l hl).clean,
      ← splitOnP_render fun l hl => (hb l hl).clean, h]
  rw [hread ha, hread hb, List.append_cancel_right hsplit]

end BlockScript.Script
