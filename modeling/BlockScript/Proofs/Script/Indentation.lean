import BlockScript.Proofs.Script.ClearTexts
/-!
# Indentation

Reading a text line by line keeps a position: how many blocks are open, and whether the line before
was a condition without braces (`Position.next?`).  A text is `WellIndented` if each of its lines
has as many tabs as its position asks for, and it ends where it began.  What lines of code mean for
the position is `Reads`; a script whose lines lead back to the start is well indented
(`wellIndented_render`).
-/

namespace BlockScript.Script

open Text.Quoted (isLineEnd)

/-! ## Positions -/

structure Position where
  /-- The number of open blocks. -/
  level : Nat
  /-- The line before was a condition without braces. -/
  hangs : Bool
deriving DecidableEq, Repr

def tabs (line : List Char) : Nat :=
  (line.takeWhile (· == '\t')).length

def afterTabs (line : List Char) : List Char :=
  line.dropWhile (· == '\t')

def closes (line : List Char) : Bool :=
  afterTabs line == ['\x7d']

def opens (line : List Char) : Bool :=
  line.getLast? == some '\x7b'

def guards (line : List Char) : Bool :=
  "if (".toList.isPrefixOf (afterTabs line) && line.getLast? == some ')'

namespace Position

/-- Inside one block, at the start of a statement. -/
def outermost : Position := ⟨1, false⟩

/-- The position after a line, if the line has the tabs that its position asks for.  A line that
closes a block stands outside of it, and no line closes the outermost one. -/
def next? (p : Position) (line : List Char) : Option Position :=
  let level := if closes line then p.level - 1 else p.level
  if 1 ≤ level ∧ tabs line = level + (if p.hangs then 1 else 0) then
    some ⟨if opens line then level + 1 else level, guards line⟩
  else none

end Position

/-- The text consists of ended lines, their tabs show how blocks are nested, and all blocks but
the outermost are closed. -/
def WellIndented (s : List Char) : Prop :=
  (s.splitOnP isLineEnd).getLast? = some [] ∧
    (s.splitOnP isLineEnd).dropLast.foldlM Position.next? .outermost = some .outermost

instance (s : List Char) : Decidable (WellIndented s) :=
  inferInstanceAs (Decidable (_ ∧ _))

example : WellIndented "\tif (_v1) \x7b\n\t\treturn;\n\t\x7d\n".toList := by decide

example : ¬ WellIndented "\tif (_v1) \x7b\n\treturn;\n\t\x7d\n".toList := by decide

/-! ## Texts within a line -/

def OneLine (s : String) : Prop :=
  ∀ c ∈ s.toList, isLineEnd c = false

instance (s : String) : Decidable (OneLine s) :=
  List.decidableBAll (fun c => isLineEnd c = false) s.toList

theorem oneLine_append {s t : String} : OneLine (s ++ t) ↔ OneLine s ∧ OneLine t := by
  rw [OneLine, String.toList_append]
  exact List.forall_mem_append

/-- A sort of characters that ends no line holds none of the four that do. -/
theorem isLineEnd_eq_false {P : Char → Prop} {c : Char} (h : P c)
    (hends : ¬ P '\n' ∧ ¬ P '\r' ∧ ¬ P '\u2028' ∧ ¬ P '\u2029') : isLineEnd c = false := by
  obtain ⟨hfeed, hreturn, hline, hparagraph⟩ := hends
  cases hend : isLineEnd c with
  | false => rfl
  | true =>
      simp only [isLineEnd, Bool.or_eq_true, beq_iff_eq] at hend
      rcases hend with ((rfl | rfl) | rfl) | rfl <;> contradiction

theorem isLineEnd_of_isDigit {c : Char} (h : c.isDigit = true) : isLineEnd c = false :=
  isLineEnd_eq_false (P := fun c => c.isDigit = true) h (by decide)

theorem oneLine_toString (n : Nat) : OneLine (toString n) := by
  intro c hc
  have hdigit : c ∈ Nat.toDigits 10 n := by simpa using hc
  exact isLineEnd_of_isDigit (Name.isDigit_of_mem_toDigits n c hdigit)

theorem oneLine_name (a : Name) : OneLine a.render := by
  cases a <;> exact oneLine_append.mpr ⟨by decide, oneLine_toString _⟩

theorem oneLine_quote (s : String) : OneLine (Text.Quoted.quote s) := by
  intro c hc
  rw [Text.Quoted.quote, String.toList_ofList, Text.Quoted.encode, List.mem_cons,
    List.mem_append] at hc
  rcases hc with rfl | hc | hc
  · decide
  · exact isLineEnd_of_mem_escapeAll hc
  · obtain rfl := List.mem_singleton.mp hc
    decide

theorem oneLine_operand (a : Operand) : OneLine a.render := by
  cases a with
  | name n => exact oneLine_name n
  | number x =>
      intro c hc
      rw [Operand.render, String.toList_ofList] at hc
      rcases isDigit_or_of_mem_number hc with hc | rfl | rfl
      · exact isLineEnd_of_isDigit hc
      · decide
      · decide
  | text s => exact oneLine_quote s
  | lineFeed | emptyList | silence => decide
  | bool b => cases b <;> decide

theorem oneLine_intercalate {sep : String} (hsep : OneLine sep) {pieces : List String}
    (h : ∀ s ∈ pieces, OneLine s) : OneLine (sep.intercalate pieces) := by
  induction pieces with
  | nil => exact fun c hc => absurd hc List.not_mem_nil
  | cons s pieces ih =>
      rw [List.forall_mem_cons] at h
      cases pieces with
      | nil => simpa using h.1
      | cons t pieces =>
          rw [String.intercalate_cons_cons, oneLine_append, oneLine_append]
          exact ⟨⟨h.1, hsep⟩, ih h.2⟩

/-! ## Code that shows no name of the user -/

def Callee.Proper : Callee → Prop
  | library name => ∀ c ∈ name.toList, isWordChar c ∨ c = '.'
  | user _ => True

instance : DecidablePred Callee.Proper
  | .library name => List.decidableBAll (fun c => isWordChar c ∨ c = '.') name.toList
  | .user _ => .isTrue trivial

/-- The code holds no text of the user but in literals. -/
def Code.Clean : Code → Prop
  | declare _ _ note => note = none
  | openFunction _ params note => (∀ p ∈ params, p.note = none) ∧ note = none
  | bind _ (.call c) => c.callee.Proper
  | perform c => c.callee.Proper
  | _ => True

theorem isLineEnd_of_proper {c : Char} (h : isWordChar c ∨ c = '.') : isLineEnd c = false :=
  isLineEnd_eq_false (P := fun c => isWordChar c ∨ c = '.') h (by decide)

theorem oneLine_callee {callee : Callee} (h : callee.Proper) : OneLine callee.render := by
  cases callee with
  | library name => exact fun c hc => isLineEnd_of_proper (h c hc)
  | user n => exact oneLine_name _

theorem oneLine_call {c : Call} (h : c.callee.Proper) : OneLine c.render := by
  have hargs : OneLine (", ".intercalate (c.args.map Operand.render)) := by
    refine oneLine_intercalate (by decide) fun s hs => ?_
    obtain ⟨a, _, rfl⟩ := List.mem_map.mp hs
    exact oneLine_operand a
  have hcallee := oneLine_callee h
  simp only [Call.render, callText, oneLine_append, hcallee, hargs, true_and, and_true]
  decide

theorem oneLine_value {v : Value} (h : ∀ c, v = .call c → c.callee.Proper) :
    OneLine v.render := by
  cases v with
  | binary op left right =>
      have htoken : OneLine op.token := by
        cases op with
        | arith op | logic op | compareNumbers op | compareTexts op => cases op <;> decide
        | remainder | appendTexts => decide
      exact oneLine_append.mpr
        ⟨oneLine_append.mpr ⟨oneLine_operand left, htoken⟩, oneLine_operand right⟩
  | unary op operand =>
      have hsign : OneLine op.sign := by
        cases op <;> decide
      have hblank : OneLine (if operand.isNegative then " " else "") := by
        split_ifs <;> decide
      exact oneLine_append.mpr ⟨oneLine_append.mpr ⟨hsign, hblank⟩, oneLine_operand operand⟩
  | call c => exact oneLine_call (h c rfl)

theorem oneLine_params {params : List Param} (h : ∀ p ∈ params, p.note = none) :
    OneLine (paramsText params) := by
  refine oneLine_intercalate (by decide) fun s hs => ?_
  obtain ⟨p, hp, rfl⟩ := List.mem_map.mp hs
  rw [Param.render, h p hp, oneLine_append]
  exact ⟨oneLine_name _, by decide⟩

theorem oneLine_code {code : Code} (h : code.Clean) : OneLine code.render := by
  unfold Code.render
  have hname := oneLine_name
  have hoperand := oneLine_operand
  cases code with
  | declare n initial note =>
      obtain rfl : note = none := h
      simp only [oneLine_append, hname, hoperand, and_true]
      decide
  | bind n value =>
      have hvalue : OneLine value.render := by
        apply oneLine_value
        rintro c rfl
        exact h
      simp only [oneLine_append, hname, hvalue, and_true]
      decide
  | perform c => exact oneLine_append.mpr ⟨oneLine_call h, by decide⟩
  | openFunction n params note =>
      obtain ⟨hparams, rfl⟩ := h
      simp only [oneLine_append, hname, oneLine_params hparams, and_true]
      decide
  | register n event =>
      simp only [oneLine_append, hname, oneLine_quote, and_true]
      decide
  | enterCall n =>
      simp only [oneLine_append, oneLine_toString, and_true]
      decide
  | returnValue value =>
      cases value with
      | none => decide
      | some x =>
          simp only [oneLine_append, hoperand, and_true]
          decide
  | bindLimit _ _ | assign _ _ | addAssign _ _ | openIf _ | openUnless _ =>
      simp only [oneLine_append, hname, hoperand, true_and, and_true]
      decide
  | createLock _ | ifNotFinite _ | ifUndefined _ | unlock _ | openRepeat _ | openTryLock _ =>
      simp only [oneLine_append, hname, and_true]
      decide
  | leaveCall | breakLoop | continueLoop | openElse | openWhile | openBlock | openTry | openFinally
    | close => decide

/-! ## Where code leads -/

def Code.lastChar : Code → Char
  | openIf _ | openUnless _ | openElse | openWhile | openRepeat _ | openBlock | openFunction _ _ _
  | openTryLock _ | openTry | openFinally => '\x7b'
  | close => '\x7d'
  | ifNotFinite _ | ifUndefined _ => ')'
  | _ => ';'

theorem Code.lastChar_eq_iff {code : Code} : code.lastChar = '\x7d' ↔ code = .close := by
  cases code <;> simp [lastChar]

theorem Code.exists_of_lastChar_eq {code : Code} (h : code.lastChar = ')') :
    ∃ n, code = .ifNotFinite n ∨ code = .ifUndefined n := by
  cases code <;> simp_all [lastChar]

theorem getLast?_append_piece {s t : String} {c : Char} (h : t.toList.getLast? = some c) :
    (s ++ t).toList.getLast? = some c := by
  rw [String.toList_append, List.getLast?_append, h]
  rfl

theorem getLast?_code {code : Code} (h : code.Clean) :
    code.render.toList.getLast? = some code.lastChar := by
  unfold Code.render
  cases code with
  | declare n initial note =>
      obtain rfl : note = none := h
      simp only [noteText, String.append_empty]
      exact getLast?_append_piece rfl
  | openFunction n params note =>
      obtain ⟨_, rfl⟩ := h
      simp only [noteText, String.append_empty]
      exact getLast?_append_piece rfl
  | returnValue value =>
      cases value with
      | none => decide
      | some x => exact getLast?_append_piece rfl
  | bind _ _ | createLock _ | bindLimit _ _ | assign _ _ | addAssign _ _ | perform _ | enterCall _
    | ifNotFinite _ | ifUndefined _ | unlock _ | register _ _ | openIf _ | openUnless _
    | openRepeat _ | openTryLock _ => exact getLast?_append_piece rfl
  | leaveCall | breakLoop | continueLoop | openElse | openWhile | openBlock | openTry | openFinally
    | close => decide

theorem head?_name (a : Name) : a.render.toList.head? = some '_' := by
  rw [Name.toList_render]
  cases a <;> rfl

theorem head?_call {c : Call} (h : c.callee.Proper) : c.render.toList.head? ≠ some '\t' := by
  cases hc : c.callee with
  | user n => simp [Call.render, callText, hc, Callee.render, List.head?_append, head?_name]
  | library name =>
      rw [hc] at h
      intro htab
      cases hname : name.toList with
      | nil => simp [Call.render, callText, hc, Callee.render, hname] at htab
      | cons x r =>
          have hx : x = '\t' := by
            simpa [Call.render, callText, hc, Callee.render, hname] using htab
          have hproper := h x (by rw [hname]; exact List.mem_cons_self)
          subst hx
          exact absurd hproper (by decide)

theorem head?_code {code : Code} (h : code.Clean) : code.render.toList.head? ≠ some '\t' := by
  unfold Code.render
  cases code with
  | perform c =>
      have hcall := head?_call h
      cases hc : c.render.toList with
      | nil => simp [hc]
      | cons x r => simpa [hc] using hcall
  | returnValue value => cases value <;> simp
  | assign n value | addAssign n value => simp [List.head?_append, head?_name]
  | declare _ _ _ | bind _ _ | createLock _ | bindLimit _ _ | enterCall _ | leaveCall
    | ifNotFinite _ | ifUndefined _ | breakLoop | continueLoop | unlock _ | register _ _ | openIf _
    | openUnless _ | openElse | openWhile | openRepeat _ | openBlock | openFunction _ _ _
    | openTryLock _ | openTry | openFinally | close => simp

/-! ## Lines -/

theorem isTab_of_mem_replicate {c : Char} {d : Nat} (h : c ∈ List.replicate d '\t') :
    (c == '\t') = true := by
  simp [(List.mem_replicate.mp h).2]

def Line.text (l : Line) : List Char :=
  List.replicate l.depth '\t' ++ l.code.render.toList

section

variable {l : Line} (h : l.code.Clean)
include h

theorem takeWhile_code : l.code.render.toList.takeWhile (· == '\t') = [] := by
  cases hcode : l.code.render.toList with
  | nil => rfl
  | cons c r =>
      have hc : c ≠ '\t' := by
        rintro rfl
        exact head?_code h (by rw [hcode]; rfl)
      simp [hc]

theorem tabs_text : tabs l.text = l.depth := by
  rw [tabs, Line.text, List.takeWhile_append_of_pos fun _ => isTab_of_mem_replicate, takeWhile_code h, List.append_nil,
    List.length_replicate]

theorem afterTabs_text : afterTabs l.text = l.code.render.toList := by
  have hsplit := List.takeWhile_append_dropWhile (p := (· == '\t')) (l := l.code.render.toList)
  rw [takeWhile_code h, List.nil_append] at hsplit
  rw [afterTabs, Line.text, List.dropWhile_append_of_pos fun _ => isTab_of_mem_replicate, hsplit]

theorem getLast?_text : l.text.getLast? = some l.code.lastChar := by
  rw [Line.text, List.getLast?_append, getLast?_code h]
  rfl

theorem closes_text : closes l.text = (l.code.lastChar == '\x7d') := by
  rw [closes, afterTabs_text h]
  cases hlast : l.code.lastChar == '\x7d' with
  | false =>
      rw [Bool.eq_false_iff, ne_eq, beq_iff_eq]
      intro hcode
      have hget := getLast?_code h
      rw [hcode] at hget
      rw [← Option.some.inj hget] at hlast
      exact absurd hlast (by decide)
  | true =>
      rw [Code.lastChar_eq_iff.mp (beq_iff_eq.mp hlast)]
      rfl

theorem opens_text : opens l.text = (l.code.lastChar == '\x7b') := by
  rw [opens, getLast?_text h]
  rfl

theorem guards_text : guards l.text = (l.code.lastChar == ')') := by
  rw [guards, afterTabs_text h, getLast?_text h]
  cases hlast : l.code.lastChar == ')' with
  | false =>
      have hne : ¬(some l.code.lastChar == some ')') = true := by
        simpa using hlast
      rw [Bool.and_eq_false_iff]
      exact .inr (Bool.eq_false_iff.mpr hne)
  | true =>
      rw [beq_iff_eq] at hlast
      rw [hlast]
      obtain ⟨n, hcode | hcode⟩ := Code.exists_of_lastChar_eq hlast <;> rw [hcode] <;>
        simp [Code.render.eq_def]

theorem next?_text (p : Position) :
    p.next? l.text =
      let level := if l.code.lastChar = '\x7d' then p.level - 1 else p.level
      if 1 ≤ level ∧ l.depth = level + (if p.hangs then 1 else 0) then
        some ⟨if l.code.lastChar = '\x7b' then level + 1 else level, l.code.lastChar == ')'⟩
      else none := by
  simp only [Position.next?, closes_text h, tabs_text h, opens_text h, guards_text h, beq_iff_eq]

end

/-! ## Runs of lines -/

/-- The lines hold no text of the user but in literals, and lead from one position to another. -/
structure Reads (p : Position) (ls : List Line) (q : Position) : Prop where
  clean : ∀ l ∈ ls, l.code.Clean
  leads : (ls.map Line.text).foldlM Position.next? p = some q

namespace Reads

variable {p q r : Position} {a b : List Line} {d : Nat} {code : Code}

theorem nil (p : Position) : Reads p [] p :=
  ⟨List.forall_mem_nil _, rfl⟩

theorem append (h : Reads p a q) (h' : Reads q b r) : Reads p (a ++ b) r := by
  refine ⟨List.forall_mem_append.mpr ⟨h.clean, h'.clean⟩, ?_⟩
  rw [List.map_append, List.foldlM_append, h.leads]
  exact h'.leads

theorem single {l : Line} (hclean : l.code.Clean) (hnext : p.next? l.text = some q) :
    Reads p [l] q := by
  refine ⟨List.forall_mem_singleton.mpr hclean, ?_⟩
  rw [List.map_singleton, List.foldlM_cons, hnext]
  rfl

theorem stay (hd : 1 ≤ d) (hclean : code.Clean) (hlast : code.lastChar = ';') :
    Reads ⟨d, false⟩ [⟨d, code⟩] ⟨d, false⟩ :=
  .single hclean (by simp [next?_text (l := ⟨d, code⟩) hclean, hlast, hd])

theorem guard (hd : 1 ≤ d) (hclean : code.Clean) (hlast : code.lastChar = ')') :
    Reads ⟨d, false⟩ [⟨d, code⟩] ⟨d, true⟩ :=
  .single hclean (by simp [next?_text (l := ⟨d, code⟩) hclean, hlast, hd])

theorem under (hd : 1 ≤ d) (hclean : code.Clean) (hlast : code.lastChar = ';') :
    Reads ⟨d, true⟩ [⟨d + 1, code⟩] ⟨d, false⟩ :=
  .single hclean (by simp [next?_text (l := ⟨d + 1, code⟩) hclean, hlast, hd])

theorem opening (hd : 1 ≤ d) (hclean : code.Clean) (hlast : code.lastChar = '\x7b') :
    Reads ⟨d, false⟩ [⟨d, code⟩] ⟨d + 1, false⟩ :=
  .single hclean (by simp [next?_text (l := ⟨d, code⟩) hclean, hlast, hd])

theorem closing (hd : 1 ≤ d) : Reads ⟨d + 1, false⟩ [⟨d, .close⟩] ⟨d, false⟩ := by
  have hclean : Code.close.Clean := trivial
  exact .single hclean (by simp [next?_text (l := ⟨d, .close⟩) hclean, Code.lastChar, hd])

end Reads

theorem isLineEnd_of_mem_text {l : Line} (h : l.code.Clean) {c : Char} (hc : c ∈ l.text) :
    isLineEnd c = false := by
  rcases List.mem_append.mp hc with hc | hc
  · rw [(List.mem_replicate.mp hc).2]
    decide
  · exact oneLine_code h c hc

theorem toList_render_cons (l : Line) (ls : List Line) :
    (render (l :: ls)).toList = l.text ++ '\n' :: (render ls).toList := by
  simp [Line.render, indent, Line.text]

/-- Lines end with line feeds, and hold no other line end. -/
theorem eq_of_mem_render {ls : List Line} (h : ∀ l ∈ ls, l.code.Clean) {c : Char}
    (hc : c ∈ (render ls).toList) (hend : isLineEnd c = true) : c = '\n' := by
  induction ls with
  | nil => simp at hc
  | cons l ls ih =>
      rw [List.forall_mem_cons] at h
      rw [toList_render_cons, List.mem_append, List.mem_cons] at hc
      rcases hc with hc | rfl | hc
      · exact absurd ((isLineEnd_of_mem_text h.1 hc).symm.trans hend) Bool.false_ne_true
      · rfl
      · exact ih h.2 hc

theorem splitOnP_render {ls : List Line} (h : ∀ l ∈ ls, l.code.Clean) :
    (render ls).toList.splitOnP isLineEnd = ls.map Line.text ++ [[]] := by
  induction ls with
  | nil => rfl
  | cons l ls ih =>
      rw [List.forall_mem_cons] at h
      have hline : ∀ c ∈ l.text, isLineEnd c = false := fun c hc => isLineEnd_of_mem_text h.1 hc
      rw [toList_render_cons, List.splitOnP_append_cons _ _ (by decide), ih h.2,
        List.splitOnP_eq_singleton hline]
      rfl

/-- Lines that lead back to where they start are the text of a well indented script. -/
theorem wellIndented_render {ls : List Line} (h : Reads .outermost ls .outermost) :
    WellIndented (render ls).toList := by
  rw [WellIndented, splitOnP_render h.clean, List.getLast?_concat, List.dropLast_concat]
  exact ⟨rfl, h.leads⟩

end BlockScript.Script
