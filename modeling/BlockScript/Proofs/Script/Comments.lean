import BlockScript.Proofs.Script.ClearTexts
/-!
# Scripts without comments

`withoutComments` deletes the block comments of a text, each with the blank before it.  A script
without the notes of its lines is what is left of the script with them (`withoutComments_render`),
whatever the notes hold: a comment ends where it should, and no literal and no operator starts one.
-/

namespace BlockScript.Script

/-- The characters outside of comments.  A comment takes the blank before it with it. -/
def dropComments : List (Zone × Char) → List Char
  | (.code, ' ') :: (.comment, _) :: r => dropComments r
  | (.comment, _) :: r => dropComments r
  | (_, c) :: r => c :: dropComments r
  | [] => []

/-- The text without its block comments, each deleted together with the blank before it. -/
def withoutComments (s : List Char) : List Char :=
  dropComments (zones .code s)

/-- A sign that opens a comment is none in a literal, and a quote none in a comment. -/
example : withoutComments "let a = '/*'; /*it's*/\nf(a /**/);".toList =
    "let a = '/*';\nf(a);".toList := by
  decide

def StartsApart (z : List (Zone × Char)) : Prop :=
  ∀ c r, z ≠ (.comment, c) :: r

theorem dropComments_cons {x : Zone × Char} {z : List (Zone × Char)} (hx : x.1 ≠ .comment)
    (hz : StartsApart z) : dropComments (x :: z) = x.2 :: dropComments z := by
  obtain ⟨zone, c⟩ := x
  rw [dropComments]
  · intro d r heq
    exact absurd heq (hz d r)
  · rintro rfl
    exact hx rfl

theorem StartsApart.cons {x : Zone × Char} (hx : x.1 ≠ .comment) (z : List (Zone × Char)) :
    StartsApart (x :: z) := by
  rintro c r heq
  obtain ⟨rfl, _⟩ := List.cons.inj heq
  exact hx rfl

theorem StartsApart.append {z z' : List (Zone × Char)} (h : StartsApart z) (h' : StartsApart z') :
    StartsApart (z ++ z') := by
  cases z with
  | nil => exact h'
  | cons x z =>
      apply StartsApart.cons
      intro hx
      exact h x.2 z (by rw [← hx])

theorem dropComments_append {z rest : List (Zone × Char)} (hz : ∀ x ∈ z, x.1 ≠ .comment)
    (hrest : StartsApart rest) :
    dropComments (z ++ rest) = z.map Prod.snd ++ dropComments rest := by
  induction z with
  | nil => rfl
  | cons x z ih =>
      rw [List.forall_mem_cons] at hz
      have hafter : StartsApart (z ++ rest) := by
        cases z with
        | nil => exact hrest
        | cons y z => exact .cons (hz.2 y List.mem_cons_self) _
      rw [List.cons_append, dropComments_cons hz.1 hafter, ih hz.2]
      rfl

theorem dropComments_comment (s : List Char) (rest : List (Zone × Char)) :
    dropComments (s.map (fun c => (.comment, c)) ++ rest) = dropComments rest := by
  induction s with
  | nil => rfl
  | cons c s ih => simpa [dropComments] using ih

theorem zones_comment (s : List Char) :
    zones .code (Text.Comment.encode s) = (Text.Comment.encode s).map fun c => (.comment, c) := by
  have hbody := zones_breakEnds s []
  simp [Text.Comment.encode, zones, hbody]

theorem Quiet.zones_eq {s : List Char} (h : Quiet s) :
    zones .code s = s.map fun c => (.code, c) := by
  induction s with
  | nil => rfl
  | cons c s ih =>
      obtain ⟨hc, hs⟩ := List.forall_mem_cons.mp h
      have hopen : ∀ r, c :: s ≠ '/' :: '*' :: r := fun r heq => hc.2 (List.cons.inj heq).1
      rw [zones_cons_code hc.1 hopen, ih hs, List.map_cons]

/-! ## Lines without notes -/

def Param.hideNote (p : Param) : Param :=
  ⟨p.serial, none⟩

def Code.hideNotes : Code → Code
  | declare n initial _ => declare n initial none
  | openFunction n params _ => openFunction n (params.map Param.hideNote) none
  | code => code

/-- The line without the user's names that it shows. -/
def Line.hideNotes (l : Line) : Line :=
  ⟨l.depth, l.code.hideNotes⟩

/-! ## Pieces -/

/-- The text closes what it opens and starts with no comment; without its comments it is another
text, whatever follows. -/
structure Shows (s t : String) : Prop where
  closed : Closed s.toList
  startsApart : StartsApart (zones .code s.toList)
  drop : ∀ rest, StartsApart rest →
    dropComments (zones .code s.toList ++ rest) = t.toList ++ dropComments rest

namespace Shows

theorem append {s s' t t' : String} (h : Shows s t) (h' : Shows s' t') :
    Shows (s ++ s') (t ++ t') := by
  refine ⟨h.closed.concat h'.closed, ?_, fun rest hrest => ?_⟩
  · rw [String.toList_append, h.closed.zones_append]
    exact h.startsApart.append h'.startsApart
  · rw [String.toList_append, h.closed.zones_append, List.append_assoc,
      h.drop _ (h'.startsApart.append hrest), h'.drop rest hrest, String.toList_append,
      List.append_assoc]

theorem withoutComments_eq {s t : String} (h : Shows s t) :
    withoutComments s.toList = t.toList := by
  have hdrop := h.drop [] (by rintro c r ⟨⟩)
  simpa [withoutComments, dropComments] using hdrop

theorem of_ne_comment {s : String} (hclosed : Closed s.toList)
    (h : ∀ x ∈ zones .code s.toList, x.1 ≠ .comment) : Shows s s := by
  refine ⟨hclosed, ?_, fun rest hrest => ?_⟩
  · rintro c r heq
    exact h (.comment, c) (by rw [heq]; exact List.mem_cons_self) rfl
  · rw [dropComments_append h hrest, map_snd_zones]

theorem quiet {s : String} (h : Quiet s.toList) : Shows s s := by
  apply of_ne_comment h.closed
  rw [h.zones_eq]
  exact List.forall_mem_map.mpr fun _ _ => by rintro ⟨⟩

theorem name (a : Name) : Shows a.render a.render :=
  .quiet (quiet_name a)

/-- Signs that open a comment open none in a literal. -/
theorem quote (s : String) : Shows (Text.Quoted.quote s) (Text.Quoted.quote s) := by
  obtain ⟨hclosed, houtside⟩ := closed_encode s.toList
  rw [← String.toList_ofList (l := Text.Quoted.encode s.toList)] at hclosed houtside
  refine .of_ne_comment hclosed fun x hx hcomment => ?_
  have hmem : x ∈ outsideLiterals (Text.Quoted.quote s).toList :=
    List.mem_filter.mpr ⟨hx, by simp [hcomment]⟩
  have hquotes : ∀ y ∈ [(Zone.code, '\''), (Zone.code, '\'')], y.1 ≠ .comment := by decide
  exact hquotes x (houtside ▸ hmem) hcomment

theorem operand (a : Operand) : Shows a.render a.render := by
  cases a with
  | name n => exact .name n
  | number x =>
      apply Shows.quiet
      rw [Operand.render, String.toList_ofList]
      exact quiet_number x
  | text s => exact .quote s
  | lineFeed => exact .quote "\n"
  | bool b => cases b <;> exact .quiet (by decide)
  | emptyList | silence => exact .quiet (by decide)

/-- A sign for a division opens no comment. -/
theorem token (op : BinaryOp) : Shows op.token op.token := by
  apply of_ne_comment (closed_token op)
  cases op with
  | remainder | appendTexts => decide
  | arith op | logic op | compareNumbers op | compareTexts op => cases op <;> decide

theorem intercalate (sep : String) (hsep : Quiet sep.toList) {α : Type} {F G : α → String}
    (as : List α) (h : ∀ a ∈ as, Shows (F a) (G a)) :
    Shows (sep.intercalate (as.map F)) (sep.intercalate (as.map G)) := by
  induction as with
  | nil => exact .quiet (s := "") (by decide)
  | cons a as ih =>
      rw [List.forall_mem_cons] at h
      have hrest := ih h.2
      cases as with
      | nil => simpa using h.1
      | cons b as =>
          simp only [List.map_cons, String.intercalate_cons_cons] at hrest ⊢
          exact (h.1.append (.quiet hsep)).append hrest

theorem call {c : Call} (h : c.callee.Plain) : Shows c.render c.render := by
  have hcallee : Shows c.callee.render c.callee.render := by
    cases hc : c.callee with
    | library name =>
        rw [hc] at h
        exact .quiet h
    | user n => exact .name (.func n)
  have hargs := Shows.intercalate ", " (by decide) c.args fun a _ => .operand a
  exact ((hcallee.append (.quiet (by decide))).append hargs).append (.quiet (by decide))

theorem value {v : Value} (h : ∀ c, v = .call c → c.callee.Plain) :
    Shows v.render v.render := by
  cases v with
  | binary op left right =>
      exact ((operand left).append (token op)).append (operand right)
  | unary op x =>
      have hsign : Shows op.sign op.sign := by
        cases op <;> exact .quiet (by decide)
      have hblank : Quiet (if x.isNegative then " " else "").toList := by
        split_ifs <;> decide
      exact (hsign.append (.quiet hblank)).append (operand x)
  | call c => exact .call (h c rfl)

theorem between {a b : String} (n : Name) (ha : Quiet a.toList) (hb : Quiet b.toList) :
    Shows (a ++ n.render ++ b) (a ++ n.render ++ b) :=
  ((quiet ha).append (name n)).append (quiet hb)

theorem around {a b : String} (x : Operand) (ha : Quiet a.toList) (hb : Quiet b.toList) :
    Shows (a ++ x.render ++ b) (a ++ x.render ++ b) :=
  ((quiet ha).append (operand x)).append (quiet hb)

theorem note (note : Option String) : Shows (noteText note) "" := by
  cases note with
  | none => exact .quiet (s := "") (by decide)
  | some s =>
      have htext : (noteText (some s)).toList = ' ' :: Text.Comment.encode s.toList := by
        simp [noteText, Text.Comment.enclose]
      have hzones : zones .code (noteText (some s)).toList =
          (.code, ' ') :: (Text.Comment.encode s.toList).map fun c => (.comment, c) := by
        rw [htext, zones_cons_code (by decide) (by rintro r ⟨⟩), zones_comment]
      refine ⟨closed_note _, ?_, fun rest _ => ?_⟩
      · rw [hzones]
        exact .cons (by rintro ⟨⟩) _
      · rw [hzones, Text.Comment.encode, List.map_cons, List.cons_append, List.cons_append,
          dropComments, dropComments_comment]
        rfl

theorem params (params : List Param) :
    Shows (paramsText params) (paramsText (params.map Param.hideNote)) := by
  have hparams := Shows.intercalate ", " (by decide) (F := Param.render)
    (G := fun p => p.hideNote.render) params fun p _ => (name (.var p.serial)).append (note p.note)
  simpa [paramsText, Function.comp_def] using hparams

end Shows

/-! ## Lines -/

theorem shows_code {code : Code} (h : code.Plain) : Shows code.render code.hideNotes.render := by
  cases code with
  | declare n initial note =>
      have hname := Shows.between (a := "let ") (b := " = ") (.var n) (by decide) (by decide)
      have hstart := (hname.append (.operand initial)).append (.quiet (s := ";") (by decide))
      exact hstart.append (.note note)
  | openFunction n params note =>
      have hname := Shows.between (a := "function ") (b := "(") (.func n) (by decide) (by decide)
      have hhead := (hname.append (.params params)).append (.quiet (s := ") \x7b") (by decide))
      exact hhead.append (.note note)
  | bind n value =>
      have hvalue : Shows value.render value.render := by
        apply Shows.value
        rintro c rfl
        exact h
      have hname := Shows.between (a := "let ") (b := " = ") (.var n) (by decide) (by decide)
      exact (hname.append hvalue).append (.quiet (by decide))
  | bindLimit n count =>
      have hname := Shows.between (a := "const ") (b := " = Math.floor(") (.limit n) (by decide)
        (by decide)
      exact (hname.append (.operand count)).append (.quiet (by decide))
  | assign n value | addAssign n value =>
      have hname := Shows.name (.var n)
      exact ((hname.append (.quiet (by decide))).append (.operand value)).append
        (.quiet (by decide))
  | perform c => exact (Shows.call h).append (.quiet (by decide))
  | returnValue value =>
      cases value with
      | none => exact .quiet (by decide)
      | some x => exact .around x (by decide) (by decide)
  | openIf condition | openUnless condition =>
      exact .around condition (by decide) (by decide)
  | createLock n | unlock n => exact .between (.lock n) (by decide) (by decide)
  | ifNotFinite n | ifUndefined n => exact .between (.var n) (by decide) (by decide)
  | openTryLock n => exact .between (.lock n) (by decide) (by decide)
  | enterCall n =>
      have hserial : Shows (toString n) (toString n) := .quiet (by simpa using quiet_toDigits n)
      have hpush := Shows.append (.quiet (s := "_callStack.push(") (by decide)) hserial
      exact hpush.append (.quiet (by decide))
  | register n event =>
      have hname := Shows.between (a := "_addEvent(") (b := ", ") (.func n) (by decide) (by decide)
      exact (hname.append (.quote event)).append (.quiet (by decide))
  | openRepeat n =>
      have hname := Shows.name (.var n)
      have hstart := Shows.between (a := "for (let ") (b := " = 0; ") (.var n) (by decide)
        (by decide)
      have htest := ((hstart.append hname).append (.quiet (s := " < ") (by decide))).append
        (.name (.limit n))
      have hstep := (htest.append (.quiet (s := "; ++") (by decide))).append hname
      exact hstep.append (.quiet (by decide))
  | leaveCall | breakLoop | continueLoop | openElse | openWhile | openBlock | openTry
    | openFinally | close => exact .quiet (by decide)

theorem shows_line {l : Line} (h : l.code.Plain) : Shows l.render l.hideNotes.render := by
  have hindent : Shows (indent l.depth) (indent l.depth) := by
    apply Shows.quiet
    rw [indent, String.toList_ofList]
    exact quiet_replicate (by decide) l.depth
  exact (hindent.append (shows_code h)).append (.quiet (by decide))

theorem shows_render {ls : List Line} (h : ∀ l ∈ ls, l.code.Plain) :
    Shows (render ls) (render (ls.map Line.hideNotes)) := by
  induction ls with
  | nil => exact .quiet (s := "") (by decide)
  | cons l ls ih =>
      rw [List.forall_mem_cons] at h
      rw [List.map_cons, render_cons, render_cons]
      exact (shows_line h.1).append (ih h.2)

/-- Without its comments a script is the one that shows no notes, also in front of other code. -/
theorem withoutComments_render {ls : List Line} (h : ∀ l ∈ ls, l.code.Plain) {rest : String}
    (hrest : Quiet rest.toList) :
    withoutComments (render ls ++ rest).toList =
      (render (ls.map Line.hideNotes) ++ rest).toList :=
  ((shows_render h).append (.quiet hrest)).withoutComments_eq

end BlockScript.Script
