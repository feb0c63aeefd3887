import BlockScript.Proofs.Script.Zones
/-!
# Scripts without the user's texts

`clearTexts` empties every text that a line holds.  The line written before and after are alike
(`alike_line`), if it calls only functions of the library whose names are `Quiet`; so are all of a
script's lines (`alike_render`).
-/

namespace BlockScript.Script

def Operand.clearTexts : Operand → Operand
  | text _ => text ""
  | a => a

def Call.clearTexts (c : Call) : Call :=
  ⟨c.callee, c.args.map Operand.clearTexts⟩

def Value.clearTexts : Value → Value
  | binary op left right => binary op left.clearTexts right.clearTexts
  | unary op operand => unary op operand.clearTexts
  | call c => call c.clearTexts

def Code.clearTexts : Code → Code
  | declare n initial note => declare n initial.clearTexts note
  | bind n value => bind n value.clearTexts
  | bindLimit n count => bindLimit n count.clearTexts
  | assign n value => assign n value.clearTexts
  | addAssign n value => addAssign n value.clearTexts
  | perform c => perform c.clearTexts
  | returnValue value => returnValue (value.map Operand.clearTexts)
  | openIf condition => openIf condition.clearTexts
  | openUnless condition => openUnless condition.clearTexts
  | code => code

def Line.clearTexts (l : Line) : Line :=
  ⟨l.depth, l.code.clearTexts⟩

/-- The name of a library function needs no reading. -/
def Callee.Plain : Callee → Prop
  | library name => Quiet name.toList
  | user _ => True

def Code.Plain : Code → Prop
  | bind _ (.call c) => c.callee.Plain
  | perform c => c.callee.Plain
  | _ => True

/-! ## Pieces -/

theorem Alike.concat {a b c d : String} (h : Alike a.toList b.toList)
    (h' : Alike c.toList d.toList) : Alike (a ++ c).toList (b ++ d).toList := by
  rw [String.toList_append, String.toList_append]
  exact h.append h'

theorem Closed.concat {a b : String} (h : Closed a.toList) (h' : Closed b.toList) :
    Closed (a ++ b).toList := by
  rw [String.toList_append]
  exact h.append h'

theorem Alike.fixed {s : String} (h : Quiet s.toList) : Alike s.toList s.toList :=
  .refl h.closed

theorem Quiet.append {s t : List Char} (hs : Quiet s) (ht : Quiet t) : Quiet (s ++ t) := by
  intro c hc
  rcases List.mem_append.mp hc with hc | hc
  · exact hs c hc
  · exact ht c hc

theorem quiet_replicate {c : Char} (hc : c ≠ '\'' ∧ c ≠ '/') (n : Nat) :
    Quiet (List.replicate n c) := by
  intro x hx
  rw [(List.mem_replicate.mp hx).2]
  exact hc

theorem quiet_of_isDigit {s : List Char} (h : ∀ c ∈ s, c.isDigit = true) : Quiet s := by
  intro c hc
  constructor <;> rintro rfl <;> exact absurd (h _ hc) (by decide)

theorem quiet_toDigits (n : Nat) : Quiet (Nat.toDigits 10 n) :=
  quiet_of_isDigit (Name.isDigit_of_mem_toDigits n)

theorem quiet_name (a : Name) : Quiet a.render.toList := by
  rw [Name.toList_render]
  have hstem : a.stem.all (fun c => c ≠ '\'' ∧ c ≠ '/') = true := by
    cases a <;> rfl
  have hquiet : Quiet a.stem := fun c hc => by simpa using List.all_eq_true.mp hstem c hc
  exact hquiet.append (quiet_toDigits a.serial)

theorem isDigit_or_of_mem_plain {d : Decimal} {c : Char} (hc : c ∈ d.plain) :
    c.isDigit = true ∨ c = '.' := by
  have hdigits : ∀ x ∈ Nat.toDigits 10 d.coefficient, x.isDigit = true ∨ x = '.' :=
    fun x hx => .inl (Name.isDigit_of_mem_toDigits _ x hx)
  have hzeros : ∀ n, ∀ x ∈ List.replicate n '0', x.isDigit = true ∨ x = '.' := by
    intro n x hx
    rw [(List.mem_replicate.mp hx).2]
    exact .inl (by decide)
  unfold Decimal.plain at hc
  simp only at hc
  split_ifs at hc
  · obtain rfl := List.mem_singleton.mp hc
    exact .inl (by decide)
  · rcases List.mem_append.mp hc with hc | hc
    · exact hdigits c hc
    · exact hzeros _ c hc
  · rcases List.mem_append.mp hc with hc | hc
    · exact hdigits c (List.mem_of_mem_take hc)
    · rcases List.mem_cons.mp hc with rfl | hc
      · exact .inr rfl
      · exact hdigits c (List.mem_of_mem_drop hc)
  · rcases List.mem_cons.mp hc with rfl | hc
    · exact .inl (by decide)
    rcases List.mem_cons.mp hc with rfl | hc
    · exact .inr rfl
    rcases List.mem_append.mp hc with hc | hc
    · exact hzeros _ c hc
    · exact hdigits c hc

theorem isDigit_or_of_mem_number {x : Binary64} {c : Char} (hc : c ∈ x.plain) :
    c.isDigit = true ∨ c = '.' ∨ c = '-' := by
  unfold Binary64.plain at hc
  simp only at hc
  split_ifs at hc
  · rcases List.mem_cons.mp hc with rfl | hc
    · exact .inr (.inr rfl)
    · exact (isDigit_or_of_mem_plain hc).imp_right .inl
  · exact (isDigit_or_of_mem_plain hc).imp_right .inl

theorem quiet_number (x : Binary64) : Quiet x.plain := by
  intro c hc
  rcases isDigit_or_of_mem_number hc with hc | rfl | rfl
  · exact quiet_of_isDigit (s := [c]) (by simpa using hc) c List.mem_cons_self
  · decide
  · decide

theorem alike_operand (a : Operand) : Alike a.render.toList a.clearTexts.render.toList := by
  cases a with
  | name n => exact .fixed (quiet_name n)
  | number x =>
      have hnumber : Quiet (Operand.number x).render.toList := by
        rw [Operand.render, String.toList_ofList]
        exact quiet_number x
      exact .fixed hnumber
  | text s =>
      obtain ⟨hs, houtside⟩ := closed_encode s.toList
      obtain ⟨hempty, houtside'⟩ := closed_encode []
      have halike : Alike (Text.Quoted.encode s.toList) (Text.Quoted.encode []) :=
        ⟨hs, hempty, houtside.trans houtside'.symm⟩
      simpa [Operand.render, Operand.clearTexts, Text.Quoted.quote] using halike
  | lineFeed => exact .refl (closed_encode ['\n']).1
  | bool b => cases b <;> exact .fixed (by decide)
  | emptyList | silence => exact .fixed (by decide)

theorem isNegative_clearTexts (a : Operand) : a.clearTexts.isNegative = a.isNegative := by
  cases a <;> rfl

theorem alike_intercalate {α : Type} {sep : String} (hsep : Quiet sep.toList)
    {F G : α → String} (as : List α) (h : ∀ a ∈ as, Alike (F a).toList (G a).toList) :
    Alike (sep.intercalate (as.map F)).toList (sep.intercalate (as.map G)).toList := by
  induction as with
  | nil => exact Alike.fixed (s := "") (by decide)
  | cons a as ih =>
      rw [List.forall_mem_cons] at h
      have hrest := ih h.2
      cases as with
      | nil => simpa using h.1
      | cons b as =>
          simp only [List.map_cons, String.intercalate_cons_cons] at hrest ⊢
          exact (h.1.concat (.fixed hsep)).concat hrest

/-! ## Lines -/

theorem alike_call {c : Call} (h : c.callee.Plain) :
    Alike c.render.toList c.clearTexts.render.toList := by
  have hcallee : Quiet c.callee.render.toList := by
    cases hc : c.callee with
    | library name =>
        rw [hc] at h
        exact h
    | user n => exact quiet_name (.func n)
  have hcomma : Quiet ", ".toList := by decide
  have hargs := alike_intercalate hcomma c.args fun a _ => alike_operand a
  have hopen : Alike "(".toList "(".toList := .fixed (by decide)
  have hclose : Alike ")".toList ")".toList := .fixed (by decide)
  have halike := (((Alike.fixed hcallee).concat hopen).concat hargs).concat hclose
  simpa [Call.render, Call.clearTexts, callText, Function.comp_def] using halike

theorem closed_token (op : BinaryOp) : Closed op.token.toList := by
  have hdivision : Closed (BinaryOp.token (.arith .div)).toList := closed_division
  cases op with
  | arith op =>
      cases op with
      | div => exact hdivision
      | add | sub | mul => exact Quiet.closed (by decide)
  | remainder | appendTexts => exact Quiet.closed (by decide)
  | logic op => cases op <;> exact Quiet.closed (by decide)
  | compareNumbers op => cases op <;> exact Quiet.closed (by decide)
  | compareTexts op => cases op <;> exact Quiet.closed (by decide)

theorem alike_value {v : Value} (h : ∀ c, v = .call c → c.callee.Plain) :
    Alike v.render.toList v.clearTexts.render.toList := by
  cases v with
  | binary op left right =>
      exact ((alike_operand left).concat (.refl (closed_token op))).concat (alike_operand right)
  | unary op operand =>
      have hsign : Quiet op.sign.toList := by
        cases op <;> decide
      have hblank : Quiet (if operand.isNegative then " " else "").toList := by
        split_ifs <;> decide
      have halike := ((Alike.fixed hsign).concat (.fixed hblank)).concat (alike_operand operand)
      simpa only [Value.render, Value.clearTexts, isNegative_clearTexts] using halike
  | call c => exact alike_call (h c rfl)

theorem closed_note (note : Option String) : Closed (noteText note).toList := by
  cases note with
  | none => exact Quiet.closed (by decide)
  | some s =>
      have hblank : Closed " ".toList := Quiet.closed (by decide)
      have hnote := closed_comment s.toList
      rw [← String.toList_ofList (l := Text.Comment.encode s.toList)] at hnote
      exact hblank.concat hnote

theorem closed_params (params : List Param) : Closed (paramsText params).toList := by
  have hcomma : Quiet ", ".toList := by decide
  have hparams := alike_intercalate (F := Param.render) hcomma params fun p _ =>
    .refl ((quiet_name (.var p.serial)).closed.concat (closed_note p.note))
  exact hparams.left

theorem closed_between {a b : String} (n : Name) (ha : Quiet a.toList) (hb : Quiet b.toList) :
    Closed (a ++ n.render ++ b).toList := by
  exact (ha.closed.concat (quiet_name n).closed).concat hb.closed

theorem alike_between {a b : String} (x : Operand) (ha : Quiet a.toList) (hb : Quiet b.toList) :
    Alike (a ++ x.render ++ b).toList (a ++ x.clearTexts.render ++ b).toList :=
  ((Alike.fixed ha).concat (alike_operand x)).concat (.fixed hb)

theorem alike_after {a b : String} {s t : String} (n : Name) (ha : Quiet a.toList)
    (hb : Quiet b.toList) (h : Alike s.toList t.toList) :
    Alike (a ++ n.render ++ b ++ s ++ ";").toList (a ++ n.render ++ b ++ t ++ ";").toList := by
  have hbefore : Alike (a ++ n.render ++ b).toList (a ++ n.render ++ b).toList :=
    .refl (closed_between n ha hb)
  exact (hbefore.concat h).concat (.fixed (by decide))

theorem alike_code {code : Code} (h : code.Plain) :
    Alike code.render.toList code.clearTexts.render.toList := by
  cases code with
  | declare n initial note =>
      exact (alike_after (.var n) (by decide) (by decide) (alike_operand initial)).concat
        (.refl (closed_note note))
  | bind n value =>
      have hvalue : Alike value.render.toList value.clearTexts.render.toList := by
        apply alike_value
        rintro c rfl
        exact h
      exact alike_after (.var n) (by decide) (by decide) hvalue
  | bindLimit n count =>
      have hname := closed_between (.limit n) (a := "const ") (b := " = Math.floor(") (by decide)
        (by decide)
      exact ((Alike.refl hname).concat (alike_operand count)).concat (.fixed (by decide))
  | assign n value | addAssign n value =>
      have hname : Quiet (Name.var n).render.toList := quiet_name (.var n)
      exact (((Alike.fixed hname).concat (.fixed (by decide))).concat
        (alike_operand value)).concat (.fixed (by decide))
  | perform c => exact (alike_call h).concat (.fixed (by decide))
  | returnValue value =>
      cases value with
      | none => exact .fixed (by decide)
      | some x => exact alike_between x (by decide) (by decide)
  | openIf condition | openUnless condition =>
      exact alike_between condition (by decide) (by decide)
  | createLock n | unlock n => exact .refl (closed_between (.lock n) (by decide) (by decide))
  | ifNotFinite n | ifUndefined n =>
      exact .refl (closed_between (.var n) (by decide) (by decide))
  | openTryLock n => exact .refl (closed_between (.lock n) (by decide) (by decide))
  | enterCall n =>
      have hserial : Quiet (toString n).toList := by
        simpa using quiet_toDigits n
      have hpush : Closed ("_callStack.push(" ++ toString n).toList :=
        (Quiet.closed (by decide)).concat hserial.closed
      exact .refl (hpush.concat (Quiet.closed (by decide)))
  | register n event =>
      have hname := closed_between (.func n) (a := "_addEvent(") (b := ", ") (by decide) (by decide)
      have hevent := (closed_encode event.toList).1
      rw [← String.toList_ofList (l := Text.Quoted.encode event.toList)] at hevent
      exact .refl ((hname.concat hevent).concat (Quiet.closed (by decide)))
  | openRepeat n =>
      have hstart := closed_between (.var n) (a := "for (let ") (b := " = 0; ") (by decide)
        (by decide)
      have hname := (quiet_name (.var n)).closed
      have hlimit := (quiet_name (.limit n)).closed
      have hless : Closed " < ".toList := Quiet.closed (by decide)
      have hstep : Closed "; ++".toList := Quiet.closed (by decide)
      have hopen : Closed ") \x7b".toList := Quiet.closed (by decide)
      have htest := ((hstart.concat hname).concat hless).concat hlimit
      exact .refl (((htest.concat hstep).concat hname).concat hopen)
  | openFunction n params note =>
      have hname := closed_between (.func n) (a := "function ") (b := "(") (by decide) (by decide)
      have hopen : Closed ") \x7b".toList := Quiet.closed (by decide)
      have hhead := (hname.concat (closed_params params)).concat hopen
      exact .refl (hhead.concat (closed_note note))
  | leaveCall | breakLoop | continueLoop | openElse | openWhile | openBlock | openTry
    | openFinally | close => exact .fixed (by decide)

theorem alike_line {l : Line} (h : l.code.Plain) :
    Alike l.render.toList l.clearTexts.render.toList := by
  have hindent : Quiet (indent l.depth).toList := by
    rw [indent, String.toList_ofList]
    exact quiet_replicate (by decide) l.depth
  exact ((Alike.fixed hindent).concat (alike_code h)).concat (.fixed (by decide))

/-- A script is alike before and after its texts are emptied. -/
theorem alike_render {ls : List Line} (h : ∀ l ∈ ls, l.code.Plain) :
    Alike (render ls).toList (render (ls.map Line.clearTexts)).toList := by
  induction ls with
  | nil => exact Alike.fixed (s := "") (by decide)
  | cons l ls ih =>
      rw [List.forall_mem_cons] at h
      rw [List.map_cons, render_cons, render_cons]
      exact (alike_line h.1).concat (ih h.2)

end BlockScript.Script
