import BlockScript.Proofs.Emission.Lines
import BlockScript.Proofs.Graph.Skeleton
import BlockScript.Proofs.Script.Marks
/-!
# The skeleton of a chain shows in its code

`Tells notes Q x`: if the emission `x` succeeds, it gives no event and only lines of statements, and
what these tell is as `Q` says.  The lines of expressions tell nothing, those of a chain its skeleton
(`tells_statements`).  So chains with the same code have the same skeleton, whatever literals they
hold and whatever stands around their lines (`skeleton_of_render_eq`).
-/

namespace BlockScript

open Script (Leaf Skeleton Mark Line Code Callee Operand Heard)

namespace Emission

variable {α β : Type}

/-- There is no event, and the lines are those of statements and tell this. -/
structure Says (notes : Bool) (output : Output) (ms : List Mark) : Prop where
  quiet : output.events = []
  ordinary : ∀ l ∈ output.lines, l.code.Ordinary notes
  heard : Heard (output.lines.map fun l => l.code.mark) ms

/-- If the emission succeeds, what it says is as `Q` says. -/
def Tells (notes : Bool) (Q : List Mark → Prop) (x : Emission α) : Prop :=
  ∀ a, x.result = .ok a → ∃ ms, Q ms ∧ Says notes x.output ms

/-- If the emission succeeds, it tells nothing of statements. -/
abbrev Silent (notes : Bool) (x : Emission α) : Prop :=
  Tells notes (· = []) x

namespace Tells

variable {notes : Bool} {Q P : List Mark → Prop} {depth : Nat} {code : Code}

theorem of_output_empty {x : Emission α} (hx : x.output = .empty) (hQ : Q []) :
    Tells notes Q x := by
  intro a _
  rw [hx]
  exact ⟨[], hQ, rfl, List.forall_mem_nil _, .nil⟩

theorem pure {a : α} (hQ : Q []) : Tells notes Q (Pure.pure a : Emission α) :=
  of_output_empty rfl hQ

theorem fail (e : GraphFault) : Tells notes Q (fail e : Emission α) :=
  fun _ h => nomatch h

theorem lift {x : Except GraphFault α} (hQ : Q []) : Tells notes Q (lift x) :=
  of_output_empty rfl hQ

theorem line {ms : List Mark} (hordinary : code.Ordinary notes) (hheard : Heard [code.mark] ms)
    (hQ : Q ms) : Tells notes Q (line depth code) :=
  fun _ _ => ⟨ms, hQ, rfl, List.forall_mem_singleton.mpr hordinary, hheard⟩

theorem mono {x : Emission α} (h : Tells notes P x) (hPQ : ∀ ms, P ms → Q ms) :
    Tells notes Q x := by
  intro a ha
  obtain ⟨ms, hP, hsaid⟩ := h a ha
  exact ⟨ms, hPQ ms hP, hsaid⟩

theorem bind {x : Emission α} {f : α → Emission β} (h : Tells notes P x)
    (hf : ∀ a ms, P ms → Tells notes (fun ms' => Q (ms ++ ms')) (f a)) :
    Tells notes Q (x >>= f) := by
  intro b hb
  obtain ⟨a, ha, hfa⟩ := result_bind_eq_ok.mp hb
  obtain ⟨ms, hP, hquiet, hordinary, hheard⟩ := h a ha
  obtain ⟨ms', hQ, hquiet', hordinary', hheard'⟩ := hf a ms hP b hfa
  refine ⟨ms ++ ms', hQ, ?_⟩
  rw [output_bind ha]
  refine ⟨by rw [Output.events_append, hquiet, hquiet', List.append_nil],
    List.forall_mem_append.mpr ⟨hordinary, hordinary'⟩, ?_⟩
  rw [Output.lines_append, List.map_append]
  exact hheard.append hheard'

theorem silent_bind {x : Emission α} {f : α → Emission β} (h : Silent notes x)
    (hf : ∀ a, Tells notes Q (f a)) : Tells notes Q (x >>= f) := by
  refine h.bind fun a ms hms => ?_
  subst hms
  exact hf a

theorem line_bind {f : Unit → Emission β} {ms : List Mark} (hordinary : code.Ordinary notes)
    (hheard : Heard [code.mark] ms) (hf : Tells notes (fun ms' => Q (ms ++ ms')) (f ())) :
    Tells notes Q (Emission.line depth code >>= f) := by
  refine (line (Q := (· = ms)) hordinary hheard rfl).bind fun _ ms' hms' => ?_
  subst hms'
  exact hf

theorem silent_last {x : Emission α} {k : Mark} (h : Silent notes x) :
    Tells notes (fun ms => [k] ++ ms = [k]) x := by
  refine h.mono fun ms hms => ?_
  rw [hms, List.append_nil]

theorem guarded {depth' : Nat} {under : Code} {k : Leaf} (hguard : code.mark = .guard)
    (hunder : under.mark = .leaf k) (hordinary : code.Ordinary notes)
    (hordinary' : under.Ordinary notes) :
    Silent notes (Emission.line depth code >>= fun _ => Emission.line depth' under) := by
  intro u _
  refine ⟨[], rfl, rfl, ?_, ?_⟩
  · exact List.forall_mem_cons.mpr ⟨hordinary, List.forall_mem_singleton.mpr hordinary'⟩
  · show Heard [code.mark, under.mark] []
    rw [hguard, hunder]
    exact .guarded k

theorem guarded_bind {depth' : Nat} {under : Code} {k : Leaf} {f : Unit → Emission β}
    (hguard : code.mark = .guard) (hunder : under.mark = .leaf k) (hordinary : code.Ordinary notes)
    (hordinary' : under.Ordinary notes) (hf : Tells notes Q (f ())) :
    Tells notes Q
      (Emission.line depth code >>= fun _ => Emission.line depth' under >>= f) := by
  rw [← bind_assoc]
  exact silent_bind (guarded hguard hunder hordinary hordinary') fun _ => hf

theorem collect {f : α → Emission β} (h : ∀ a, Silent notes (f a)) (as : List α) :
    Silent notes (collect f as) := by
  induction as with
  | nil => exact .pure rfl
  | cons a as ih => exact (h a).silent_bind fun _ => ih.silent_bind fun _ => .pure rfl

theorem each {f : α → Emission Unit} (h : ∀ a, Silent notes (f a)) (as : List α) :
    Silent notes (each f as) := by
  induction as with
  | nil => exact .pure rfl
  | cons a as ih => exact (h a).silent_bind fun _ => ih

end Tells

theorem ordinary_function {func : Builtin} {choice : Option Choice} {name : String}
    (h : func.function? choice = some name) : (Callee.library name).Ordinary := by
  have hlist : ∀ op : ListOp, (Callee.library op.function).Ordinary := by
    intro op
    cases op <;> decide
  unfold Builtin.function? at h
  split at h
  all_goals
    cases h <;> first | decide | exact hlist _

namespace Context

variable {c : Context} {depth : Nat} {id : NodeId} {Q : List Mark → Prop}

abbrev shown (c : Context) : Bool := c.options.withComments

/-! ## Calls -/

theorem silent_serial : Silent c.shown (c.serial id) :=
  .lift rfl

theorem silent_variableRead : Silent c.shown (c.variableRead id) := by
  refine Tells.silent_bind (.lift rfl) fun d => ?_
  cases d with
  | none => exact .fail _
  | some d => exact silent_serial

theorem silent_whenDebug {x : Emission Unit} (h : Silent c.shown x) :
    Silent c.shown (c.whenDebug x) := by
  unfold whenDebug
  split
  · exact h
  · exact .pure rfl

/-- What the line of a call tells: nothing if its value is bound. -/
def callMarks (k : Leaf) : Option Nat → List Mark
  | some _ => []
  | none => [.leaf k]

def calleeLeaf : Callee → Leaf
  | .library _ => .builtin
  | .user _ => .call

theorem tells_performCall {callee : Callee} (hcallee : callee.Ordinary) (args : List Operand)
    (target : Option Nat) :
    Tells c.shown (· = callMarks (calleeLeaf callee) target)
      (c.performCall depth id ⟨callee, args⟩ target) := by
  have hleave : Silent c.shown (c.whenDebug (.line depth .leaveCall)) :=
    silent_whenDebug (.line trivial .silent rfl)
  refine Tells.silent_bind (silent_whenDebug ?_) fun _ => ?_
  · exact Tells.silent_bind silent_serial fun _ => .line trivial .silent rfl
  · cases target with
    | some t => exact Tells.silent_bind (.line hcallee .silent rfl) fun _ => hleave
    | none =>
        cases callee with
        | library name => exact .line_bind hcallee (.leaf .builtin) (.silent_last hleave)
        | user n => exact .line_bind hcallee (.leaf .call) (.silent_last hleave)

section

variable {operand : NodeId → Emission Operand} (h : ∀ x, Silent c.shown (operand x))
include h

theorem tells_builtinCall (call : BuiltinCall) (target : Option Nat) :
    Tells c.shown (· = callMarks .builtin target)
      (c.builtinCall depth operand id call target) := by
  unfold builtinCall
  cases hname : call.func.function? call.choice with
  | none => exact .fail _
  | some name =>
      have hcallee := ordinary_function hname
      simp only
      split
      · exact .fail _
      · refine Tells.silent_bind (.collect h _) fun args => ?_
        refine (tells_performCall hcallee args target).bind ?_
        rintro _ _ rfl
        split
        · exact .guarded (k := .assign) rfl rfl trivial trivial
        · exact .pure (List.append_nil _)

theorem tells_userCall (args : NodeId) (target : Option Nat) :
    Tells c.shown (· = callMarks .call target)
      (c.userCall depth operand id args target) := by
  refine Tells.silent_bind (.lift rfl) fun d => ?_
  split
  · exact .fail _
  · refine Tells.silent_bind (.collect (fun entry : NodeId × Argument => h entry.2.value) _)
      fun values => ?_
    refine Tells.silent_bind (.lift rfl) fun _ => Tells.silent_bind silent_serial fun n => ?_
    have hcallee : (Callee.user n).Ordinary := trivial
    exact tells_performCall hcallee values target

/-! ## Expressions -/

theorem silent_literal (l : Literal) : Silent c.shown (c.literal depth operand id l) := by
  cases l with
  | number text => exact Tells.silent_bind (.lift rfl) fun x => .pure rfl
  | bool text =>
      simp only [literal]
      split
      · exact .pure rfl
      · exact .fail _
  | tone frequency duration =>
      have hcallee : (Callee.library "_createSound").Ordinary := by decide
      refine Tells.silent_bind (h frequency) fun _ => Tells.silent_bind (h duration) fun _ => ?_
      refine Tells.silent_bind silent_serial fun t => ?_
      exact Tells.silent_bind (.line hcallee .silent rfl) fun _ => .pure rfl
  | text _ | lineFeed | emptyList _ | silence => exact .pure rfl

theorem silent_expressionCode (e : Expression) :
    Silent c.shown (c.expressionCode depth operand id e) := by
  cases e with
  | binary op left right =>
      refine Tells.silent_bind (h left) fun _ => Tells.silent_bind (h right) fun a => ?_
      refine Tells.silent_bind silent_serial fun t => ?_
      refine Tells.silent_bind (.line trivial .silent rfl) fun _ => ?_
      split
      · exact .guarded_bind (k := .assign) rfl rfl trivial trivial (.pure rfl)
      · exact .pure rfl
  | unary op right =>
      refine Tells.silent_bind (h right) fun _ => Tells.silent_bind silent_serial fun t => ?_
      exact Tells.silent_bind (.line trivial .silent rfl) fun _ => .pure rfl
  | read => exact Tells.silent_bind silent_variableRead fun n => .pure rfl
  | literal l => exact silent_literal h l
  | builtin call =>
      simp only [expressionCode]
      split
      · refine Tells.silent_bind silent_serial fun t => ?_
        exact Tells.silent_bind (tells_builtinCall h call (some t)) fun _ => .pure rfl
      · exact .fail _
  | call args =>
      refine Tells.silent_bind silent_serial fun t => ?_
      exact Tells.silent_bind (tells_userCall h args (some t)) fun _ => .pure rfl

end

theorem silent_expression (fuel : Nat) (id : NodeId) :
    Silent c.shown (c.expression depth fuel id) := by
  induction fuel generalizing id with
  | zero => exact .fail _
  | succ fuel ih => exact Tells.silent_bind (.lift rfl) fun e => silent_expressionCode ih e

theorem silent_operand (id : NodeId) : Silent c.shown (c.operand depth id) :=
  silent_expression _ id

/-! ## Statements -/

theorem silent_declaration (d : Declaration) :
    Silent c.shown (c.declaration depth id d) := by
  refine Tells.silent_bind silent_serial fun n => .line ?_ .silent rfl
  show c.shown = true ∨ c.note d.name = none
  unfold note shown
  split
  · next h => exact .inl h
  · exact .inr rfl

theorem silent_declarations (head : NodeId) : Silent c.shown (c.declarations depth head) := by
  refine Tells.silent_bind (.each (fun entry : NodeId × Declaration => ?_) _) fun _ => .lift rfl
  exact silent_declaration entry.2

theorem tells_assignment {target value : NodeId} {code : Nat → Operand → Code} {k : Leaf}
    (hordinary : ∀ n a, (code n a).Ordinary c.shown) (hmark : ∀ n a, (code n a).mark = .leaf k) :
    Tells c.shown (· = [.leaf k]) (c.assignment depth target value code) := by
  refine Tells.silent_bind (.lift rfl) fun e => ?_
  cases e with
  | read =>
      refine Tells.silent_bind silent_variableRead fun n => ?_
      refine Tells.silent_bind (silent_operand value) fun a => ?_
      refine .line (hordinary n a) ?_ rfl
      rw [hmark]
      exact .leaf k
  | binary _ _ _ | unary _ _ | literal _ | builtin _ | call _ => exact .fail _

/-- The emission tells the skeleton of the chain from a head. -/
abbrev TellsChain (c : Context) (head : NodeId) (x : Emission Unit) : Prop :=
  Tells c.shown (fun ms => ∃ s, c.graph.HasSkeleton head s ∧ ms = s.marks) x

theorem tells_statement {nested : Nat → NodeId → Emission Unit}
    (h : ∀ depth head, c.TellsChain head (nested depth head)) (kind : StatementKind) :
    Tells c.shown (c.graph.Marked kind) (c.statement nested depth id kind) := by
  have hleaf : ∀ {k : Leaf} {x : Emission Unit}, kind.leaf? = some k →
      Tells c.shown (· = [.leaf k]) x → Tells c.shown (c.graph.Marked kind) x := by
    intro k x hkind hx
    refine hx.mono ?_
    rintro _ rfl
    exact .leaf hkind
  cases kind with
  | assign target value =>
      exact hleaf rfl (tells_assignment (fun _ _ => trivial) fun _ _ => rfl)
  | addAssign target value =>
      exact hleaf rfl (tells_assignment (fun _ _ => trivial) fun _ _ => rfl)
  | branch condition onTrue onFalse =>
      refine Tells.silent_bind (silent_operand condition) fun a => ?_
      refine .line_bind trivial (.opens _) ((h _ onTrue).bind ?_)
      rintro _ _ ⟨t, ht, rfl⟩
      refine .line_bind trivial .closes ?_
      cases onFalse with
      | none => exact .pure (.branch ht)
      | some body =>
          refine .line_bind trivial (.opens _) ((h _ body).bind ?_)
          rintro _ _ ⟨e, he, rfl⟩
          exact .line trivial .closes (.branchElse ht he)
  | whileTrue condition body =>
      refine .line_bind trivial (.opens _) ?_
      refine Tells.silent_bind (silent_operand condition) fun a => ?_
      refine .line_bind trivial (.opens _) (.line_bind trivial (.leaf _) ?_)
      refine .line_bind trivial .closes ((h _ body).bind ?_)
      rintro _ _ ⟨b, hb, rfl⟩
      exact .line trivial .closes (.enclose rfl hb)
  | repeatTimes count body =>
      refine Tells.silent_bind (silent_operand count) fun a => ?_
      refine Tells.silent_bind silent_serial fun n => ?_
      refine .line_bind trivial .silent (.line_bind trivial (.opens _) ((h _ body).bind ?_))
      rintro _ _ ⟨b, hb, rfl⟩
      exact .line trivial .closes (.enclose rfl hb)
  | compound locals body =>
      refine .line_bind trivial (.opens _) ?_
      refine Tells.silent_bind (silent_declarations locals) fun _ => (h _ body).bind ?_
      rintro _ _ ⟨b, hb, rfl⟩
      exact .line trivial .closes (.enclose rfl hb)
  | breakLoop => exact hleaf rfl (.line trivial (.leaf _) rfl)
  | continueLoop => exact hleaf rfl (.line trivial (.leaf _) rfl)
  | returnValue value =>
      cases value with
      | none => exact hleaf rfl (.line trivial (.leaf _) rfl)
      | some x =>
          refine hleaf rfl (Tells.silent_bind (silent_operand x) fun a => ?_)
          exact .line trivial (.leaf _) rfl
  | builtin call => exact hleaf rfl (tells_builtinCall silent_operand call none)
  | call args => exact hleaf rfl (tells_userCall silent_operand args none)

theorem tells_entries (depth : Nat) {nested : Nat → NodeId → Emission Unit}
    (h : ∀ depth head, c.TellsChain head (nested depth head)) {head : NodeId}
    {entries : List (NodeId × Statement)}
    (hchain : Chained c.graph.statement Statement.next head entries) :
    c.TellsChain head
      (Emission.each (fun (id, s) => c.statement nested depth id s.kind) entries) := by
  induction hchain with
  | nil hread => exact .pure ⟨.done, .done hread, rfl⟩
  | cons hread _ ih =>
      refine (tells_statement h _).bind fun _ ms hms => ih.mono ?_
      rintro _ ⟨r, hr, rfl⟩
      obtain ⟨t, ht, hmarks⟩ := hms.exists_skeleton hread hr
      exact ⟨t, ht, hmarks.symm⟩

theorem tells_statementsWithin (fuel depth : Nat) (head : NodeId) :
    c.TellsChain head (c.statementsWithin fuel depth head) := by
  induction fuel generalizing depth head with
  | zero => exact .fail _
  | succ fuel ih =>
      intro u hu
      obtain ⟨v, heach, hending⟩ := result_bind_eq_ok.mp hu
      have hended : (c.graph.statements head).ending = .ok () := hending
      have hchain := tells_entries depth ih (Chained.of_follow hended)
      refine (Tells.bind hchain fun _ ms hms => .lift ?_) u hu
      rwa [List.append_nil]

/-- The code of a chain tells its skeleton. -/
theorem tells_statements (depth : Nat) (head : NodeId) :
    c.TellsChain head (c.statements depth head) :=
  tells_statementsWithin _ depth head

/-- Two chains whose code is the same text, in programs that show no names of the user, have one
skeleton: there is no other that one of them has. -/
theorem skeleton_of_render_eq {c c' : Context} {depth depth' : Nat} {head head' : NodeId}
    (hcomments : c.options.withComments = false) (hcomments' : c'.options.withComments = false)
    (h : (c.statements depth head).result = .ok ())
    (h' : (c'.statements depth' head').result = .ok ())
    (htext : Script.render (c.statements depth head).output.lines =
      Script.render (c'.statements depth' head').output.lines) :
    ∃ s, (∀ t, c.graph.HasSkeleton head t ↔ t = s) ∧
      ∀ t, c'.graph.HasSkeleton head' t ↔ t = s := by
  obtain ⟨_, ⟨s, hs, rfl⟩, hsaid⟩ := tells_statements depth head () h
  obtain ⟨_, ⟨s', hs', rfl⟩, hsaid'⟩ := tells_statements depth' head' () h'
  have hordinary := hsaid.ordinary
  have hordinary' := hsaid'.ordinary
  rw [shown, hcomments] at hordinary
  rw [shown, hcomments'] at hordinary'
  have hmarks := Script.marks_eq_of_render_eq hordinary hordinary' htext
  obtain rfl : s = s' := by
    apply Skeleton.marks_injective
    rw [← hsaid.heard.heard_eq, hmarks, hsaid'.heard.heard_eq]
  refine ⟨s, fun t => ⟨fun ht => ht.unique hs, ?_⟩, fun t => ⟨fun ht => ht.unique hs', ?_⟩⟩
  · rintro rfl
    exact hs
  · rintro rfl
    exact hs'

end Context

/-- A loop around a branch that breaks it off, or else goes on. -/
def breakInLoop : Graph :=
  ⟨#[⟨.statement ⟨.whileTrue ⟨1⟩ ⟨2⟩, ⟨9⟩⟩, .onWorkspace, none⟩,
    .ofKind (.expression (.literal (.bool "true"))),
    .ofKind (.statement ⟨.branch ⟨3⟩ ⟨4⟩ (some ⟨6⟩), ⟨8⟩⟩),
    .ofKind (.expression (.literal (.text "\x7d"))),
    .ofKind (.statement ⟨.breakLoop, ⟨5⟩⟩),
    .ofKind .statementEnd,
    .ofKind (.statement ⟨.continueLoop, ⟨7⟩⟩),
    .ofKind .statementEnd,
    .ofKind .statementEnd,
    .ofKind .statementEnd]⟩

/-- The same program from other nodes, with a truth value of another name. -/
def breakInLoopReversed : Graph :=
  ⟨#[.ofKind .statementEnd,
    .ofKind .statementEnd,
    .ofKind .statementEnd,
    .ofKind (.statement ⟨.continueLoop, ⟨2⟩⟩),
    .ofKind .statementEnd,
    .ofKind (.statement ⟨.breakLoop, ⟨4⟩⟩),
    .ofKind (.expression (.literal (.text "\x7d"))),
    .ofKind (.statement ⟨.branch ⟨6⟩ ⟨5⟩ (some ⟨3⟩), ⟨1⟩⟩),
    .ofKind (.expression (.literal (.bool "真"))),
    ⟨.statement ⟨.whileTrue ⟨8⟩ ⟨7⟩, ⟨0⟩⟩, .onWorkspace, none⟩]⟩

def breakInLoopLines : List Line :=
  [⟨1, .openWhile⟩, ⟨2, .openUnless (.bool true)⟩, ⟨3, .breakLoop⟩, ⟨2, .close⟩,
    ⟨2, .openIf (.text "\x7d")⟩, ⟨3, .breakLoop⟩, ⟨2, .close⟩,
    ⟨2, .openElse⟩, ⟨3, .continueLoop⟩, ⟨2, .close⟩, ⟨1, .close⟩]

theorem skeleton_of_breakInLoop :
    ∃ ns ns', Numbering.ofProgram breakInLoop ⟨0⟩ [] = .ok ns ∧
      Numbering.ofProgram breakInLoopReversed ⟨9⟩ [] = .ok ns' ∧
      let x := Context.statements ⟨breakInLoop, ns, .standard⟩ 1 ⟨0⟩
      let y := Context.statements ⟨breakInLoopReversed, ns', .standard⟩ 1 ⟨9⟩
      x = ⟨⟨breakInLoopLines, []⟩, .ok ()⟩ ∧ y = ⟨⟨breakInLoopLines, []⟩, .ok ()⟩ ∧
      ∃ s, (∀ t, breakInLoop.HasSkeleton ⟨0⟩ t ↔ t = s) ∧
        ∀ t, breakInLoopReversed.HasSkeleton ⟨9⟩ t ↔ t = s := by
  refine ⟨_, _, rfl, rfl, ?_⟩
  intro x y
  have hx : x = ⟨⟨breakInLoopLines, []⟩, .ok ()⟩ := rfl
  have hy : y = ⟨⟨breakInLoopLines, []⟩, .ok ()⟩ := rfl
  refine ⟨hx, hy, ?_⟩
  exact Context.skeleton_of_render_eq (c := ⟨breakInLoop, _, .standard⟩) rfl rfl
    (congrArg Emission.result hx) (congrArg Emission.result hy)
    (congrArg (fun z : Emission Unit => Script.render z.output.lines) (hx.trans hy.symm))

end Emission

end BlockScript
