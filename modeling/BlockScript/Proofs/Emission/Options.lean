import BlockScript.Proofs.Emission.Lines
/-!
# Code under other options

`Matches R x y`: the emission `y` ends as `x` does, with the same value or the same fault, and the
lines of the two are related by `R`.  `Parallel R x y`: they match, or `y` fails for the want of a
number.  The last cannot happen in a program with a numbering, and saves to follow which nodes have
numbers.

What options change in the code is in a few places: the records of calls, the line that replaces a
result, and the notes of declarations, parameters and functions.  If `R` relates what two
sets of options give in those places, it relates all that they give (`Varies`, `parallel_operand`,
`parallel_statements`).
-/

namespace BlockScript

/-- Code that is the same under all options. -/
def Script.Code.Steady : Script.Code → Prop
  | .declare _ _ _ => False
  | .openFunction _ params note => params = [] ∧ note = none
  | .bind _ (.binary _ _ _) => False
  | _ => True

namespace Emission

open Script (Line Code Call Operand Param)

variable {α β : Type}

/-- A relation between lines that holds of all lines as soon as it holds of their pieces. -/
structure LineRelation where
  rel : List Line → List Line → Prop
  nil : rel [] []
  append : ∀ {a b a' b' : List Line}, rel a b → rel a' b' → rel (a ++ a') (b ++ b')

namespace LineRelation

def same : LineRelation where
  rel := Eq
  nil := rfl
  append := fun h h' => by rw [h, h']

def any : LineRelation where
  rel := fun _ _ => True
  nil := trivial
  append := fun _ _ => trivial

def mapped (F : Line → Line) : LineRelation where
  rel := fun a b => b = a.map F
  nil := rfl
  append := fun h h' => by rw [h, h', List.map_append]

end LineRelation

/-- The second emission has the result of the first; their lines are related. -/
structure Matches (R : LineRelation) (x y : Emission α) : Prop where
  result : y.result = x.result
  lines : R.rel x.output.lines y.output.lines

theorem Matches.bind {R : LineRelation} {x y : Emission α} {f k : α → Emission β}
    (h : Matches R x y) (hf : ∀ a, x.result = .ok a → Matches R (f a) (k a)) :
    Matches R (x >>= f) (y >>= k) := by
  have hresult := h.result
  cases hx : x.result with
  | error e =>
      rw [hx] at hresult
      rw [bind_of_error hx, bind_of_error hresult]
      exact ⟨rfl, h.lines⟩
  | ok a =>
      rw [hx] at hresult
      rw [bind_of_ok hx, bind_of_ok hresult]
      exact ⟨(hf a hx).result, R.append h.lines (hf a hx).lines⟩

/-- The second emission matches the first, or fails for the want of a number. -/
def Parallel (R : LineRelation) (x y : Emission α) : Prop :=
  (∃ id, y.result = .error (.unnumbered id)) ∨ Matches R x y

namespace Parallel

variable {R : LineRelation}

theorem pure (a : α) : Parallel R (Pure.pure a) (Pure.pure a) :=
  .inr ⟨rfl, R.nil⟩

theorem fail (e : GraphFault) : Parallel R (fail e : Emission α) (fail e) :=
  .inr ⟨rfl, R.nil⟩

theorem lift (x : Except GraphFault α) : Parallel R (lift x) (lift x) :=
  .inr ⟨rfl, R.nil⟩

theorem event (e : Event) : Parallel R (event e) (event e) :=
  .inr ⟨rfl, R.nil⟩

theorem line {depth : Nat} {code code' : Code} (h : R.rel [⟨depth, code⟩] [⟨depth, code'⟩]) :
    Parallel R (line depth code) (line depth code') :=
  .inr ⟨rfl, h⟩

theorem bind {x y : Emission α} {f k : α → Emission β} (h : Parallel R x y)
    (hf : ∀ a, Parallel R (f a) (k a)) : Parallel R (x >>= f) (y >>= k) := by
  rcases h with ⟨id, hmissing⟩ | hmatches
  · left
    exact ⟨id, by rw [bind_of_error hmissing]⟩
  · cases hx : x.result with
    | error e => exact .inr (hmatches.bind fun a ha => by rw [hx] at ha; cases ha)
    | ok a =>
        rcases hf a with ⟨id, hmissing⟩ | hrest
        · left
          refine ⟨id, ?_⟩
          rw [bind_of_ok (hmatches.result.trans hx), hmissing]
        · right
          refine hmatches.bind fun b hb => ?_
          obtain rfl := Except.ok.inj (hx.symm.trans hb)
          exact hrest

theorem line_bind {depth : Nat} {code code' : Code} {f k : Unit → Emission β}
    (h : R.rel [⟨depth, code⟩] [⟨depth, code'⟩]) (hf : Parallel R (f ()) (k ())) :
    Parallel R (Emission.line depth code >>= f) (Emission.line depth code' >>= k) :=
  (line h).bind fun _ => hf

theorem each {f k : α → Emission Unit} (h : ∀ a, Parallel R (f a) (k a)) (as : List α) :
    Parallel R (each f as) (each k as) := by
  induction as with
  | nil => exact .pure ()
  | cons a as ih => exact (h a).bind fun _ => ih

theorem collect {f k : α → Emission β} (h : ∀ a, Parallel R (f a) (k a)) (as : List α) :
    Parallel R (collect f as) (collect k as) := by
  induction as with
  | nil => exact .pure []
  | cons a as ih => exact (h a).bind fun _ => ih.bind fun _ => .pure _

end Parallel

theorem collect_bind_pure {γ : Type} (f : α → Emission β) (F : α → β → γ) (as : List α) :
    collect (fun a => f a >>= fun b => pure (F a b)) as =
      collect f as >>= fun bs => pure (List.zipWith F as bs) := by
  induction as with
  | nil => rfl
  | cons a as ih => simp only [collect, ih, bind_assoc, pure_bind, List.zipWith]

namespace Context

def under (c : Context) (o : Options) : Context :=
  { c with options := o }

def callLines (c : Context) (depth n : Nat) (code : Code) : List Line :=
  (if c.options.isDebug then [⟨depth, .enterCall n⟩] else []) ++
    ⟨depth, code⟩ :: if c.options.isDebug then [⟨depth, .leaveCall⟩] else []

/-- The line of an operation, and those that put its left operand in the place of its result. -/
def operationLines (c : Context) (depth t : Nat) (op : BinaryOp) (a b : Operand) : List Line :=
  ⟨depth, .bind t (.binary op a b)⟩ ::
    if c.options.guardsArithmetic ∧ op.isArithmetic then
      [⟨depth, .ifNotFinite t⟩, ⟨depth + 1, .assign t a⟩]
    else []

def param (c : Context) (entry : NodeId × Declaration) (n : Nat) : Param :=
  ⟨n, c.note entry.2.name⟩

/-- What the options of a context and some others change in the code is related. -/
structure Varies (R : LineRelation) (c : Context) (o : Options) : Prop where
  /-- If only one of the two records calls, it is the second. -/
  isDebug : c.options.isDebug → o.isDebug
  steady : ∀ l : Line, l.code.Steady → R.rel [l] [l]
  call : ∀ depth n call target,
    R.rel (c.callLines depth n (callCode call target))
      ((c.under o).callLines depth n (callCode call target))
  operation : ∀ depth t op a b,
    R.rel (c.operationLines depth t op a b) ((c.under o).operationLines depth t op a b)
  declaration : ∀ depth n initial name,
    R.rel [⟨depth, .declare n initial (c.note name)⟩]
      [⟨depth, .declare n initial ((c.under o).note name)⟩]
  function : ∀ depth n entries serials name,
    R.rel [⟨depth, .openFunction n (List.zipWith c.param entries serials) (c.note name)⟩]
      [⟨depth, .openFunction n (List.zipWith (c.under o).param entries serials)
        ((c.under o).note name)⟩]

/-- Any two options agree in whatever lines they give. -/
theorem varies_any {c : Context} {o : Options} (h : c.options.isDebug → o.isDebug) : Varies .any c o where
  isDebug := h
  steady _ _ := trivial
  call _ _ _ _ := trivial
  operation _ _ _ _ _ := trivial
  declaration _ _ _ _ := trivial
  function _ _ _ _ _ := trivial

theorem serial_eq_error {ns : Numbering} {id : NodeId} {e : GraphFault}
    (h : ns.serial id = .error e) : e = .unnumbered id := by
  unfold Numbering.serial at h
  split at h
  · cases h
  · exact (Except.error.inj h).symm

variable {c : Context} {o : Options} {depth : Nat} {id : NodeId}

theorem performCall_eq (call : Call) (target : Option Nat) {n : Nat}
    (hn : c.numbering.serial id = .ok n) :
    c.performCall depth id call target =
      ⟨⟨c.callLines depth n (callCode call target), []⟩, .ok ()⟩ := by
  unfold performCall whenDebug callLines serial
  rw [hn]
  cases c.options.isDebug <;> cases target <;> rfl

theorem performCall_eq_of_not_isDebug (h : c.options.isDebug = false) (call : Call)
    (target : Option Nat) (n : Nat) :
    c.performCall depth id call target =
      ⟨⟨c.callLines depth n (callCode call target), []⟩, .ok ()⟩ := by
  unfold performCall whenDebug callLines
  rw [h]
  cases target <;> rfl

theorem operation_eq (op : BinaryOp) (a b : Operand) (t : Nat) :
    (do
      .line depth (.bind t (.binary op a b))
      if c.options.guardsArithmetic ∧ op.isArithmetic then do
        .line depth (.ifNotFinite t)
        .line (depth + 1) (.assign t a)
      pure (.name (.var t))) =
      (⟨⟨c.operationLines depth t op a b, []⟩, .ok (.name (.var t))⟩ : Emission Operand) := by
  unfold operationLines
  split <;> rfl

theorem params_eq (head : NodeId) :
    c.params head = (do
      let serials ← collect (fun entry : NodeId × Declaration => c.serial entry.1)
        (c.graph.declarations head).entries
      .lift (c.graph.declarations head).ending
      pure (List.zipWith c.param (c.graph.declarations head).entries serials)) := by
  have hcollect := collect_bind_pure (fun entry : NodeId × Declaration => c.serial entry.1) c.param
    (c.graph.declarations head).entries
  unfold params
  simp only [param] at hcollect ⊢
  rw [hcollect]
  simp only [bind_assoc, pure_bind]

/-! ## Calls -/

theorem parallel_serial (R : LineRelation) (c : Context) (o : Options) (id : NodeId) :
    Parallel R (c.serial id) ((c.under o).serial id) :=
  .lift _

theorem parallel_variableRead (R : LineRelation) (c : Context) (o : Options) (id : NodeId) :
    Parallel R (c.variableRead id) ((c.under o).variableRead id) := by
  have hread : Parallel R (.lift (c.graph.declaration (c.numbering.bearer id)))
      (.lift ((c.under o).graph.declaration ((c.under o).numbering.bearer id))) := .lift _
  refine hread.bind fun d => ?_
  cases d with
  | none => exact .fail _
  | some d => exact parallel_serial R c o id

section

variable {R : LineRelation} (h : Varies R c o)
include h

theorem parallel_performCall (depth : Nat) (id : NodeId) (call : Call) (target : Option Nat) :
    Parallel R (c.performCall depth id call target)
      ((c.under o).performCall depth id call target) := by
  have hnumbers : (c.under o).numbering.serial id = c.numbering.serial id := rfl
  cases hn : c.numbering.serial id with
  | ok n =>
      rw [performCall_eq call target hn, performCall_eq call target (hnumbers.trans hn)]
      exact .inr ⟨rfl, h.call depth n call target⟩
  | error e =>
      cases hdebug : o.isDebug with
      | true =>
          obtain rfl := serial_eq_error hn
          refine .inl ⟨id, ?_⟩
          unfold performCall whenDebug serial
          have hrecords : (c.under o).options.isDebug = true := hdebug
          rw [hnumbers, hn, if_pos hrecords]
          rfl
      | false =>
          have hdebug' : c.options.isDebug = false := by
            cases hc : c.options.isDebug with
            | false => rfl
            | true => rw [h.isDebug hc] at hdebug; cases hdebug
          rw [performCall_eq_of_not_isDebug hdebug' call target 0,
            performCall_eq_of_not_isDebug (c := c.under o) hdebug call target 0]
          exact .inr ⟨rfl, h.call depth 0 call target⟩

section

variable {f k : NodeId → Emission Operand} (hf : ∀ x, Parallel R (f x) (k x))
include hf

theorem parallel_builtinCall (depth : Nat) (id : NodeId) (call : BuiltinCall)
    (target : Option Nat) :
    Parallel R (c.builtinCall depth f id call target)
      ((c.under o).builtinCall depth k id call target) := by
  unfold builtinCall
  cases call.func.function? call.choice with
  | none => exact .fail _
  | some name =>
      simp only
      split
      · exact .fail _
      · refine (Parallel.collect hf call.args).bind fun args => ?_
        refine (parallel_performCall h depth id _ target).bind fun _ => ?_
        split
        · exact .line_bind (h.steady _ trivial) (.line (h.steady _ trivial))
        · exact .pure ()

theorem parallel_userCall (depth : Nat) (id args : NodeId) (target : Option Nat) :
    Parallel R (c.userCall depth f id args target)
      ((c.under o).userCall depth k id args target) := by
  refine (Parallel.lift _).bind fun d => ?_
  split
  · exact .fail _
  · have hvalues := Parallel.collect fun entry : NodeId × Argument => hf entry.2.value
    refine (hvalues _).bind fun values => (Parallel.lift _).bind fun _ => ?_
    exact (parallel_serial R c o id).bind fun n => parallel_performCall h depth id _ target

/-! ## Expressions -/

theorem parallel_literal (depth : Nat) (id : NodeId) (l : Literal) :
    Parallel R (c.literal depth f id l) ((c.under o).literal depth k id l) := by
  cases l with
  | number text => exact (Parallel.lift _).bind fun _ => .pure _
  | bool text =>
      simp only [literal]
      cases boolOfText? text with
      | some b => exact .pure _
      | none => exact .fail _
  | tone frequency duration =>
      refine (hf frequency).bind fun _ => (hf duration).bind fun _ => ?_
      refine (parallel_serial R c o id).bind fun _ => ?_
      exact .line_bind (h.steady _ trivial) (.pure _)
  | text _ | lineFeed | emptyList _ | silence => exact .pure _

theorem parallel_expressionCode (depth : Nat) (id : NodeId) (e : Expression) :
    Parallel R (c.expressionCode depth f id e) ((c.under o).expressionCode depth k id e) := by
  have hserial := parallel_serial R c o id
  cases e with
  | binary op left right =>
      refine (hf left).bind fun a => (hf right).bind fun b => hserial.bind fun t => ?_
      rw [operation_eq, operation_eq]
      exact .inr ⟨rfl, h.operation depth t op a b⟩
  | unary op right =>
      refine (hf right).bind fun _ => hserial.bind fun _ => ?_
      exact .line_bind (h.steady _ trivial) (.pure _)
  | read => exact (parallel_variableRead R c o id).bind fun _ => .pure _
  | literal l => exact parallel_literal h hf depth id l
  | builtin call =>
      simp only [expressionCode]
      split
      · refine hserial.bind fun t => ?_
        exact (parallel_builtinCall h hf depth id call (some t)).bind fun _ => .pure _
      · exact .fail _
  | call args =>
      refine hserial.bind fun t => ?_
      exact (parallel_userCall h hf depth id args (some t)).bind fun _ => .pure _

end

theorem parallel_expression (depth fuel : Nat) (id : NodeId) :
    Parallel R (c.expression depth fuel id) ((c.under o).expression depth fuel id) := by
  induction fuel generalizing id with
  | zero => exact .fail _
  | succ fuel ih =>
      exact (Parallel.lift _).bind fun e => parallel_expressionCode h ih depth id e

theorem parallel_operand (depth : Nat) (id : NodeId) :
    Parallel R (c.operand depth id) ((c.under o).operand depth id) :=
  parallel_expression h depth _ id

/-! ## Statements -/

theorem parallel_declaration (depth : Nat) (id : NodeId) (d : Declaration) :
    Parallel R (c.declaration depth id d) ((c.under o).declaration depth id d) :=
  (parallel_serial R c o id).bind fun n => .line (h.declaration depth n d.type.initial d.name)

theorem parallel_declarations (depth : Nat) (head : NodeId) :
    Parallel R (c.declarations depth head) ((c.under o).declarations depth head) := by
  refine (Parallel.each (fun entry : NodeId × Declaration => ?_) _).bind fun _ => .lift _
  exact parallel_declaration h depth entry.1 entry.2

theorem parallel_assignment (depth : Nat) (target value : NodeId) {code : Nat → Operand → Code}
    (hsteady : ∀ n a, (code n a).Steady) :
    Parallel R (c.assignment depth target value code)
      ((c.under o).assignment depth target value code) := by
  refine (Parallel.lift _).bind fun e => ?_
  cases e with
  | read =>
      refine (parallel_variableRead R c o target).bind fun n => ?_
      exact (parallel_operand h depth value).bind fun a => .line (h.steady _ (hsteady n a))
  | binary _ _ _ | unary _ _ | literal _ | builtin _ | call _ => exact .fail _

theorem parallel_statement {nested nested' : Nat → NodeId → Emission Unit}
    (hnested : ∀ depth x, Parallel R (nested depth x) (nested' depth x)) (depth : Nat)
    (id : NodeId) (s : StatementKind) :
    Parallel R (c.statement nested depth id s) ((c.under o).statement nested' depth id s) := by
  cases s with
  | assign target value | addAssign target value =>
      exact parallel_assignment h depth target value fun _ _ => trivial
  | branch condition onTrue onFalse =>
      refine (parallel_operand h depth condition).bind fun _ => ?_
      refine .line_bind (h.steady _ trivial) ((hnested (depth + 1) onTrue).bind fun _ => ?_)
      refine .line_bind (h.steady _ trivial) ?_
      cases onFalse with
      | none => exact .pure ()
      | some body =>
          refine .line_bind (h.steady _ trivial) ((hnested (depth + 1) body).bind fun _ => ?_)
          exact .line (h.steady _ trivial)
  | whileTrue condition body =>
      refine .line_bind (h.steady _ trivial) ?_
      refine (parallel_operand h (depth + 1) condition).bind fun _ => ?_
      refine .line_bind (h.steady _ trivial) (.line_bind (h.steady _ trivial) ?_)
      refine .line_bind (h.steady _ trivial) ((hnested (depth + 1) body).bind fun _ => ?_)
      exact .line (h.steady _ trivial)
  | repeatTimes count body =>
      refine (parallel_operand h depth count).bind fun _ => (parallel_serial R c o id).bind fun _ => ?_
      refine .line_bind (h.steady _ trivial) (.line_bind (h.steady _ trivial) ?_)
      exact (hnested (depth + 1) body).bind fun _ => .line (h.steady _ trivial)
  | compound locals body =>
      refine .line_bind (h.steady _ trivial) ?_
      refine (parallel_declarations h (depth + 1) locals).bind fun _ => ?_
      exact (hnested (depth + 1) body).bind fun _ => .line (h.steady _ trivial)
  | breakLoop | continueLoop => exact .line (h.steady _ trivial)
  | returnValue value =>
      cases value with
      | none => exact .line (h.steady _ trivial)
      | some x => exact (parallel_operand h depth x).bind fun _ => .line (h.steady _ trivial)
  | builtin call => exact parallel_builtinCall h (parallel_operand h depth) depth id call none
  | call args => exact parallel_userCall h (parallel_operand h depth) depth id args none

theorem parallel_statementsWithin (fuel depth : Nat) (head : NodeId) :
    Parallel R (c.statementsWithin fuel depth head)
      ((c.under o).statementsWithin fuel depth head) := by
  induction fuel generalizing depth head with
  | zero => exact .fail _
  | succ fuel ih =>
      refine (Parallel.each (fun entry : NodeId × Statement => ?_) _).bind fun _ => .lift _
      exact parallel_statement h ih depth entry.1 entry.2.kind

theorem parallel_statements (depth : Nat) (head : NodeId) :
    Parallel R (c.statements depth head) ((c.under o).statements depth head) :=
  parallel_statementsWithin h _ depth head

/-! ## Roots -/

theorem parallel_globalEntries (depth : Nat) (entries : List (NodeId × Declaration))
    (declared : List NodeId) :
    Parallel R (c.globalEntries depth entries declared)
      ((c.under o).globalEntries depth entries declared) := by
  induction entries generalizing declared with
  | nil => exact .pure _
  | cons entry entries ih =>
      unfold globalEntries
      split
      · exact (Parallel.event _).bind fun _ => ih declared
      · exact (parallel_declaration h depth entry.1 entry.2).bind fun _ => ih _

theorem parallel_globals (depth : Nat) (roots declared : List NodeId) :
    Parallel R (c.globals depth roots declared) ((c.under o).globals depth roots declared) := by
  induction roots generalizing declared with
  | nil => exact .pure _
  | cons root roots ih =>
      refine (Parallel.lift (c.graph.node root)).bind fun n => ?_
      cases n.kind with
      | declaration d =>
          refine (parallel_globalEntries h depth _ declared).bind fun _ => ?_
          exact (Parallel.lift _).bind fun _ => ih _
      | statement _ | declarationEnd | statementEnd | expression _ | argument _ | argumentEnd
        | definition _ | handler _ => exact ih declared

theorem parallel_globalDeclarations (depth : Nat) (roots : List NodeId) :
    Parallel R (c.globalDeclarations depth roots)
      ((c.under o).globalDeclarations depth roots) :=
  (parallel_globals h depth roots []).bind fun _ => .pure ()

theorem parallel_definition (depth : Nat) (id : NodeId) (d : Definition) :
    Parallel R (c.definition depth id d) ((c.under o).definition depth id d) := by
  refine (parallel_serial R c o id).bind fun n => (Parallel.event _).bind fun _ => ?_
  rw [params_eq, params_eq]
  simp only [bind_assoc, pure_bind]
  have hserials := Parallel.collect fun entry : NodeId × Declaration => parallel_serial R c o entry.1
  refine (hserials _).bind fun serials => (Parallel.lift _).bind fun _ => ?_
  refine .line_bind (h.function depth n _ serials d.name) ?_
  exact (parallel_statements h (depth + 1) d.body).bind fun _ => .line (h.steady _ trivial)

theorem parallel_definitions (depth : Nat) (roots : List NodeId) :
    Parallel R (c.definitions depth roots) ((c.under o).definitions depth roots) := by
  refine .each (fun root => (Parallel.lift (c.graph.node root)).bind fun n => ?_) roots
  cases n.kind with
  | definition d => exact parallel_definition h depth root d
  | statement _ | declarationEnd | statementEnd | expression _ | argument _ | argumentEnd
    | declaration _ | handler _ => exact .pure ()

theorem parallel_delay (depth : Nat) (id : NodeId) (trigger : Trigger) :
    Parallel R (delay depth id trigger) (delay depth id trigger) := by
  cases trigger with
  | keyPressed key => exact .pure ()
  | delayedStart text => exact (Parallel.lift _).bind fun _ => .line (h.steady _ trivial)

theorem parallel_registration (depth : Nat) (id : NodeId) (n : Nat) (trigger : Trigger) :
    Parallel R (registration depth id n trigger) (registration depth id n trigger) := by
  unfold registration
  cases trigger.event? with
  | some event => exact .line (h.steady _ trivial)
  | none => exact .event _

theorem parallel_handler (depth : Nat) (id : NodeId) (x : Handler) :
    Parallel R (c.handler depth id x) ((c.under o).handler depth id x) := by
  refine (parallel_serial R c o id).bind fun n => (Parallel.event _).bind fun _ => ?_
  refine .line_bind (h.steady _ trivial) (.line_bind (h.steady _ ⟨rfl, rfl⟩) ?_)
  refine .line_bind (h.steady _ trivial) (.line_bind (h.steady _ trivial) ?_)
  refine (parallel_delay h (depth + 3) id x.trigger).bind fun _ => ?_
  refine (parallel_statements h (depth + 3) x.body).bind fun _ => ?_
  refine .line_bind (h.steady _ trivial) (.line_bind (h.steady _ trivial) ?_)
  refine .line_bind (h.steady _ trivial) (.line_bind (h.steady _ trivial) ?_)
  refine .line_bind (h.steady _ trivial) (.line_bind (h.steady _ trivial) ?_)
  exact parallel_registration h depth id n x.trigger

theorem parallel_handlers (depth : Nat) (roots : List NodeId) :
    Parallel R (c.handlers depth roots) ((c.under o).handlers depth roots) := by
  refine .each (fun root => (Parallel.lift (c.graph.node root)).bind fun n => ?_) roots
  cases n.kind with
  | handler x => exact parallel_handler h depth root x
  | statement _ | declarationEnd | statementEnd | expression _ | argument _ | argumentEnd
    | declaration _ | definition _ => exact .pure ()

end

end Context

end Emission

end BlockScript
