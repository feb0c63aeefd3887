import BlockScript.Emission.Roots
import BlockScript.Proofs.Emission.Sequence
import BlockScript.Proofs.Graph.ClearTexts
import BlockScript.Proofs.Script.ClearTexts
/-!
# Code without the user's texts

`Cleared F x y`: the emission `y` is `x` with the texts in its lines emptied and `F` applied to its
value.  The events are the same, and so is the fault if there is one.  The code of a context with
emptied texts is the code of the context with emptied texts (`cleared_operand`,
`cleared_statements`): texts are copied into lines, and nothing depends on them.
-/

namespace BlockScript.Emission

open Script (Line Code Call Operand)

variable {α β γ δ : Type}

/-- The second emission is the first with its texts emptied. -/
structure Cleared (F : α → β) (x : Emission α) (y : Emission β) : Prop where
  lines : y.output.lines = x.output.lines.map Line.clearTexts
  events : y.output.events = x.output.events
  result : y.result = x.result.map F

abbrev ClearedSame (x y : Emission α) : Prop :=
  Cleared (fun a => a) x y

theorem ClearedSame.result_eq {x y : Emission α} (h : ClearedSame x y) : y.result = x.result := by
  rw [h.result]
  cases x.result <;> rfl

namespace Cleared

theorem pure {F : α → β} {a : α} {b : β} (h : F a = b) :
    Cleared F (Pure.pure a) (Pure.pure b) :=
  ⟨rfl, rfl, congrArg Except.ok h.symm⟩

theorem fail (F : α → β) (e : GraphFault) : Cleared F (fail e) (fail e) :=
  ⟨rfl, rfl, rfl⟩

theorem lift (F : α → β) (x : Except GraphFault α) : Cleared F (lift x) (lift (x.map F)) :=
  ⟨rfl, rfl, rfl⟩

theorem lift_same (x : Except GraphFault α) : ClearedSame (Emission.lift x) (Emission.lift x) :=
  ⟨rfl, rfl, by cases x <;> rfl⟩

theorem line {code code' : Code} (h : code.clearTexts = code') (depth : Nat) :
    ClearedSame (line depth code) (line depth code') := by
  subst h
  exact ⟨rfl, rfl, rfl⟩

theorem event (e : Event) : ClearedSame (event e) (event e) :=
  ⟨rfl, rfl, rfl⟩

theorem bind {F : α → β} {G : γ → δ} {x : Emission α} {y : Emission β} {f : α → Emission γ}
    {k : β → Emission δ} (h : Cleared F x y) (hf : ∀ a, Cleared G (f a) (k (F a))) :
    Cleared G (x >>= f) (y >>= k) := by
  have hresult := h.result
  cases hx : x.result with
  | error e =>
      rw [hx] at hresult
      rw [bind_of_error hx, bind_of_error hresult]
      exact ⟨h.lines, h.events, rfl⟩
  | ok a =>
      rw [hx] at hresult
      rw [bind_of_ok hx, bind_of_ok hresult]
      obtain ⟨hlines, hevents, hvalue⟩ := hf a
      refine ⟨?_, ?_, hvalue⟩
      · rw [Output.lines_append, Output.lines_append, List.map_append, h.lines, hlines]
      · rw [Output.events_append, Output.events_append, h.events, hevents]

theorem line_bind {G : γ → δ} {code code' : Code} {f : Unit → Emission γ} {k : Unit → Emission δ}
    (h : code.clearTexts = code') (depth : Nat) (hf : Cleared G (f ()) (k ())) :
    Cleared G (Emission.line depth code >>= f) (Emission.line depth code' >>= k) :=
  (line h depth).bind fun _ => hf

theorem each {f k : α → Emission Unit} (h : ∀ a, ClearedSame (f a) (k a)) (as : List α) :
    ClearedSame (each f as) (each k as) := by
  induction as with
  | nil => exact .pure rfl
  | cons a as ih => exact (h a).bind fun _ => ih

theorem collect {F : β → γ} {f : α → Emission β} {k : α → Emission γ}
    (h : ∀ a, Cleared F (f a) (k a)) (as : List α) :
    Cleared (List.map F) (collect f as) (collect k as) := by
  induction as with
  | nil => exact .pure rfl
  | cons a as ih => exact (h a).bind fun _ => ih.bind fun _ => .pure rfl

theorem collect_same {f k : α → Emission β} (h : ∀ a, ClearedSame (f a) (k a)) (as : List α) :
    ClearedSame (Emission.collect f as) (Emission.collect k as) := by
  have hcollect := collect h as
  rw [List.map_id_fun'] at hcollect
  exact hcollect

end Cleared

theorem clearTexts_initial (type : VarType) : type.initial.clearTexts = type.initial := by
  cases type with
  | single elem => cases elem <;> rfl
  | list elem => rfl

theorem clearTexts_substitute {func : Builtin} {a : Operand} (h : func.substitute? = some a) :
    a.clearTexts = a := by
  have helem : ∀ elem : ElemType, elem.initial.clearTexts = elem.initial := fun elem =>
    clearTexts_initial (.single elem)
  unfold Builtin.substitute? at h
  split at h
  all_goals
    cases h
  · exact helem _
  · exact helem _

namespace Context

def clearTexts (c : Context) : Context :=
  { c with graph := c.graph.clearTexts }

variable (c : Context) (depth : Nat) (id : NodeId)

theorem cleared_serial : ClearedSame (c.serial id) (c.clearTexts.serial id) :=
  .lift_same _

theorem cleared_variableRead : ClearedSame (c.variableRead id) (c.clearTexts.variableRead id) := by
  have hread : c.clearTexts.graph.declaration (c.clearTexts.numbering.bearer id) =
      c.graph.declaration (c.numbering.bearer id) := c.graph.declaration_clearTexts _
  unfold variableRead
  rw [hread]
  refine (Cleared.lift_same _).bind fun o => ?_
  cases o with
  | none => exact .fail _ _
  | some d => exact c.cleared_serial id

/-! ## Calls -/

theorem cleared_whenDebug {x y : Emission Unit} (h : ClearedSame x y) :
    ClearedSame (c.whenDebug x) (c.clearTexts.whenDebug y) := by
  by_cases hdebug : c.options.isDebug
  · simpa [whenDebug, clearTexts, hdebug] using h
  · simpa [whenDebug, clearTexts, hdebug] using Cleared.pure rfl

theorem cleared_performCall (call : Call) (target : Option Nat) :
    ClearedSame (c.performCall depth id call target)
      (c.clearTexts.performCall depth id call.clearTexts target) := by
  have hrecord : ClearedSame (do let n ← c.serial id; .line depth (.enterCall n))
      (do let n ← c.clearTexts.serial id; .line depth (.enterCall n)) :=
    (c.cleared_serial id).bind fun n => .line rfl depth
  have henter := c.cleared_whenDebug hrecord
  have hreturn : ClearedSame (.line depth .leaveCall) (.line depth .leaveCall) := .line rfl depth
  have hleave := c.cleared_whenDebug hreturn
  refine henter.bind fun _ => ?_
  cases target with
  | some t => exact .line_bind rfl depth hleave
  | none => exact .line_bind rfl depth hleave

section

variable {f f' : NodeId → Emission Operand} (h : ∀ x, Cleared Operand.clearTexts (f x) (f' x))
include h

theorem cleared_builtinCall (call : BuiltinCall) (target : Option Nat) :
    ClearedSame (c.builtinCall depth f id call target)
      (c.clearTexts.builtinCall depth f' id call target) := by
  unfold builtinCall
  cases call.func.function? call.choice with
  | none => exact .fail _ _
  | some name =>
      simp only
      split
      · exact .fail _ _
      · refine (Cleared.collect h call.args).bind fun args => ?_
        refine (c.cleared_performCall depth id ⟨.library name, args⟩ target).bind fun _ => ?_
        cases target with
        | none => exact .pure rfl
        | some t =>
            cases hvalue : call.func.substitute? with
            | none => exact .pure rfl
            | some value =>
                have hclear := clearTexts_substitute hvalue
                refine .line_bind rfl depth (.line ?_ (depth + 1))
                simp only [Code.clearTexts, hclear]

theorem cleared_userCall (args : NodeId) (target : Option Nat) :
    ClearedSame (c.userCall depth f id args target)
      (c.clearTexts.userCall depth f' id args target) := by
  have hdefinition : c.clearTexts.graph.definition (c.clearTexts.numbering.bearer id) =
      c.graph.definition (c.numbering.bearer id) := c.graph.definition_clearTexts _
  have harguments : c.clearTexts.graph.arguments args = c.graph.arguments args :=
    c.graph.arguments_clearTexts args
  unfold userCall
  simp only [hdefinition, harguments]
  refine (Cleared.lift_same _).bind fun d => ?_
  split
  · exact .fail _ _
  · have hvalues := Cleared.collect fun entry : NodeId × Argument => h entry.2.value
    refine (hvalues _).bind fun values => ?_
    refine (Cleared.lift_same _).bind fun _ => (c.cleared_serial id).bind fun n => ?_
    exact c.cleared_performCall depth id ⟨.user n, values⟩ target

/-! ## Expressions -/

theorem cleared_literal (l : Literal) :
    Cleared Operand.clearTexts (c.literal depth f id l)
      (c.clearTexts.literal depth f' id l.clearTexts) := by
  cases l with
  | number text => exact (Cleared.lift_same _).bind fun _ => .pure rfl
  | bool text =>
      simp only [literal, Literal.clearTexts]
      cases boolOfText? text with
      | some b => exact .pure rfl
      | none => exact .fail _ _
  | tone frequency duration =>
      refine (h frequency).bind fun _ => (h duration).bind fun _ => ?_
      refine (c.cleared_serial id).bind fun _ => ?_
      exact .line_bind rfl depth (.pure rfl)
  | text _ | lineFeed | emptyList _ | silence => exact .pure rfl

theorem cleared_expressionCode (e : Expression) :
    Cleared Operand.clearTexts (c.expressionCode depth f id e)
      (c.clearTexts.expressionCode depth f' id e.clearTexts) := by
  have hserial := c.cleared_serial id
  cases e with
  | binary op left right =>
      refine (h left).bind fun _ => (h right).bind fun _ => hserial.bind fun _ => ?_
      refine .line_bind rfl depth ?_
      have hoptions : c.clearTexts.options = c.options := rfl
      rw [hoptions]
      split
      · exact .line_bind rfl depth (.line_bind rfl (depth + 1) (.pure rfl))
      · exact .pure rfl
  | unary op right =>
      refine (h right).bind fun _ => hserial.bind fun _ => ?_
      exact .line_bind rfl depth (.pure rfl)
  | read => exact (c.cleared_variableRead id).bind fun _ => .pure rfl
  | literal l => exact c.cleared_literal depth id h l
  | builtin call =>
      simp only [expressionCode, Expression.clearTexts]
      split
      · refine hserial.bind fun t => ?_
        exact (c.cleared_builtinCall depth id h call (some t)).bind fun _ => .pure rfl
      · exact .fail _ _
  | call args =>
      refine hserial.bind fun t => ?_
      exact (c.cleared_userCall depth id h args (some t)).bind fun _ => .pure rfl

end

theorem cleared_expression (fuel : Nat) :
    Cleared Operand.clearTexts (c.expression depth fuel id)
      (c.clearTexts.expression depth fuel id) := by
  induction fuel generalizing id with
  | zero => exact .fail _ _
  | succ fuel ih =>
      have hread : c.clearTexts.graph.expression id =
          (c.graph.expression id).map Expression.clearTexts := c.graph.expression_clearTexts id
      unfold expression
      rw [hread]
      exact (Cleared.lift _ _).bind fun e => c.cleared_expressionCode depth id ih e

theorem cleared_operand :
    Cleared Operand.clearTexts (c.operand depth id) (c.clearTexts.operand depth id) := by
  have hbudget : c.clearTexts.graph.budget = c.graph.budget := c.graph.budget_clearTexts
  unfold operand
  rw [hbudget]
  exact c.cleared_expression depth id _

/-! ## Statements -/

theorem cleared_declaration (d : Declaration) :
    ClearedSame (c.declaration depth id d) (c.clearTexts.declaration depth id d) := by
  refine (c.cleared_serial id).bind fun n => .line ?_ depth
  simp only [Code.clearTexts, clearTexts_initial]
  rfl

theorem cleared_declarations (head : NodeId) :
    ClearedSame (c.declarations depth head) (c.clearTexts.declarations depth head) := by
  have hchain : c.clearTexts.graph.declarations head = c.graph.declarations head :=
    c.graph.declarations_clearTexts head
  unfold declarations
  simp only [hchain]
  refine (Cleared.each (fun entry : NodeId × Declaration => ?_) _).bind fun _ => .lift_same _
  exact c.cleared_declaration depth entry.1 entry.2

theorem cleared_assignment (target value : NodeId) {code : Nat → Operand → Code}
    (hcode : ∀ n a, (code n a).clearTexts = code n a.clearTexts) :
    ClearedSame (c.assignment depth target value code)
      (c.clearTexts.assignment depth target value code) := by
  have hread : c.clearTexts.graph.expression target =
      (c.graph.expression target).map Expression.clearTexts := c.graph.expression_clearTexts target
  unfold assignment
  rw [hread]
  refine (Cleared.lift _ _).bind fun e => ?_
  cases e with
  | read =>
      refine (c.cleared_variableRead target).bind fun n => ?_
      exact (c.cleared_operand depth value).bind fun a => .line (hcode n a) depth
  | binary _ _ _ | unary _ _ | literal _ | builtin _ | call _ => exact .fail _ _

theorem cleared_statement {nested nested' : Nat → NodeId → Emission Unit}
    (h : ∀ depth x, ClearedSame (nested depth x) (nested' depth x)) (s : StatementKind) :
    ClearedSame (c.statement nested depth id s) (c.clearTexts.statement nested' depth id s) := by
  cases s with
  | assign target value | addAssign target value =>
      exact c.cleared_assignment depth target value fun _ _ => rfl
  | branch condition onTrue onFalse =>
      refine (c.cleared_operand depth condition).bind fun _ => .line_bind rfl depth ?_
      refine (h (depth + 1) onTrue).bind fun _ => .line_bind rfl depth ?_
      cases onFalse with
      | none => exact .pure rfl
      | some body =>
          exact .line_bind rfl depth ((h (depth + 1) body).bind fun _ => .line rfl depth)
  | whileTrue condition body =>
      refine .line_bind rfl depth ((c.cleared_operand (depth + 1) condition).bind fun _ => ?_)
      refine .line_bind rfl (depth + 1) (.line_bind rfl (depth + 2) ?_)
      exact .line_bind rfl (depth + 1) ((h (depth + 1) body).bind fun _ => .line rfl depth)
  | repeatTimes count body =>
      refine (c.cleared_operand depth count).bind fun _ => (c.cleared_serial id).bind fun _ => ?_
      refine .line_bind rfl depth (.line_bind rfl depth ?_)
      exact (h (depth + 1) body).bind fun _ => .line rfl depth
  | compound locals body =>
      refine .line_bind rfl depth ((c.cleared_declarations (depth + 1) locals).bind fun _ => ?_)
      exact (h (depth + 1) body).bind fun _ => .line rfl depth
  | breakLoop | continueLoop => exact .line rfl depth
  | returnValue value =>
      cases value with
      | none => exact .line rfl depth
      | some x => exact (c.cleared_operand depth x).bind fun _ => .line rfl depth
  | builtin call => exact c.cleared_builtinCall depth id (c.cleared_operand depth) call none
  | call args => exact c.cleared_userCall depth id (c.cleared_operand depth) args none

theorem cleared_statementsWithin (fuel : Nat) (head : NodeId) :
    ClearedSame (c.statementsWithin fuel depth head)
      (c.clearTexts.statementsWithin fuel depth head) := by
  induction fuel generalizing depth head with
  | zero => exact .fail _ _
  | succ fuel ih =>
      have hchain : c.clearTexts.graph.statements head = c.graph.statements head :=
        c.graph.statements_clearTexts head
      unfold statementsWithin
      simp only [hchain]
      refine (Cleared.each (fun entry : NodeId × Statement => ?_) _).bind fun _ => .lift_same _
      exact c.cleared_statement depth entry.1 ih entry.2.kind

theorem cleared_statements (head : NodeId) :
    ClearedSame (c.statements depth head) (c.clearTexts.statements depth head) := by
  have hbudget : c.clearTexts.graph.budget = c.graph.budget := c.graph.budget_clearTexts
  unfold statements
  rw [hbudget]
  exact c.cleared_statementsWithin depth _ head

/-! ## Roots -/

theorem cleared_node_bind {f k : Node → Emission β}
    (h : ∀ n, ClearedSame (f n) (k n.clearTexts)) :
    ClearedSame (.lift (c.graph.node id) >>= f) (.lift (c.clearTexts.graph.node id) >>= k) := by
  have hnode : c.clearTexts.graph.node id = (c.graph.node id).map Node.clearTexts :=
    c.graph.node_clearTexts id
  rw [hnode]
  exact (Cleared.lift _ _).bind h

theorem cleared_globalEntries (entries : List (NodeId × Declaration)) (declared : List NodeId) :
    ClearedSame (c.globalEntries depth entries declared)
      (c.clearTexts.globalEntries depth entries declared) := by
  induction entries generalizing declared with
  | nil => exact .pure rfl
  | cons entry entries ih =>
      unfold globalEntries
      split
      · exact (Cleared.event _).bind fun _ => ih declared
      · exact (c.cleared_declaration depth entry.1 entry.2).bind fun _ => ih _

theorem cleared_globals (roots declared : List NodeId) :
    ClearedSame (c.globals depth roots declared) (c.clearTexts.globals depth roots declared) := by
  induction roots generalizing declared with
  | nil => exact .pure rfl
  | cons root roots ih =>
      have hchain : c.clearTexts.graph.declarations root = c.graph.declarations root :=
        c.graph.declarations_clearTexts root
      unfold globals
      simp only [hchain]
      refine c.cleared_node_bind root fun ⟨kind, _, _⟩ => ?_
      cases kind with
      | declaration d =>
          refine (c.cleared_globalEntries depth _ declared).bind fun _ => ?_
          exact (Cleared.lift_same _).bind fun _ => ih _
      | statement _ | declarationEnd | statementEnd | expression _ | argument _ | argumentEnd
        | definition _ | handler _ => exact ih declared

theorem cleared_params (head : NodeId) :
    ClearedSame (c.params head) (c.clearTexts.params head) := by
  have hchain : c.clearTexts.graph.declarations head = c.graph.declarations head :=
    c.graph.declarations_clearTexts head
  unfold params
  simp only [hchain]
  refine (Cleared.collect_same (fun entry : NodeId × Declaration => ?_) _).bind fun _ => ?_
  · exact (c.cleared_serial entry.1).bind fun _ => .pure rfl
  · exact (Cleared.lift_same _).bind fun _ => .pure rfl

theorem cleared_definition (d : Definition) :
    ClearedSame (c.definition depth id d) (c.clearTexts.definition depth id d) := by
  refine (c.cleared_serial id).bind fun _ => (Cleared.event _).bind fun _ => ?_
  refine (c.cleared_params d.params).bind fun _ => .line_bind rfl depth ?_
  exact (c.cleared_statements (depth + 1) d.body).bind fun _ => .line rfl depth

omit c in
theorem cleared_delay (trigger : Trigger) :
    ClearedSame (delay depth id trigger) (delay depth id trigger) := by
  cases trigger with
  | keyPressed key => exact .pure rfl
  | delayedStart text => exact (Cleared.lift_same _).bind fun _ => .line rfl depth

omit c in
theorem cleared_registration (n : Nat) (trigger : Trigger) :
    ClearedSame (registration depth id n trigger) (registration depth id n trigger) := by
  unfold registration
  cases trigger.event? with
  | some event => exact .line rfl depth
  | none => exact .event _

theorem cleared_handler (x : Handler) :
    ClearedSame (c.handler depth id x) (c.clearTexts.handler depth id x) := by
  refine (c.cleared_serial id).bind fun n => (Cleared.event _).bind fun _ => ?_
  refine .line_bind rfl depth (.line_bind rfl depth ?_)
  refine .line_bind rfl (depth + 1) (.line_bind rfl (depth + 2) ?_)
  refine (cleared_delay (depth + 3) id x.trigger).bind fun _ => ?_
  refine (c.cleared_statements (depth + 3) x.body).bind fun _ => ?_
  refine .line_bind rfl (depth + 2) (.line_bind rfl (depth + 2) ?_)
  refine .line_bind rfl (depth + 3) (.line_bind rfl (depth + 2) ?_)
  refine .line_bind rfl (depth + 1) (.line_bind rfl depth ?_)
  exact cleared_registration depth id n x.trigger

theorem cleared_definitions (roots : List NodeId) :
    ClearedSame (c.definitions depth roots) (c.clearTexts.definitions depth roots) := by
  refine .each (fun root => c.cleared_node_bind root fun ⟨kind, _, _⟩ => ?_) roots
  cases kind with
  | definition d => exact c.cleared_definition depth root d
  | statement _ | declarationEnd | statementEnd | expression _ | argument _ | argumentEnd
    | declaration _ | handler _ => exact .pure rfl

theorem cleared_handlers (roots : List NodeId) :
    ClearedSame (c.handlers depth roots) (c.clearTexts.handlers depth roots) := by
  refine .each (fun root => c.cleared_node_bind root fun ⟨kind, _, _⟩ => ?_) roots
  cases kind with
  | handler x => exact c.cleared_handler depth root x
  | statement _ | declarationEnd | statementEnd | expression _ | argument _ | argumentEnd
    | declaration _ | definition _ => exact .pure rfl

end Context

end BlockScript.Emission
