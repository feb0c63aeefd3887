import BlockScript.Proofs.Emission.Lines
import BlockScript.Proofs.Script.Indentation
/-!
# Code is indented by its nesting

`Leads p x q`: whatever lines the emission `x` gives, they lead a reader from the position `p` to
the position `q`.  Sequences of emissions lead from one position to the next, lines that open and
close blocks to the level inside and back.  So every piece of code `Keeps` to the level of its depth:
expressions (`keeps_expression`), chains of statements (`keeps_statements`) and what roots give.
Names shown as comments are the only texts of the user outside of literals, so they have to be off
where a line could show one.
-/

namespace BlockScript.Emission

open Script (Line Code Call Operand Position Reads)

variable {α β : Type}

/-- The lines that the emission gives lead from one position to another. -/
def Leads (p : Position) (x : Emission α) (q : Position) : Prop :=
  ∀ ls a, Gives x ls a → Reads p ls q

/-- The lines that the emission gives stay at one level, or return to it. -/
abbrev Keeps (depth : Nat) (x : Emission α) : Prop :=
  Leads ⟨depth, false⟩ x ⟨depth, false⟩

namespace Leads

variable {p q r : Position} {depth : Nat} {code : Code}

theorem pure (p : Position) (a : α) : Leads p (Pure.pure a) p := by
  intro ls b h
  obtain ⟨_, rfl⟩ := gives_pure.mp h
  exact .nil p

theorem fail (e : GraphFault) : Leads p (fail e : Emission α) q :=
  fun _ _ h => absurd h gives_fail.mp

theorem lift (p : Position) (x : Except GraphFault α) : Leads p (lift x) p := by
  intro ls a h
  obtain ⟨_, rfl⟩ := gives_lift.mp h
  exact .nil p

theorem event (p : Position) (e : Event) : Leads p (event e) p := by
  intro ls u h
  obtain rfl := gives_event.mp h
  exact .nil p

theorem line (h : Reads p [⟨depth, code⟩] q) : Leads p (line depth code) q := by
  intro ls u hgives
  obtain rfl := gives_line.mp hgives
  exact h

/-- One emission after another, which may use that the first gave its value. -/
theorem bind_of_gives {x : Emission α} {f : α → Emission β} (hx : Leads p x q)
    (hf : ∀ ls a, Gives x ls a → Leads q (f a) r) : Leads p (x >>= f) r := by
  intro ls b h
  obtain ⟨a, l₁, l₂, ha, hb, rfl⟩ := gives_bind.mp h
  exact (hx l₁ a ha).append (hf l₁ a ha l₂ b hb)

theorem bind {x : Emission α} {f : α → Emission β} (hx : Leads p x q)
    (hf : ∀ a, Leads q (f a) r) : Leads p (x >>= f) r :=
  hx.bind_of_gives fun _ a _ => hf a

theorem line_bind {f : Unit → Emission β} (h : Reads p [⟨depth, code⟩] q) (hf : Leads q (f ()) r) :
    Leads p (Emission.line depth code >>= f) r :=
  (line h).bind fun _ => hf

theorem each {f : α → Emission Unit} (h : ∀ a, Leads p (f a) p) (as : List α) :
    Leads p (each f as) p := by
  induction as with
  | nil => exact .pure p ()
  | cons a as ih => exact (h a).bind fun _ => ih

theorem collect {f : α → Emission β} (h : ∀ a, Leads p (f a) p) (as : List α) :
    Leads p (collect f as) p := by
  induction as with
  | nil => exact .pure p []
  | cons a as ih => exact (h a).bind fun _ => ih.bind fun _ => .pure p _

end Leads

theorem proper_function {func : Builtin} {choice : Option Choice} {name : String}
    (h : func.function? choice = some name) : (Script.Callee.library name).Proper := by
  have hlist : ∀ op : ListOp, (Script.Callee.library op.function).Proper := by
    intro op
    cases op <;> decide
  unfold Builtin.function? at h
  split at h
  all_goals
    cases h <;> first | decide | exact hlist _

namespace Context

variable {c : Context} {depth : Nat} {id : NodeId}

/-! ## Calls -/

theorem keeps_serial : Keeps depth (c.serial id) :=
  .lift _ _

theorem keeps_variableRead : Keeps depth (c.variableRead id) := by
  refine (Leads.lift _ _).bind fun o => ?_
  cases o with
  | none => exact .fail _
  | some d => exact keeps_serial

theorem keeps_whenDebug {x : Emission Unit} (h : Keeps depth x) : Keeps depth (c.whenDebug x) := by
  unfold whenDebug
  split
  · exact h
  · exact .pure _ ()

theorem keeps_performCall (hdepth : 1 ≤ depth) {call : Call} (hcall : call.callee.Proper)
    (target : Option Nat) : Keeps depth (c.performCall depth id call target) := by
  have hleave : Keeps depth (c.whenDebug (.line depth .leaveCall)) :=
    keeps_whenDebug (.line (.stay hdepth trivial rfl))
  refine (keeps_whenDebug ?_).bind fun _ => ?_
  · exact keeps_serial.bind fun _ => .line (.stay hdepth trivial rfl)
  · cases target with
    | some t => exact .line_bind (.stay hdepth hcall rfl) hleave
    | none => exact .line_bind (.stay hdepth hcall rfl) hleave

section

variable {operand : NodeId → Emission Operand} (hdepth : 1 ≤ depth)
  (h : ∀ x, Keeps depth (operand x))
include hdepth h

theorem keeps_builtinCall (call : BuiltinCall) (target : Option Nat) :
    Keeps depth (c.builtinCall depth operand id call target) := by
  unfold builtinCall
  cases hname : call.func.function? call.choice with
  | none => exact .fail _
  | some name =>
      have hproper := proper_function hname
      simp only
      split
      · exact .fail _
      · refine (Leads.collect h _).bind fun args => ?_
        refine (keeps_performCall hdepth hproper target).bind fun _ => ?_
        split
        · exact .line_bind (.guard hdepth trivial rfl) (.line (.under hdepth trivial rfl))
        · exact .pure _ ()

theorem keeps_userCall (args : NodeId) (target : Option Nat) :
    Keeps depth (c.userCall depth operand id args target) := by
  refine (Leads.lift _ _).bind fun d => ?_
  split
  · exact .fail _
  · refine (Leads.collect (fun entry : NodeId × Argument => h entry.2.value) _).bind fun values => ?_
    refine (Leads.lift _ _).bind fun _ => keeps_serial.bind fun n => ?_
    have hproper : (Script.Callee.user n).Proper := trivial
    exact keeps_performCall hdepth hproper target

/-! ## Expressions -/

theorem keeps_literal (l : Literal) : Keeps depth (c.literal depth operand id l) := by
  cases l with
  | number text => exact (Leads.lift _ _).bind fun x => .pure _ _
  | bool text =>
      simp only [literal]
      split
      · exact .pure _ _
      · exact .fail _
  | tone frequency duration =>
      have hproper : (Script.Callee.library "_createSound").Proper := by decide
      refine (h frequency).bind fun _ => (h duration).bind fun _ => keeps_serial.bind fun t => ?_
      exact .line_bind (.stay hdepth hproper rfl) (.pure _ _)
  | text _ | lineFeed | emptyList _ | silence => exact .pure _ _

theorem keeps_expressionCode (e : Expression) :
    Keeps depth (c.expressionCode depth operand id e) := by
  cases e with
  | binary op left right =>
      refine (h left).bind fun _ => (h right).bind fun _ => keeps_serial.bind fun t => ?_
      refine .line_bind (.stay hdepth trivial rfl) ?_
      split
      · refine .line_bind (.guard hdepth trivial rfl) ?_
        exact .line_bind (.under hdepth trivial rfl) (.pure _ _)
      · exact .pure _ _
  | unary op right =>
      refine (h right).bind fun _ => keeps_serial.bind fun t => ?_
      exact .line_bind (.stay hdepth trivial rfl) (.pure _ _)
  | read => exact keeps_variableRead.bind fun n => .pure _ _
  | literal l => exact keeps_literal hdepth h l
  | builtin call =>
      simp only [expressionCode]
      split
      · refine keeps_serial.bind fun t => ?_
        exact (keeps_builtinCall hdepth h call (some t)).bind fun _ => .pure _ _
      · exact .fail _
  | call args =>
      refine keeps_serial.bind fun t => ?_
      exact (keeps_userCall hdepth h args (some t)).bind fun _ => .pure _ _

end

theorem keeps_expression (hdepth : 1 ≤ depth) (fuel : Nat) (id : NodeId) :
    Keeps depth (c.expression depth fuel id) := by
  induction fuel generalizing id with
  | zero => exact .fail _
  | succ fuel ih => exact (Leads.lift _ _).bind fun e => keeps_expressionCode hdepth ih e

theorem keeps_operand (hdepth : 1 ≤ depth) (id : NodeId) : Keeps depth (c.operand depth id) :=
  keeps_expression hdepth _ id

/-! ## Statements -/

theorem keeps_assignment (hdepth : 1 ≤ depth) {target value : NodeId}
    {code : Nat → Operand → Code} (hclean : ∀ n a, (code n a).Clean)
    (hlast : ∀ n a, (code n a).lastChar = ';') :
    Keeps depth (c.assignment depth target value code) := by
  refine (Leads.lift _ _).bind fun e => ?_
  cases e with
  | read =>
      refine keeps_variableRead.bind fun n => (keeps_operand hdepth value).bind fun a => ?_
      exact .line (.stay hdepth (hclean n a) (hlast n a))
  | binary _ _ _ | unary _ _ | literal _ | builtin _ | call _ => exact .fail _

section

variable (hcomments : c.options.withComments = false)
include hcomments

theorem note_eq_none (name : String) : c.note name = none := by
  simp [note, hcomments]

theorem keeps_declaration (hdepth : 1 ≤ depth) (d : Declaration) :
    Keeps depth (c.declaration depth id d) :=
  keeps_serial.bind fun _ => .line (.stay hdepth (note_eq_none hcomments d.name) rfl)

theorem keeps_declarations (hdepth : 1 ≤ depth) (head : NodeId) :
    Keeps depth (c.declarations depth head) := by
  refine (Leads.each (fun entry : NodeId × Declaration => ?_) _).bind fun _ => .lift _ _
  exact keeps_declaration hcomments hdepth entry.2

theorem keeps_statement {nested : Nat → NodeId → Emission Unit}
    (h : ∀ depth x, 1 ≤ depth → Keeps depth (nested depth x)) (hdepth : 1 ≤ depth)
    (s : StatementKind) : Keeps depth (c.statement nested depth id s) := by
  have hdepth' : 1 ≤ depth + 1 := Nat.le_add_left 1 depth
  have hoperand := keeps_operand (c := c) hdepth
  cases s with
  | assign target value | addAssign target value =>
      exact keeps_assignment hdepth (fun _ _ => trivial) fun _ _ => rfl
  | branch condition onTrue onFalse =>
      refine (hoperand condition).bind fun a => ?_
      refine .line_bind (.opening hdepth trivial rfl) ?_
      refine (h (depth + 1) onTrue hdepth').bind fun _ => .line_bind (.closing hdepth) ?_
      cases onFalse with
      | none => exact .pure _ ()
      | some body =>
          refine .line_bind (.opening hdepth trivial rfl) ?_
          exact (h (depth + 1) body hdepth').bind fun _ => .line (.closing hdepth)
  | whileTrue condition body =>
      refine .line_bind (.opening hdepth trivial rfl) ?_
      refine (keeps_operand hdepth' condition).bind fun a => ?_
      refine .line_bind (.opening hdepth' trivial rfl) ?_
      refine .line_bind (.stay (Nat.le_add_left 1 (depth + 1)) trivial rfl) ?_
      refine .line_bind (.closing hdepth') ?_
      exact (h (depth + 1) body hdepth').bind fun _ => .line (.closing hdepth)
  | repeatTimes count body =>
      refine (hoperand count).bind fun a => keeps_serial.bind fun n => ?_
      refine .line_bind (.stay hdepth trivial rfl) (.line_bind (.opening hdepth trivial rfl) ?_)
      exact (h (depth + 1) body hdepth').bind fun _ => .line (.closing hdepth)
  | compound locals body =>
      refine .line_bind (.opening hdepth trivial rfl) ?_
      refine (keeps_declarations hcomments hdepth' locals).bind fun _ => ?_
      exact (h (depth + 1) body hdepth').bind fun _ => .line (.closing hdepth)
  | breakLoop | continueLoop => exact .line (.stay hdepth trivial rfl)
  | returnValue value =>
      cases value with
      | none => exact .line (.stay hdepth trivial rfl)
      | some x => exact (hoperand x).bind fun _ => .line (.stay hdepth trivial rfl)
  | builtin call => exact keeps_builtinCall hdepth hoperand call none
  | call args => exact keeps_userCall hdepth hoperand args none

theorem keeps_statementsWithin (fuel : Nat) (depth : Nat) (head : NodeId) (hdepth : 1 ≤ depth) :
    Keeps depth (c.statementsWithin fuel depth head) := by
  induction fuel generalizing depth head with
  | zero => exact .fail _
  | succ fuel ih =>
      refine (Leads.each (fun entry : NodeId × Statement => ?_) _).bind fun _ => .lift _ _
      exact keeps_statement hcomments ih hdepth entry.2.kind

theorem keeps_statements (hdepth : 1 ≤ depth) (head : NodeId) :
    Keeps depth (c.statements depth head) :=
  keeps_statementsWithin hcomments _ depth head hdepth

/-! ## Roots -/

theorem keeps_globalEntries (hdepth : 1 ≤ depth) (entries : List (NodeId × Declaration))
    (declared : List NodeId) : Keeps depth (c.globalEntries depth entries declared) := by
  induction entries generalizing declared with
  | nil => exact .pure _ _
  | cons entry entries ih =>
      unfold globalEntries
      split
      · exact (Leads.event _ _).bind fun _ => ih declared
      · exact (keeps_declaration hcomments hdepth entry.2).bind fun _ => ih _

theorem keeps_globals (hdepth : 1 ≤ depth) (roots declared : List NodeId) :
    Keeps depth (c.globals depth roots declared) := by
  induction roots generalizing declared with
  | nil => exact .pure _ _
  | cons root roots ih =>
      refine (Leads.lift _ _).bind fun n => ?_
      split
      · refine (keeps_globalEntries hcomments hdepth _ declared).bind fun declared' => ?_
        exact (Leads.lift _ _).bind fun _ => ih declared'
      · exact ih declared

theorem keeps_globalDeclarations (hdepth : 1 ≤ depth) (roots : List NodeId) :
    Keeps depth (c.globalDeclarations depth roots) :=
  (keeps_globals hcomments hdepth roots []).bind fun _ => .pure _ ()

theorem note_eq_none_of_gives_params {head : NodeId} {ls : List Line} {params : List Script.Param}
    (h : Gives (c.params head) ls params) : ∀ p ∈ params, p.note = none := by
  obtain ⟨_, _, hshown⟩ := forall₂_of_gives_params h
  have hnone : List.Forall₂ (fun p (_ : NodeId × Declaration) => p.note = none ∧ True) params
      (c.graph.declarations head).entries :=
    (hshown.imp fun entry p hp =>
      ⟨hp.2.trans (note_eq_none hcomments entry.2.name), trivial⟩).flip
  exact ((List.forall₂_and_left params _).mp hnone).1

theorem keeps_definition (hdepth : 1 ≤ depth) (d : Definition) :
    Keeps depth (c.definition depth id d) := by
  refine keeps_serial.bind fun n => (Leads.event _ _).bind fun _ => ?_
  have hparams : Keeps depth (c.params d.params) := by
    intro ls params h
    obtain ⟨rfl, _⟩ := forall₂_of_gives_params h
    exact .nil _
  refine hparams.bind_of_gives fun ls params h => ?_
  have hclean : (Code.openFunction n params (c.note d.name)).Clean :=
    ⟨note_eq_none_of_gives_params hcomments h, note_eq_none hcomments d.name⟩
  refine .line_bind (.opening hdepth hclean rfl) ?_
  have hbody := keeps_statements hcomments (Nat.le_add_left 1 depth) d.body
  exact hbody.bind fun _ => .line (.closing hdepth)

theorem keeps_definitions (hdepth : 1 ≤ depth) (roots : List NodeId) :
    Keeps depth (c.definitions depth roots) := by
  refine .each (fun root => (Leads.lift _ _).bind fun n => ?_) roots
  split
  · exact keeps_definition hcomments hdepth _
  · exact .pure _ ()

omit hcomments in
theorem keeps_delay (hdepth : 1 ≤ depth) (trigger : Trigger) :
    Keeps depth (delay depth id trigger) := by
  cases trigger with
  | keyPressed key => exact .pure _ ()
  | delayedStart text =>
      have hproper : (Script.Callee.library "_sleep").Proper := by decide
      exact (Leads.lift _ _).bind fun x => .line (.stay hdepth hproper rfl)

omit hcomments in
theorem keeps_registration (hdepth : 1 ≤ depth) (n : Nat) (trigger : Trigger) :
    Keeps depth (registration depth id n trigger) := by
  unfold registration
  split
  · exact .line (.stay hdepth trivial rfl)
  · exact .event _ _

theorem keeps_handler (hdepth : 1 ≤ depth) (x : Handler) :
    Keeps depth (c.handler depth id x) := by
  have hdepth₁ : 1 ≤ depth + 1 := Nat.le_add_left 1 depth
  have hdepth₂ : 1 ≤ depth + 2 := Nat.le_add_left 1 (depth + 1)
  have hdepth₃ : 1 ≤ depth + 3 := Nat.le_add_left 1 (depth + 2)
  have hclean : ∀ n, (Code.openFunction n [] none).Clean := fun n => ⟨List.forall_mem_nil _, rfl⟩
  refine keeps_serial.bind fun n => (Leads.event _ _).bind fun _ => ?_
  refine .line_bind (.stay hdepth trivial rfl) (.line_bind (.opening hdepth (hclean n) rfl) ?_)
  refine .line_bind (.opening hdepth₁ trivial rfl) (.line_bind (.opening hdepth₂ trivial rfl) ?_)
  refine (keeps_delay hdepth₃ x.trigger).bind fun _ => ?_
  refine (keeps_statements hcomments hdepth₃ x.body).bind fun _ => .line_bind (.closing hdepth₂) ?_
  refine .line_bind (.opening hdepth₂ trivial rfl) (.line_bind (.stay hdepth₃ trivial rfl) ?_)
  refine .line_bind (.closing hdepth₂) (.line_bind (.closing hdepth₁) ?_)
  exact .line_bind (.closing hdepth) (keeps_registration hdepth n x.trigger)

theorem keeps_handlers (hdepth : 1 ≤ depth) (roots : List NodeId) :
    Keeps depth (c.handlers depth roots) := by
  refine .each (fun root => (Leads.lift _ _).bind fun n => ?_) roots
  split
  · exact keeps_handler hcomments hdepth _
  · exact .pure _ ()

end

end Context

end BlockScript.Emission
