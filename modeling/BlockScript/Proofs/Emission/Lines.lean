import BlockScript.Emission.Roots
import BlockScript.Proofs.Emission.Sequence
/-!
# The lines of names

Which line a declaration, a function, a variable's use and a call give, and the number that is
written in it.
-/

namespace BlockScript.Emission.Context

open Script (Line Code Call Operand)

variable {c : Context} {depth n : Nat} {id : NodeId} {ls : List Line}

@[simp] theorem gives_serial : Gives (c.serial id) ls n ↔ c.numbering.serial id = .ok n ∧ ls = [] :=
  gives_lift

theorem gives_variableRead :
    Gives (c.variableRead id) ls n ↔
      (∃ d, c.graph.declaration (c.numbering.bearer id) = .ok (some d)) ∧
        c.numbering.serial id = .ok n ∧ ls = [] := by
  unfold variableRead
  cases hd : c.graph.declaration (c.numbering.bearer id) with
  | error e => simp [fail_bind]
  | ok o => cases o <;> simp

theorem gives_declaration {d : Declaration} {u : Unit} :
    Gives (c.declaration depth id d) ls u ↔
      ∃ n, c.numbering.serial id = .ok n ∧
        ls = [⟨depth, .declare n d.type.initial (c.note d.name)⟩] := by
  simp [declaration, gives_bind]

theorem gives_serial_bind {β : Type} {f : Nat → Emission β} {b : β} :
    Gives (c.serial id >>= f) ls b ↔ ∃ n, c.numbering.serial id = .ok n ∧ Gives (f n) ls b :=
  gives_lift_bind

/-- Parameters give no line; each has the number of its declaration. -/
theorem forall₂_of_gives_params {head : NodeId} {params : List Script.Param}
    (h : Gives (c.params head) ls params) :
    ls = [] ∧ (c.graph.declarations head).ending = .ok () ∧
      List.Forall₂
        (fun entry p => c.numbering.serial entry.1 = .ok p.serial ∧ p.note = c.note entry.2.name)
        (c.graph.declarations head).entries params := by
  obtain ⟨values, l₁, l₂, hcollect, hrest, rfl⟩ := gives_bind.mp h
  obtain ⟨_, hending, hpure⟩ := gives_lift_bind.mp hrest
  obtain ⟨rfl, rfl⟩ := gives_pure.mp hpure
  have hvalues := forall₂_of_gives_collect
    (R := fun entry p => c.numbering.serial entry.1 = .ok p.serial ∧ p.note = c.note entry.2.name)
    ?_ hcollect
  · exact ⟨by rw [hvalues.1]; rfl, hending, hvalues.2⟩
  · intro entry _ l p hp
    obtain ⟨n, hserial, hpure⟩ := gives_serial_bind.mp hp
    obtain ⟨rfl, rfl⟩ := gives_pure.mp hpure
    exact ⟨rfl, hserial, rfl⟩

theorem head?_of_gives_definition {d : Definition} {u : Unit}
    (h : Gives (c.definition depth id d) ls u) :
    ∃ n params, c.numbering.serial id = .ok n ∧
      ls.head? = some ⟨depth, .openFunction n params (c.note d.name)⟩ := by
  obtain ⟨n, hserial, hevent⟩ := gives_serial_bind.mp h
  obtain ⟨params, l₁, l₂, hparams, hopen, rfl⟩ := gives_bind.mp (gives_event_bind.mp hevent)
  obtain ⟨rest, _, rfl⟩ := gives_line_bind.mp hopen
  obtain ⟨rfl, _⟩ := forall₂_of_gives_params hparams
  exact ⟨n, params, hserial, rfl⟩

/-- A handler's code: its lock, its function around two blocks, and its registration. -/
theorem lines_of_gives_handler {h : Handler} {u : Unit}
    (hgives : Gives (c.handler depth id h) ls u) :
    ∃ n wait body registered, c.numbering.serial id = .ok n ∧
      Gives (delay (depth + 3) id h.trigger) wait () ∧
      Gives (c.statements (depth + 3) h.body) body () ∧
      Gives (registration depth id n h.trigger) registered () ∧
      ls = ⟨depth, .createLock n⟩ :: ⟨depth, .openFunction n [] none⟩ ::
        ⟨depth + 1, .openTryLock n⟩ :: ⟨depth + 2, .openTry⟩ ::
        (wait ++ (body ++ ⟨depth + 2, .close⟩ :: ⟨depth + 2, .openFinally⟩ ::
        ⟨depth + 3, .unlock n⟩ :: ⟨depth + 2, .close⟩ :: ⟨depth + 1, .close⟩ ::
        ⟨depth, .close⟩ :: registered)) := by
  obtain ⟨n, hserial, hevent⟩ := gives_serial_bind.mp hgives
  have hlock := gives_event_bind.mp hevent
  obtain ⟨_, hfunction, rfl⟩ := gives_line_bind.mp hlock
  obtain ⟨_, htryLock, rfl⟩ := gives_line_bind.mp hfunction
  obtain ⟨_, htry, rfl⟩ := gives_line_bind.mp htryLock
  obtain ⟨_, hinside, rfl⟩ := gives_line_bind.mp htry
  obtain ⟨_, wait, _, hwait, hrest, rfl⟩ := gives_bind.mp hinside
  obtain ⟨_, body, _, hbody, hclose, rfl⟩ := gives_bind.mp hrest
  obtain ⟨_, hfinally, rfl⟩ := gives_line_bind.mp hclose
  obtain ⟨_, hunlock, rfl⟩ := gives_line_bind.mp hfinally
  obtain ⟨_, hclose₁, rfl⟩ := gives_line_bind.mp hunlock
  obtain ⟨_, hclose₂, rfl⟩ := gives_line_bind.mp hclose₁
  obtain ⟨_, hclose₃, rfl⟩ := gives_line_bind.mp hclose₂
  obtain ⟨registered, hregistered, rfl⟩ := gives_line_bind.mp hclose₃
  exact ⟨n, wait, body, registered, hserial, hwait, hbody, hregistered, rfl⟩

def callCode (call : Call) : Option Nat → Code
  | some t => .bind t (.call call)
  | none => .perform call

/-- A call is one line, perhaps between the records of its beginning and end. -/
theorem gives_performCall {call : Call} {target : Option Nat} {u : Unit} :
    Gives (c.performCall depth id call target) ls u ↔
      ∃ n, (c.options.isDebug → c.numbering.serial id = .ok n) ∧
        ls = (if c.options.isDebug then [⟨depth, .enterCall n⟩] else []) ++
          ⟨depth, callCode call target⟩ ::
            if c.options.isDebug then [⟨depth, .leaveCall⟩] else [] := by
  by_cases hdebug : c.options.isDebug <;> cases target <;>
    simp [performCall, whenDebug, hdebug, callCode, gives_bind]

/-- A call of a user's function has a definition as its bearer, and a line that names its number. -/
theorem definition_of_gives_userCall {operand : NodeId → Emission Operand} {args : NodeId}
    {target : Option Nat} {u : Unit} (h : Gives (c.userCall depth operand id args target) ls u) :
    ∃ d n values, c.graph.definition (c.numbering.bearer id) = .ok d ∧
      c.numbering.serial id = .ok n ∧ ⟨depth, callCode ⟨.user n, values⟩ target⟩ ∈ ls := by
  obtain ⟨d, hd, hbody⟩ := gives_lift_bind.mp h
  split at hbody
  · exact absurd hbody gives_fail.mp
  · obtain ⟨values, l₁, l₂, _, hrest, rfl⟩ := gives_bind.mp hbody
    obtain ⟨_, _, hnumber⟩ := gives_lift_bind.mp hrest
    obtain ⟨n, hserial, hcall⟩ := gives_serial_bind.mp hnumber
    obtain ⟨_, _, rfl⟩ := gives_performCall.mp hcall
    exact ⟨d, n, values, hd, hserial, by simp⟩

/-- An assignment has a declaration as its target's bearer, and ends with the line for it. -/
theorem declaration_of_gives_assignment {target value : NodeId} {code : Nat → Operand → Code}
    {u : Unit} (h : Gives (c.assignment depth target value code) ls u) :
    ∃ d n a, c.graph.declaration (c.numbering.bearer target) = .ok (some d) ∧
      c.numbering.serial target = .ok n ∧ ls.getLast? = some ⟨depth, code n a⟩ := by
  obtain ⟨e, _, h⟩ := gives_lift_bind.mp h
  cases e with
  | read =>
      obtain ⟨n, l₁, l₂, hread, hrest, rfl⟩ := gives_bind.mp h
      obtain ⟨⟨d, hd⟩, hserial, rfl⟩ := gives_variableRead.mp hread
      obtain ⟨a, l₃, l₄, _, hline, rfl⟩ := gives_bind.mp hrest
      obtain rfl := gives_line.mp hline
      exact ⟨d, n, a, hd, hserial, by simp⟩
  | binary _ _ _ | unary _ _ | literal _ | builtin _ | call _ => exact absurd h gives_fail.mp

/-! ## Roots -/

def rootDefinition (c : Context) (depth : Nat) (root : NodeId) : Emission Unit := do
  match (← .lift (c.graph.node root)).kind with
  | .definition d => c.definition depth root d
  | _ => pure ()

def rootHandler (c : Context) (depth : Nat) (root : NodeId) : Emission Unit := do
  match (← .lift (c.graph.node root)).kind with
  | .handler h => c.handler depth root h
  | _ => pure ()

theorem definitions_eq_each (c : Context) (depth : Nat) (roots : List NodeId) :
    c.definitions depth roots = each (c.rootDefinition depth) roots := rfl

theorem handlers_eq_each (c : Context) (depth : Nat) (roots : List NodeId) :
    c.handlers depth roots = each (c.rootHandler depth) roots := rfl

end BlockScript.Emission.Context
