import BlockScript.Binary64.Basic
import BlockScript.Proofs.Graph.Chain
import BlockScript.Proofs.Graph.Referent
import BlockScript.Text.Blank
/-!
# The grammar of blocks

Which nodes may stand in which slots: `ExpressionAt` for the slots of expressions, `BodyAt` for the
heads of chains of statements, and `RootAt` for what the compiled roots may be.  The grammar says
nothing about how nodes share slots or where chains lead; that they form trees is a matter of the
walk that numbers them.
-/

namespace BlockScript

/-- The text spells a finite number, blanks around it aside. -/
def SpellsNumber (text : String) : Prop :=
  (Binary64.read? (Text.trim text.toList)).isSome

def Literal.Readable : Literal → Prop
  | .number s => SpellsNumber s
  | .bool s => (boolOfText? s).isSome
  | _ => True

/-- The library has a function for the call's choice, and the call has as many arguments as the
function takes. -/
structure BuiltinCall.Catalogued (call : BuiltinCall) : Prop where
  function : (call.func.function? call.choice).isSome
  arity : call.args.length = call.func.arity

def Trigger.Readable : Trigger → Prop
  | keyPressed _ => True
  | delayedStart delay => SpellsNumber delay

namespace Graph

def RefersToDeclaration (g : Graph) (id : NodeId) : Prop :=
  ∃ last d, LeadsTo g id last ∧ g.declaration last = .ok (some d)

def RefersToDefinition (g : Graph) (id : NodeId) (d : Definition) : Prop :=
  ∃ last, LeadsTo g id last ∧ g.definition last = .ok d

def DeclarationsAt (g : Graph) (head : NodeId) : Prop :=
  ∃ entries, Chained g.declaration Declaration.next head entries

mutual

inductive ExpressionAt (g : Graph) : NodeId → Prop where
  | intro {id : NodeId} {e : Expression} (hread : g.expression id = .ok e)
      (hform : FormAt g id e) : ExpressionAt g id

inductive FormAt (g : Graph) : NodeId → Expression → Prop where
  | binary {id : NodeId} {op : BinaryOp} {left right : NodeId} (hleft : ExpressionAt g left)
      (hright : ExpressionAt g right) : FormAt g id (.binary op left right)
  | unary {id : NodeId} {op : UnaryOp} {operand : NodeId} (hoperand : ExpressionAt g operand) :
      FormAt g id (.unary op operand)
  | read {id : NodeId} (hreferent : g.RefersToDeclaration id) : FormAt g id .read
  | literal {id : NodeId} {l : Literal} (hreadable : l.Readable)
      (hparts : ∀ x ∈ (Expression.literal l).children, ExpressionAt g x) :
      FormAt g id (.literal l)
  | builtin {id : NodeId} {call : BuiltinCall} (hvalue : call.func.hasValue)
      (hcall : call.Catalogued) (hargs : ∀ x ∈ call.args, ExpressionAt g x) :
      FormAt g id (.builtin call)
  | call {id args : NodeId} {d : Definition} {entries : List (NodeId × Argument)}
      (hcallee : g.RefersToDefinition id d) (hreturns : d.returns ≠ none)
      (hargs : Chained g.argument Argument.next args entries)
      (hvalues : ∀ entry ∈ entries, ExpressionAt g entry.2.value) : FormAt g id (.call args)

end

mutual

inductive BodyAt (g : Graph) : NodeId → Prop where
  | nil {head : NodeId} (hread : g.statement head = .ok none) : BodyAt g head
  | cons {head : NodeId} {s : Statement} (hread : g.statement head = .ok (some s))
      (hstatement : StatementAt g head s.kind) (hnext : BodyAt g s.next) : BodyAt g head

inductive StatementAt (g : Graph) : NodeId → StatementKind → Prop where
  | assign {id target value : NodeId} (htarget : g.expression target = .ok .read)
      (hreferent : g.RefersToDeclaration target) (hvalue : ExpressionAt g value) :
      StatementAt g id (.assign target value)
  | addAssign {id target value : NodeId} (htarget : g.expression target = .ok .read)
      (hreferent : g.RefersToDeclaration target) (hvalue : ExpressionAt g value) :
      StatementAt g id (.addAssign target value)
  | branch {id condition onTrue : NodeId} {onFalse : Option NodeId}
      (hcondition : ExpressionAt g condition) (htrue : BodyAt g onTrue)
      (hfalse : ∀ body ∈ onFalse, BodyAt g body) :
      StatementAt g id (.branch condition onTrue onFalse)
  | whileTrue {id condition body : NodeId} (hcondition : ExpressionAt g condition)
      (hbody : BodyAt g body) : StatementAt g id (.whileTrue condition body)
  | repeatTimes {id count body : NodeId} (hcount : ExpressionAt g count)
      (hbody : BodyAt g body) : StatementAt g id (.repeatTimes count body)
  | compound {id locals body : NodeId} (hlocals : g.DeclarationsAt locals)
      (hbody : BodyAt g body) : StatementAt g id (.compound locals body)
  | breakLoop {id : NodeId} : StatementAt g id .breakLoop
  | continueLoop {id : NodeId} : StatementAt g id .continueLoop
  | returnValue {id : NodeId} {value : Option NodeId}
      (hvalue : ∀ x ∈ value, ExpressionAt g x) : StatementAt g id (.returnValue value)
  | builtin {id : NodeId} {call : BuiltinCall} (hcall : call.Catalogued)
      (hargs : ∀ x ∈ call.args, ExpressionAt g x) : StatementAt g id (.builtin call)
  | call {id args : NodeId} {d : Definition} {entries : List (NodeId × Argument)}
      (hcallee : g.RefersToDefinition id d)
      (hargs : Chained g.argument Argument.next args entries)
      (hvalues : ∀ entry ∈ entries, ExpressionAt g entry.2.value) : StatementAt g id (.call args)

end

/-- What a compiled root asks for.  Roots that give no code ask for nothing. -/
def RootAt (g : Graph) (id : NodeId) : NodeKind → Prop
  | .declaration _ => g.DeclarationsAt id
  | .definition d => g.DeclarationsAt d.params ∧ g.BodyAt d.body
  | .handler h => h.trigger.Readable ∧ g.BodyAt h.body
  | _ => True

/-! ## What each form comes down to -/

variable {g : Graph} {id : NodeId}

namespace FormAt

theorem binary_iff {op : BinaryOp} {left right : NodeId} :
    FormAt g id (.binary op left right) ↔ ExpressionAt g left ∧ ExpressionAt g right := by
  constructor
  · intro h
    cases h with
    | binary hleft hright => exact ⟨hleft, hright⟩
  · rintro ⟨hleft, hright⟩
    exact .binary hleft hright

theorem unary_iff {op : UnaryOp} {operand : NodeId} :
    FormAt g id (.unary op operand) ↔ ExpressionAt g operand := by
  constructor
  · intro h
    cases h with
    | unary hoperand => exact hoperand
  · exact .unary

theorem read_iff : FormAt g id .read ↔ g.RefersToDeclaration id := by
  constructor
  · intro h
    cases h with
    | read hreferent => exact hreferent
  · exact .read

theorem literal_iff {l : Literal} :
    FormAt g id (.literal l) ↔
      l.Readable ∧ ∀ x ∈ (Expression.literal l).children, ExpressionAt g x := by
  constructor
  · intro h
    cases h with
    | literal hreadable hparts => exact ⟨hreadable, hparts⟩
  · rintro ⟨hreadable, hparts⟩
    exact .literal hreadable hparts

theorem builtin_iff {call : BuiltinCall} :
    FormAt g id (.builtin call) ↔
      call.func.hasValue ∧ call.Catalogued ∧ ∀ x ∈ call.args, ExpressionAt g x := by
  constructor
  · intro h
    cases h with
    | builtin hvalue hcall hargs => exact ⟨hvalue, hcall, hargs⟩
  · rintro ⟨hvalue, hcall, hargs⟩
    exact .builtin hvalue hcall hargs

theorem call_iff {args : NodeId} :
    FormAt g id (.call args) ↔
      ∃ d, g.RefersToDefinition id d ∧ d.returns ≠ none ∧
        ∃ entries, Chained g.argument Argument.next args entries ∧
          ∀ entry ∈ entries, ExpressionAt g entry.2.value := by
  constructor
  · intro h
    cases h with
    | call hcallee hreturns hargs hvalues => exact ⟨_, hcallee, hreturns, _, hargs, hvalues⟩
  · rintro ⟨d, hcallee, hreturns, entries, hargs, hvalues⟩
    exact .call hcallee hreturns hargs hvalues

end FormAt

namespace StatementAt

theorem assign_iff {target value : NodeId} :
    StatementAt g id (.assign target value) ↔
      g.expression target = .ok .read ∧ g.RefersToDeclaration target ∧ ExpressionAt g value := by
  constructor
  · intro h
    cases h with
    | assign htarget hreferent hvalue => exact ⟨htarget, hreferent, hvalue⟩
  · rintro ⟨htarget, hreferent, hvalue⟩
    exact .assign htarget hreferent hvalue

theorem addAssign_iff {target value : NodeId} :
    StatementAt g id (.addAssign target value) ↔
      g.expression target = .ok .read ∧ g.RefersToDeclaration target ∧ ExpressionAt g value := by
  constructor
  · intro h
    cases h with
    | addAssign htarget hreferent hvalue => exact ⟨htarget, hreferent, hvalue⟩
  · rintro ⟨htarget, hreferent, hvalue⟩
    exact .addAssign htarget hreferent hvalue

theorem branch_iff {condition onTrue : NodeId} {onFalse : Option NodeId} :
    StatementAt g id (.branch condition onTrue onFalse) ↔
      ExpressionAt g condition ∧ BodyAt g onTrue ∧ ∀ body ∈ onFalse, BodyAt g body := by
  constructor
  · intro h
    cases h with
    | branch hcondition htrue hfalse => exact ⟨hcondition, htrue, hfalse⟩
  · rintro ⟨hcondition, htrue, hfalse⟩
    exact .branch hcondition htrue hfalse

theorem whileTrue_iff {condition body : NodeId} :
    StatementAt g id (.whileTrue condition body) ↔ ExpressionAt g condition ∧ BodyAt g body := by
  constructor
  · intro h
    cases h with
    | whileTrue hcondition hbody => exact ⟨hcondition, hbody⟩
  · rintro ⟨hcondition, hbody⟩
    exact .whileTrue hcondition hbody

theorem repeatTimes_iff {count body : NodeId} :
    StatementAt g id (.repeatTimes count body) ↔ ExpressionAt g count ∧ BodyAt g body := by
  constructor
  · intro h
    cases h with
    | repeatTimes hcount hbody => exact ⟨hcount, hbody⟩
  · rintro ⟨hcount, hbody⟩
    exact .repeatTimes hcount hbody

theorem compound_iff {locals body : NodeId} :
    StatementAt g id (.compound locals body) ↔ g.DeclarationsAt locals ∧ BodyAt g body := by
  constructor
  · intro h
    cases h with
    | compound hlocals hbody => exact ⟨hlocals, hbody⟩
  · rintro ⟨hlocals, hbody⟩
    exact .compound hlocals hbody

theorem returnValue_iff {value : Option NodeId} :
    StatementAt g id (.returnValue value) ↔ ∀ x ∈ value, ExpressionAt g x := by
  constructor
  · intro h
    cases h with
    | returnValue hvalue => exact hvalue
  · exact .returnValue

theorem builtin_iff {call : BuiltinCall} :
    StatementAt g id (.builtin call) ↔ call.Catalogued ∧ ∀ x ∈ call.args, ExpressionAt g x := by
  constructor
  · intro h
    cases h with
    | builtin hcall hargs => exact ⟨hcall, hargs⟩
  · rintro ⟨hcall, hargs⟩
    exact .builtin hcall hargs

theorem call_iff {args : NodeId} :
    StatementAt g id (.call args) ↔
      ∃ d, g.RefersToDefinition id d ∧
        ∃ entries, Chained g.argument Argument.next args entries ∧
          ∀ entry ∈ entries, ExpressionAt g entry.2.value := by
  constructor
  · intro h
    cases h with
    | call hcallee hargs hvalues => exact ⟨_, hcallee, _, hargs, hvalues⟩
  · rintro ⟨d, hcallee, entries, hargs, hvalues⟩
    exact .call hcallee hargs hvalues

end StatementAt

end Graph

end BlockScript
