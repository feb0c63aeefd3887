import BlockScript.Emission.Expression
/-!
# Code of statements

The code of chains of statements, and of the declarations in front of them. The condition of a loop
is generated inside the loop, where each turn evaluates it again; the count of a counted loop is
generated before it.
-/

namespace BlockScript.Emission.Context

open Script (Code)

def declaration (c : Context) (depth : Nat) (id : NodeId) (d : Declaration) : Emission Unit := do
  let n ← c.serial id
  .line depth (.declare n d.type.initial (c.note d.name))

def declarations (c : Context) (depth : Nat) (head : NodeId) : Emission Unit := do
  let chain := c.graph.declarations head
  Emission.each (fun (id, d) => c.declaration depth id d) chain.entries
  .lift chain.ending

/-- The code of an assignment: `code` is its line for a variable and an operand. -/
def assignment (c : Context) (depth : Nat) (target value : NodeId)
    (code : Nat → Script.Operand → Code) : Emission Unit := do
  match ← .lift (c.graph.expression target) with
  | .read =>
    let n ← c.variableRead target
    let a ← c.operand depth value
    .line depth (code n a)
  | _ => .fail (.notAssignable target)

/-- The code of one statement. `nested` generates a chain at a depth. -/
def statement (c : Context) (nested : Nat → NodeId → Emission Unit) (depth : Nat) (id : NodeId) :
    StatementKind → Emission Unit
  | .assign target value => c.assignment depth target value .assign
  | .addAssign target value => c.assignment depth target value .addAssign
  | .branch condition onTrue onFalse => do
    let a ← c.operand depth condition
    .line depth (.openIf a)
    nested (depth + 1) onTrue
    .line depth .close
    match onFalse with
    | none => pure ()
    | some body => do
      .line depth .openElse
      nested (depth + 1) body
      .line depth .close
  | .whileTrue condition body => do
    .line depth .openWhile
    let a ← c.operand (depth + 1) condition
    .line (depth + 1) (.openUnless a)
    .line (depth + 2) .breakLoop
    .line (depth + 1) .close
    nested (depth + 1) body
    .line depth .close
  | .repeatTimes count body => do
    let a ← c.operand depth count
    let n ← c.serial id
    .line depth (.bindLimit n a)
    .line depth (.openRepeat n)
    nested (depth + 1) body
    .line depth .close
  | .compound locals body => do
    .line depth .openBlock
    c.declarations (depth + 1) locals
    nested (depth + 1) body
    .line depth .close
  | .breakLoop => .line depth .breakLoop
  | .continueLoop => .line depth .continueLoop
  | .returnValue none => .line depth (.returnValue none)
  | .returnValue (some value) => do
    let a ← c.operand depth value
    .line depth (.returnValue (some a))
  | .builtin call => c.builtinCall depth (c.operand depth) id call none
  | .call args => c.userCall depth (c.operand depth) id args none

/-- The code of a chain of statements. The first number bounds how deep chains are nested. -/
def statementsWithin (c : Context) : Nat → Nat → NodeId → Emission Unit
  | 0, _, _ => .fail .outOfSteps
  | fuel + 1, depth, head => do
    let chain := c.graph.statements head
    Emission.each
      (fun (id, s) => c.statement (c.statementsWithin fuel) depth id s.kind) chain.entries
    .lift chain.ending

def statements (c : Context) (depth : Nat) (head : NodeId) : Emission Unit :=
  c.statementsWithin c.graph.budget depth head

end BlockScript.Emission.Context
