import BlockScript.Emission.Basic
import BlockScript.Text.Blank
/-!
# Code of expressions

Generating an expression emits the lines that it needs and gives the operand for its value: a
constant, a variable or a temporary. Operands are generated from left to right, before the line
that uses them.
-/

namespace BlockScript.Emission

open Script (Operand Call)

/-- The number that a text spells, blanks around it aside. -/
def number (id : NodeId) (text : String) : Except GraphFault Binary64 :=
  let s := Text.trim text.toList
  match Binary64.read? s with
  | some x => .ok x
  | none => .error (.notNumber (String.ofList s) id)

namespace Context

/-- The variable that a use refers to: the node's referent has to be a declaration. -/
def variableRead (c : Context) (id : NodeId) : Emission Nat := do
  match ← .lift (c.graph.declaration (c.numbering.bearer id)) with
  | some _ => c.serial id
  | none => .fail (.undeclared id)

/-- The line of a call, between the records of its beginning and end when calls are recorded. The
value is bound to a temporary or, without one, dropped. -/
def performCall (c : Context) (depth : Nat) (id : NodeId) (call : Call) (target : Option Nat) :
    Emission Unit := do
  c.whenDebug do
    let n ← c.serial id
    .line depth (.enterCall n)
  match target with
  | some t => .line depth (.bind t (.call call))
  | none => .line depth (.perform call)
  c.whenDebug (.line depth .leaveCall)

/-- The code of a library call. `operand` generates an argument. -/
def builtinCall (c : Context) (depth : Nat) (operand : NodeId → Emission Operand) (id : NodeId)
    (call : BuiltinCall) (target : Option Nat) : Emission Unit := do
  match call.func.function? call.choice with
  | none => .fail (.noFunction call.func call.choice id)
  | some name =>
    if call.args.length ≠ call.func.arity then
      .fail (.wrongArity call.func id call.func.arity call.args.length)
    else do
      let args ← Emission.collect operand call.args
      c.performCall depth id ⟨.library name, args⟩ target
      match target, call.func.substitute? with
      | some t, some value =>
        .line depth (.ifUndefined t)
        .line (depth + 1) (.assign t value)
      | _, _ => pure ()

def userCall (c : Context) (depth : Nat) (operand : NodeId → Emission Operand) (id args : NodeId)
    (target : Option Nat) : Emission Unit := do
  let d ← .lift (c.graph.definition (c.numbering.bearer id))
  if target.isSome ∧ d.returns = none then .fail (.noReturn d.name id)
  else do
    let chain := c.graph.arguments args
    let values ← Emission.collect (fun (_, a) => operand a.value) chain.entries
    .lift chain.ending
    let n ← c.serial id
    c.performCall depth id ⟨.user n, values⟩ target

def literal (c : Context) (depth : Nat) (operand : NodeId → Emission Operand) (id : NodeId) :
    Literal → Emission Operand
  | .number s => do
    let x ← .lift (Emission.number id s)
    pure (.number x)
  | .text s => pure (.text s)
  | .bool s =>
    match boolOfText? s with
    | some b => pure (.bool b)
    | none => .fail (.unknownBool s id)
  | .lineFeed => pure .lineFeed
  | .emptyList _ => pure .emptyList
  | .silence => pure .silence
  | .tone frequency duration => do
    let f ← operand frequency
    let d ← operand duration
    let t ← c.serial id
    .line depth (.bind t (.call ⟨.library "_createSound", [f, d]⟩))
    pure (.name (.var t))

/-- The code of one expression. `operand` generates an expression in one of its slots. -/
def expressionCode (c : Context) (depth : Nat) (operand : NodeId → Emission Operand)
    (id : NodeId) : Expression → Emission Operand
  | .binary op left right => do
    let a ← operand left
    let b ← operand right
    let t ← c.serial id
    .line depth (.bind t (.binary op a b))
    if c.options.guardsArithmetic ∧ op.isArithmetic then do
      .line depth (.ifNotFinite t)
      .line (depth + 1) (.assign t a)
    pure (.name (.var t))
  | .unary op right => do
    let a ← operand right
    let t ← c.serial id
    .line depth (.bind t (.unary op a))
    pure (.name (.var t))
  | .read => do
    let n ← c.variableRead id
    pure (.name (.var n))
  | .literal l => c.literal depth operand id l
  | .builtin call =>
    if call.func.hasValue then do
      let t ← c.serial id
      c.builtinCall depth operand id call (some t)
      pure (.name (.var t))
    else .fail (.valueless call.func id)
  | .call args => do
    let t ← c.serial id
    c.userCall depth operand id args (some t)
    pure (.name (.var t))

/-- The code of an expression. The first number bounds how deep expressions are nested. -/
def expression (c : Context) (depth : Nat) : Nat → NodeId → Emission Operand
  | 0, _ => .fail .outOfSteps
  | fuel + 1, id => do
    let e ← .lift (c.graph.expression id)
    c.expressionCode depth (c.expression depth fuel) id e

def operand (c : Context) (depth : Nat) (id : NodeId) : Emission Operand :=
  c.expression depth c.graph.budget id

end Context

end BlockScript.Emission
