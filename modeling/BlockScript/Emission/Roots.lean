import BlockScript.Emission.Statement
/-!
# Code of roots

The compiled roots are declarations, functions and event handlers; other nodes among them give no
code. A declaration that several chains share is global once, where it is met first. An event
handler is a function under a lock of its own: it does nothing while an earlier call of it still
runs, and releases the lock however its body ends. A handler that waits for the start of the
program sleeps for its delay first. A handler whose key has no event is defined but not registered.
-/

namespace BlockScript.Emission

open Script (Param)

namespace Context

/-- The declarations of a chain that are not among those declared before; gives all of them. -/
def globalEntries (c : Context) (depth : Nat) :
    List (NodeId × Declaration) → List NodeId → Emission (List NodeId)
  | [], declared => pure declared
  | (id, d) :: r, declared => do
    if declared.contains id then do
      .event (.declaredTwice id d.name)
      c.globalEntries depth r declared
    else do
      c.declaration depth id d
      c.globalEntries depth r (id :: declared)

def globals (c : Context) (depth : Nat) : List NodeId → List NodeId → Emission (List NodeId)
  | [], declared => pure declared
  | root :: r, declared => do
    match (← .lift (c.graph.node root)).kind with
    | .declaration _ => do
      let chain := c.graph.declarations root
      let declared ← c.globalEntries depth chain.entries declared
      .lift chain.ending
      c.globals depth r declared
    | _ => c.globals depth r declared

def globalDeclarations (c : Context) (depth : Nat) (roots : List NodeId) : Emission Unit := do
  let _ ← c.globals depth roots []
  pure ()

def params (c : Context) (head : NodeId) : Emission (List Param) := do
  let chain := c.graph.declarations head
  let params ← Emission.collect (fun (id, d) => do
    let n ← c.serial id
    pure (Param.mk n (c.note d.name))) chain.entries
  .lift chain.ending
  pure params

def definition (c : Context) (depth : Nat) (id : NodeId) (d : Definition) : Emission Unit := do
  let n ← c.serial id
  .event (.function d.name (.func n))
  let params ← c.params d.params
  .line depth (.openFunction n params (c.note d.name))
  c.statements (depth + 1) d.body
  .line depth .close

def definitions (c : Context) (depth : Nat) (roots : List NodeId) : Emission Unit :=
  Emission.each (fun root => do
    match (← .lift (c.graph.node root)).kind with
    | .definition d => c.definition depth root d
    | _ => pure ()) roots

def delay (depth : Nat) (id : NodeId) : Trigger → Emission Unit
  | .keyPressed _ => pure ()
  | .delayedStart text => do
    let x ← .lift (Emission.number id text)
    .line depth (.perform ⟨.library "_sleep", [.number x]⟩)

/-- The line that registers a handler, or a warning. -/
def registration (depth : Nat) (id : NodeId) (n : Nat) (trigger : Trigger) : Emission Unit :=
  match trigger.event? with
  | some event => .line depth (.register n event)
  | none => .event (.unregistered trigger id)

def handler (c : Context) (depth : Nat) (id : NodeId) (h : Handler) : Emission Unit := do
  let n ← c.serial id
  .event (.handler h.trigger (.func n))
  .line depth (.createLock n)
  .line depth (.openFunction n [] none)
  .line (depth + 1) (.openTryLock n)
  .line (depth + 2) .openTry
  delay (depth + 3) id h.trigger
  c.statements (depth + 3) h.body
  .line (depth + 2) .close
  .line (depth + 2) .openFinally
  .line (depth + 3) (.unlock n)
  .line (depth + 2) .close
  .line (depth + 1) .close
  .line depth .close
  registration depth id n h.trigger

def handlers (c : Context) (depth : Nat) (roots : List NodeId) : Emission Unit :=
  Emission.each (fun root => do
    match (← .lift (c.graph.node root)).kind with
    | .handler h => c.handler depth root h
    | _ => pure ()) roots

end Context

end BlockScript.Emission
