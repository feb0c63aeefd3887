import BlockScript.Graph.Node
import BlockScript.Block.Trigger
import BlockScript.Script.Operand
/-!
# The log

What is reported while a program is compiled, as events with a level, a message and named fields.
-/

namespace BlockScript

inductive Level where
  | debug
  | info
  | warn
deriving DecidableEq, Repr

def Level.name : Level → String
  | debug => "DEBUG"
  | info => "INFO"
  | warn => "WARN"

inductive Event where
  /-- The nodes of a program have been numbered. -/
  | numbered (nodes references : Nat)
  /-- The code of a function begins. -/
  | function (userName : String) (name : Script.Name)
  /-- The code of an event handler begins. -/
  | handler (trigger : Trigger) (name : Script.Name)
  /-- A declaration was met again and passed over. -/
  | declaredTwice (id : NodeId) (name : String)
  /-- A handler's key has no event. -/
  | unregistered (trigger : Trigger) (id : NodeId)
  /-- The text of a program is complete. -/
  | generated (bytes nodes : Nat)
  /-- A program has been written to a file. -/
  | compiled (path : String) (bytes : Nat)
deriving DecidableEq, Repr

namespace Event

def level : Event → Level
  | declaredTwice .. => .warn
  | unregistered .. => .warn
  | compiled .. => .info
  | _ => .debug

def message : Event → String
  | numbered .. => "assigned node identities"
  | function .. => "generating function"
  | handler .. => "generating event handler"
  | declaredTwice .. => "variable declared twice, skipping"
  | unregistered .. => "event is not registered"
  | generated .. => "generated program"
  | compiled .. => "compiled program"

def fields : Event → List (String × String)
  | numbered nodes references => [("nodes", toString nodes), ("derivatives", toString references)]
  | function userName name => [("function", userName), ("js_name", name.render)]
  | handler trigger name => [("trigger", trigger.describe), ("handler", name.render)]
  | declaredTwice id name => [("node", id.label), ("name", name)]
  | unregistered trigger id => [("trigger", trigger.describe), ("node", id.label)]
  | generated bytes nodes => [("bytes", toString bytes), ("nodes", toString nodes)]
  | compiled path bytes => [("path", path), ("bytes", toString bytes)]

end Event

end BlockScript
