import BlockScript.Emission.Roots
import BlockScript.Library.Basic
/-!
# Requests

A request names what to compile. It is answered by the text of a whole program: one function, called
at once, that holds the library, the global variables, the functions, the event handlers and at
last the statements to run.
-/

namespace BlockScript

structure Outcome (α : Type) where
  log : List Event
  result : Except Error α

structure Request where
  graph : Graph
  run : NodeId
  roots : List NodeId
  options : Options

namespace Request

/-- Checks that the node to run is a root on a workspace that starts a chain of statements. -/
def checkRun (r : Request) : Except Error Unit := do
  let n ← (r.graph.node r.run).mapError .malformed
  if n.state ≠ .onWorkspace then throw (.notExecutable r.run n.state)
  let _ ← (r.graph.statement r.run).mapError .malformed

def numbering (r : Request) : Except Error Numbering := do
  r.checkRun
  (Numbering.ofProgram r.graph r.run r.roots).mapError .malformed

/-- The depth of the code inside the function around the program. -/
def bodyDepth : Nat := 1

def context (r : Request) (ns : Numbering) : Emission.Context :=
  ⟨r.graph, ns, r.options⟩

def code (r : Request) (ns : Numbering) : Emission Unit := do
  let c := r.context ns
  c.globalDeclarations bodyDepth r.roots
  c.definitions bodyDepth r.roots
  c.handlers bodyDepth r.roots
  c.statements bodyDepth r.run

def wrap (source : String) (lines : List Script.Line) : String :=
  "(function()\x7b\n" ++ source ++ Script.render lines ++ "\x7d)();\n"

def generate (r : Request) (library : Library) : Outcome String :=
  match r.numbering with
  | .error e => ⟨[], .error e⟩
  | .ok ns =>
    let code := r.code ns
    let log := .numbered ns.size ns.references :: code.output.events
    match code.result with
    | .error e => ⟨log, .error (.malformed e)⟩
    | .ok _ =>
      let text := wrap (library.source r.options.isLocal) code.output.lines
      ⟨log ++ [.generated text.utf8ByteSize ns.size], .ok text⟩

end Request

end BlockScript
