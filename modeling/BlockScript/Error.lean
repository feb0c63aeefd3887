import BlockScript.Graph.Node
import BlockScript.Json.Fault
/-!
# Errors

The causes for which a program is refused, and their wording.
-/

namespace BlockScript

inductive GraphFault where
  /-- An id names no node. -/
  | absent (id : NodeId)
  /-- A node stands in a slot for another sort of nodes. -/
  | unexpected (id : NodeId) (expected found : NodeSort)
  /-- A node that cannot have a next one was given to be chained. -/
  | notChainable (id : NodeId) (found : NodeSort)
  /-- A node was reached a second time. -/
  | shared (id : NodeId)
  /-- Following the referents from a node never ends. -/
  | endlessReferent (id : NodeId)
  /-- A node that was not reached is named. -/
  | unnumbered (id : NodeId)
  /-- A function without value is used as one. -/
  | valueless (func : Builtin) (id : NodeId)
  /-- The library has no function for a block with this choice. -/
  | noFunction (func : Builtin) (choice : Option Choice) (id : NodeId)
  /-- The number of arguments is not that of the function. -/
  | wrongArity (func : Builtin) (id : NodeId) (arity given : Nat)
  /-- A user's function without value is used as one. -/
  | noReturn (name : String) (id : NodeId)
  /-- A variable's use leads to the end of a chain of declarations. -/
  | undeclared (id : NodeId)
  /-- The text of a truth value is not known. -/
  | unknownBool (text : String) (id : NodeId)
  /-- The text of a number does not spell a finite number. -/
  | notNumber (text : String) (id : NodeId)
  /-- The target of an assignment is not a variable. -/
  | notAssignable (target : NodeId)
  | document (fault : Json.Fault)
  /-- A walk took more steps than the graph has nodes. -/
  | outOfSteps
deriving DecidableEq, Repr

def GraphFault.message : GraphFault → String
  | absent id => "node " ++ id.label ++ " does not exist"
  | unexpected id expected found =>
    "node " ++ id.label ++ " should be a " ++ expected.label ++ " but is a " ++ found.label
  | notChainable id found => "node " ++ id.label ++ " (" ++ found.label ++ ") cannot be chained"
  | shared id => "node " ++ id.label ++ " is reachable from more than one parent"
  | endlessReferent id => "original links of node " ++ id.label ++ " form a cycle"
  | unnumbered id => "node " ++ id.label ++ " is not part of the program"
  | valueless func id => func.describe ++ " at node " ++ id.label ++ " has no value"
  | noFunction func choice id =>
    "no runtime function for " ++ func.describe ++ " with option " ++
      Choice.describeOption choice ++ " at node " ++ id.label
  | wrongArity func id arity given =>
    func.describe ++ " at node " ++ id.label ++ " takes " ++ toString arity ++
      " argument(s) but has " ++ toString given
  | noReturn name id =>
    "function '" ++ name ++ "' called at node " ++ id.label ++ " returns no value"
  | undeclared id => "variable at node " ++ id.label ++ " has no declaration"
  | unknownBool text id => "unknown boolean text '" ++ text ++ "' at node " ++ id.label
  | notNumber text id => "'" ++ text ++ "' at node " ++ id.label ++ " is not a number"
  | notAssignable target =>
    "assignment target at node " ++ target.label ++ " is not a variable"
  | document fault => fault.message
  | outOfSteps => "the walk did not end"

inductive FileFault where
  | notFound
  | alreadyExists
  | notDirectory
  | isDirectory
  | nameTooLong
  | badEncoding
  | badPath
deriving DecidableEq, Repr

def FileFault.message : FileFault → String
  | notFound => "No such file or directory (os error 2)"
  | alreadyExists => "File exists (os error 17)"
  | notDirectory => "Not a directory (os error 20)"
  | isDirectory => "Is a directory (os error 21)"
  | nameTooLong => "File name too long (os error 36)"
  | badEncoding => "stream did not contain valid UTF-8"
  | badPath => "file name contained an unexpected NUL byte"

inductive Error where
  /-- The node to run is no root on a workspace. -/
  | notExecutable (id : NodeId) (state : NodeState)
  /-- A file could not be read or written. -/
  | file (path : String) (fault : FileFault)
  /-- The graph is faulty. -/
  | malformed (fault : GraphFault)
  | config (fault : Json.Fault)
deriving DecidableEq, Repr

def Error.message : Error → String
  | notExecutable id state =>
    "Node " ++ id.label ++ " is not executable: it is a " ++ state.describe ++ " node"
  | file path fault => "I/O error on " ++ path ++ ": " ++ fault.message
  | malformed fault => "Malformed graph: " ++ fault.message
  | config fault => "Configuration error: " ++ fault.message

end BlockScript
