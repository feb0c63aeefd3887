import BlockScript.Block.Operator
import BlockScript.Script.Operand
import BlockScript.Text.Comment
/-!
# Lines of a script

A generated script is a list of lines, each a piece of code at a depth of nesting. The kinds of
lines are those that programs are made of; every line that opens a block is followed, after the
block, by one that closes it. `Line.render` gives the text.
-/

namespace BlockScript.Script

inductive Callee where
  /-- A function of the library or of the language. -/
  | library (name : String)
  | user (serial : Nat)
deriving DecidableEq, Repr

structure Call where
  callee : Callee
  args : List Operand
deriving DecidableEq, Repr

inductive Value where
  | binary (op : BinaryOp) (left right : Operand)
  | unary (op : UnaryOp) (operand : Operand)
  | call (c : Call)
deriving DecidableEq, Repr

/-- A parameter, with the user's name for it if names are shown. -/
structure Param where
  serial : Nat
  note : Option String
deriving DecidableEq, Repr

inductive Code where
  | declare (serial : Nat) (initial : Operand) (note : Option String)
  /-- Binds a temporary. -/
  | bind (serial : Nat) (value : Value)
  | createLock (serial : Nat)
  /-- Binds the number of turns of a counted loop. -/
  | bindLimit (serial : Nat) (count : Operand)
  | assign (serial : Nat) (value : Operand)
  | addAssign (serial : Nat) (value : Operand)
  | perform (c : Call)
  | enterCall (serial : Nat)
  | leaveCall
  /-- Lets the next line apply only if a temporary is no finite number. -/
  | ifNotFinite (serial : Nat)
  /-- Lets the next line apply only if a temporary is undefined. -/
  | ifUndefined (serial : Nat)
  | breakLoop
  | continueLoop
  | returnValue (value : Option Operand)
  | unlock (serial : Nat)
  | register (serial : Nat) (event : String)
  | openIf (condition : Operand)
  | openUnless (condition : Operand)
  | openElse
  | openWhile
  | openRepeat (serial : Nat)
  | openBlock
  | openFunction (serial : Nat) (params : List Param) (note : Option String)
  /-- Opens the block that runs only if a lock was free. -/
  | openTryLock (serial : Nat)
  | openTry
  | openFinally
  | close
deriving DecidableEq, Repr

structure Line where
  depth : Nat
  code : Code
deriving DecidableEq, Repr

def indent (depth : Nat) : String :=
  String.ofList (List.replicate depth '\t')

def callText (name : String) (args : List String) : String :=
  name ++ "(" ++ ", ".intercalate args ++ ")"

def Callee.render : Callee → String
  | library name => name
  | user n => (Name.func n).render

def Call.render (c : Call) : String :=
  callText c.callee.render (c.args.map Operand.render)

/-- The written form of what a temporary is bound to. A blank keeps two minus signs apart. -/
def Value.render : Value → String
  | binary op left right => left.render ++ op.token ++ right.render
  | unary op operand =>
    op.sign ++ (if operand.isNegative then " " else "") ++ operand.render
  | call c => c.render

/-- A comment after a blank, if there is one. -/
def noteText : Option String → String
  | none => ""
  | some s => " " ++ Text.Comment.enclose s

def Param.render (p : Param) : String :=
  (Name.var p.serial).render ++ noteText p.note

def paramsText (params : List Param) : String :=
  ", ".intercalate (params.map Param.render)

def Code.render : Code → String
  | declare n initial note =>
    "let " ++ (Name.var n).render ++ " = " ++ initial.render ++ ";" ++ noteText note
  | bind n value => "let " ++ (Name.var n).render ++ " = " ++ value.render ++ ";"
  | createLock n => "let " ++ (Name.lock n).render ++ " = _genLockObj();"
  | bindLimit n count =>
    "const " ++ (Name.limit n).render ++ " = Math.floor(" ++ count.render ++ ");"
  | assign n value => (Name.var n).render ++ " = " ++ value.render ++ ";"
  | addAssign n value => (Name.var n).render ++ " += " ++ value.render ++ ";"
  | perform c => c.render ++ ";"
  | enterCall n => "_callStack.push(" ++ toString n ++ ");"
  | leaveCall => "_callStack.pop();"
  | ifNotFinite n => "if (!isFinite(" ++ (Name.var n).render ++ "))"
  | ifUndefined n => "if (" ++ (Name.var n).render ++ " === undefined)"
  | breakLoop => "break;"
  | continueLoop => "continue;"
  | returnValue none => "return;"
  | returnValue (some value) => "return " ++ value.render ++ ";"
  | unlock n => "_unlock(" ++ (Name.lock n).render ++ ");"
  | register n event =>
    "_addEvent(" ++ (Name.func n).render ++ ", " ++ Text.Quoted.quote event ++ ");"
  | openIf condition => "if (" ++ condition.render ++ ") \x7b"
  | openUnless condition => "if (!" ++ condition.render ++ ") \x7b"
  | openElse => "else \x7b"
  | openWhile => "while (true) \x7b"
  | openRepeat n =>
    let i := (Name.var n).render
    "for (let " ++ i ++ " = 0; " ++ i ++ " < " ++ (Name.limit n).render ++ "; ++" ++ i ++ ") \x7b"
  | openBlock => "\x7b"
  | openFunction n params note =>
    "function " ++ (Name.func n).render ++ "(" ++ paramsText params ++ ") \x7b" ++ noteText note
  | openTryLock n => "if (_tryLock(" ++ (Name.lock n).render ++ ")) \x7b"
  | openTry => "try \x7b"
  | openFinally => "finally \x7b"
  | close => "\x7d"

def Line.render (l : Line) : String :=
  indent l.depth ++ l.code.render ++ "\n"

def render (lines : List Line) : String :=
  String.join (lines.map Line.render)

@[simp] theorem render_nil : render [] = "" := rfl

@[simp] theorem render_cons (l : Line) (r : List Line) :
    render (l :: r) = l.render ++ render r := by
  simp [render]

end BlockScript.Script
