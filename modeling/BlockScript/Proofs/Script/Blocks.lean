import BlockScript.Script.Line
import Mathlib.Data.List.Nodup
/-!
# Blocks of a script

The lines of a script form nested blocks.  `blocks` gives, for each block, the names that are bound
directly in it: by the lines in it, and where it is opened, as parameters and counters are.  A
function is bound in the block around it.

`Adds ls direct inner` says what a piece of a script does to the block it stands in, and which
blocks it contains; pieces one after the other add up (`Adds.append`).
-/

namespace BlockScript.Script

/-- The names bound directly in a block, and the functions of the program that are called directly
in it for a value. -/
structure Block where
  names : List Name
  callees : List Nat
deriving DecidableEq, Repr

namespace Block

def append (a b : Block) : Block :=
  ⟨a.names ++ b.names, a.callees ++ b.callees⟩

instance : Append Block := ⟨append⟩

def empty : Block := ⟨[], []⟩

@[simp] theorem append_empty (a : Block) : a ++ empty = a := by
  show append a empty = a
  simp [append, empty]

@[simp] theorem empty_append (a : Block) : empty ++ a = a := rfl

theorem append_assoc (a b c : Block) : a ++ b ++ c = a ++ (b ++ c) := by
  show append (append a b) c = append a (append b c)
  simp [append, List.append_assoc]

end Block

/-- What a line does to nesting. -/
inductive Nesting where
  | within
  /-- A block is opened in which these names are bound. -/
  | opens (entry : List Name)
  | closes

namespace Code

def nesting : Code → Nesting
  | openFunction _ params _ => .opens (params.map fun p => .var p.serial)
  | openRepeat n => .opens [.var n]
  | openIf _ | openUnless _ | openElse | openWhile | openBlock | openTryLock _ | openTry
    | openFinally => .opens []
  | close => .closes
  | _ => .within

def block : Code → Block
  | declare n _ _ => ⟨[.var n], []⟩
  | bind n (.call ⟨.user f, _⟩) => ⟨[.var n], [f]⟩
  | bind n _ => ⟨[.var n], []⟩
  | createLock n => ⟨[.lock n], []⟩
  | bindLimit n _ => ⟨[.limit n], []⟩
  | openFunction n _ _ => ⟨[.func n], []⟩
  | _ => .empty

end Code

/-- The blocks of the lines, where those in the first list are open, the innermost first. -/
def blocksFrom : List Block → List Line → List Block
  | outer, [] => outer
  | [], _ :: r => blocksFrom [] r
  | top :: outer, l :: r =>
    match l.code.nesting with
    | .within => blocksFrom ((top ++ l.code.block) :: outer) r
    | .opens entry => blocksFrom (⟨entry, []⟩ :: (top ++ l.code.block) :: outer) r
    | .closes => top :: blocksFrom outer r

/-- The blocks of a script, the outermost last. -/
def blocks (ls : List Line) : List Block :=
  blocksFrom [.empty] ls

/-! ## Pieces of a script -/

/-- The lines add `direct` to the block that they stand in, and the blocks opened by them, all of
which they close, are `inner`. -/
def Adds (ls : List Line) (direct : Block) (inner : List Block) : Prop :=
  ∀ top outer rest,
    blocksFrom (top :: outer) (ls ++ rest) =
      inner ++ blocksFrom ((top ++ direct) :: outer) rest

namespace Adds

variable {ls ls' : List Line} {direct direct' : Block} {inner inner' : List Block}

theorem nil : Adds [] .empty [] := by
  intro top outer rest
  simp

theorem append (h : Adds ls direct inner) (h' : Adds ls' direct' inner') :
    Adds (ls ++ ls') (direct ++ direct') (inner ++ inner') := by
  intro top outer rest
  rw [List.append_assoc, h, h', List.append_assoc, Block.append_assoc]

theorem line {depth : Nat} {code : Code} (h : code.nesting = .within) :
    Adds [⟨depth, code⟩] code.block [] := by
  intro top outer rest
  simp [blocksFrom, h]

theorem nested {depth : Nat} {code : Code} {entry : List Name}
    (h : code.nesting = .opens entry) (hbody : Adds ls direct inner) :
    Adds (⟨depth, code⟩ :: (ls ++ [⟨depth, .close⟩])) code.block
      (inner ++ [⟨entry, []⟩ ++ direct]) := by
  intro top outer rest
  have hopen : blocksFrom (top :: outer)
      (⟨depth, code⟩ :: (ls ++ [⟨depth, .close⟩]) ++ rest) =
      blocksFrom (⟨entry, []⟩ :: (top ++ code.block) :: outer)
        (ls ++ (⟨depth, .close⟩ :: rest)) := by
    simp [blocksFrom, h]
  rw [hopen, hbody]
  simp [blocksFrom, Code.nesting]

theorem blocks_eq (h : Adds ls direct inner) : blocks ls = inner ++ [direct] := by
  have hall := h .empty [] []
  simpa [blocks, blocksFrom] using hall

end Adds

end BlockScript.Script
