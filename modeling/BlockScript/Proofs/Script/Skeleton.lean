import BlockScript.Proofs.Script.Blocks
import BlockScript.Proofs.Script.Indentation
/-!
# Skeletons

The skeleton of a chain of statements is the nested list of their kinds.  Each line of code has a
mark, which tells what the line opens, closes or does.  Some are not heard: those of lines that are
silent, of conditions without braces and of lines under these.  What is heard of a chain are the
marks of its skeleton, and no other skeleton has the same (`Skeleton.marks_injective`).  Lines of
which a skeleton is heard close the blocks that they open (`balanced_of_heard`).
-/

namespace BlockScript.Script

/-! ## Kinds of statements -/

/-- A statement without others inside. -/
inductive Leaf where
  | assign
  | addAssign
  | breakLoop
  | continueLoop
  | returnNothing
  | returnValue
  | builtin
  | call
deriving DecidableEq, Repr

/-- A statement with one chain inside. -/
inductive Enclosure where
  | whileTrue
  | repeatTimes
  | compound
deriving DecidableEq, Repr

/-- The kinds of the statements of a chain, and those of the chains inside them. -/
inductive Skeleton where
  | done
  | leaf (kind : Leaf) (next : Skeleton)
  | branch (onTrue next : Skeleton)
  | branchElse (onTrue onFalse next : Skeleton)
  | enclose (kind : Enclosure) (body next : Skeleton)
deriving DecidableEq, Repr

/-! ## Marks -/

inductive Opening where
  | whenTrue
  /-- The block that ends a loop. -/
  | unless
  | otherwise
  | enclosure (kind : Enclosure)
deriving DecidableEq, Repr

/-- What a line tells of the statement that it belongs to. -/
inductive Mark where
  | silent
  /-- A condition without braces: it and the next line belong together. -/
  | guard
  | leaf (kind : Leaf)
  | opens (what : Opening)
  | closes
deriving DecidableEq, Repr

/-- The marks without those of silent lines, of conditions without braces and of lines under
these. -/
def heard : List Mark → List Mark
  | [] => []
  | .guard :: .leaf _ :: r => heard r
  | .guard :: r | .silent :: r => heard r
  | m :: r => m :: heard r

/-- The marks are heard as others, whatever follows them. -/
def Heard (ms heardAs : List Mark) : Prop :=
  ∀ rest, heard (ms ++ rest) = heardAs ++ heard rest

namespace Heard

variable {a b a' b' : List Mark}

theorem nil : Heard [] [] := fun _ => rfl

theorem append (h : Heard a b) (h' : Heard a' b') : Heard (a ++ a') (b ++ b') := by
  intro rest
  rw [List.append_assoc, h, h', List.append_assoc]

theorem silent : Heard [.silent] [] := fun _ => rfl

theorem guarded (k : Leaf) : Heard [.guard, .leaf k] [] := fun _ => rfl

theorem leaf (k : Leaf) : Heard [.leaf k] [.leaf k] := fun _ => rfl

theorem opens (o : Opening) : Heard [.opens o] [.opens o] := fun _ => rfl

theorem closes : Heard [.closes] [.closes] := fun _ => rfl

theorem heard_eq (h : Heard a b) : heard a = b := by
  have hall := h []
  simpa [heard] using hall

end Heard

namespace Skeleton

/-- The marks inside a statement that come before those of its chain: a loop starts with the test
that ends it. -/
def start : Enclosure → List Mark
  | .whileTrue => [.opens .unless, .leaf .breakLoop, .closes]
  | .repeatTimes | .compound => []

def marks : Skeleton → List Mark
  | done => []
  | leaf k r => .leaf k :: r.marks
  | branch t r => .opens .whenTrue :: (t.marks ++ .closes :: r.marks)
  | branchElse t e r =>
    .opens .whenTrue :: (t.marks ++ .closes :: .opens .otherwise :: (e.marks ++ .closes :: r.marks))
  | enclose k b r => .opens (.enclosure k) :: (start k ++ (b.marks ++ .closes :: r.marks))

/-- What stands behind the lines of a chain: nothing, or the end of the block around it. -/
def Ended (ms : List Mark) : Prop :=
  ∀ m ∈ ms.head?, m = .closes

theorem ended_nil : Ended [] := fun _ hm => nomatch hm

theorem ended_closes (ms : List Mark) : Ended (.closes :: ms) := by
  intro m hm
  exact (Option.mem_some.mp hm).symm

/-- No chain starts with an alternative. -/
theorem marks_append_ne {s : Skeleton} {a r : List Mark} (ha : Ended a) :
    s.marks ++ a ≠ .opens .otherwise :: r := by
  cases s with
  | done =>
      rintro rfl
      cases ha _ rfl
  | leaf _ _ | branch _ _ | branchElse _ _ _ | enclose _ _ _ =>
      intro h
      injection h with hhead _
      cases hhead

/-- The marks tell where a chain ends, and what it is. -/
theorem marks_append_inj {s t : Skeleton} {a b : List Mark} (ha : Ended a) (hb : Ended b)
    (h : s.marks ++ a = t.marks ++ b) : s = t ∧ a = b := by
  induction s generalizing t a b with
  | done =>
      cases t with
      | done => exact ⟨rfl, h⟩
      | leaf _ _ | branch _ _ | branchElse _ _ _ | enclose _ _ _ =>
          cases ha _ (congrArg List.head? h)
  | leaf k r ih =>
      cases t with
      | done => cases hb _ (congrArg List.head? h.symm)
      | leaf k' r' =>
          injection h with hhead hrest
          obtain ⟨rfl, hab⟩ := ih ha hb hrest
          cases hhead
          exact ⟨rfl, hab⟩
      | branch _ _ | branchElse _ _ _ | enclose _ _ _ =>
          injection h with hhead _
          cases hhead
  | branch u r ihu ihr =>
      cases t with
      | done => cases hb _ (congrArg List.head? h.symm)
      | branch u' r' =>
          simp only [marks, List.cons_append, List.append_assoc, List.cons.injEq, true_and] at h
          obtain ⟨rfl, hclosed⟩ := ihu (ended_closes _) (ended_closes _) h
          obtain ⟨rfl, hab⟩ := ihr ha hb (List.cons.inj hclosed).2
          exact ⟨rfl, hab⟩
      | branchElse u' e' r' =>
          -- what follows the first block is an alternative on one side only
          simp only [marks, List.cons_append, List.append_assoc, List.cons.injEq, true_and] at h
          obtain ⟨-, hclosed⟩ := ihu (ended_closes _) (ended_closes _) h
          exact absurd (List.cons.inj hclosed).2 (marks_append_ne ha)
      | leaf _ _ | enclose _ _ _ =>
          injection h with hhead _
          cases hhead
  | branchElse u e r ihu ihe ihr =>
      cases t with
      | done => cases hb _ (congrArg List.head? h.symm)
      | branch u' r' =>
          simp only [marks, List.cons_append, List.append_assoc, List.cons.injEq, true_and] at h
          obtain ⟨-, hclosed⟩ := ihu (ended_closes _) (ended_closes _) h
          exact absurd (List.cons.inj hclosed).2.symm (marks_append_ne hb)
      | branchElse u' e' r' =>
          simp only [marks, List.cons_append, List.append_assoc, List.cons.injEq, true_and] at h
          obtain ⟨rfl, hclosed⟩ := ihu (ended_closes _) (ended_closes _) h
          simp only [List.cons.injEq, true_and] at hclosed
          obtain ⟨rfl, hclosed'⟩ := ihe (ended_closes _) (ended_closes _) hclosed
          obtain ⟨rfl, hab⟩ := ihr ha hb (List.cons.inj hclosed').2
          exact ⟨rfl, hab⟩
      | leaf _ _ | enclose _ _ _ =>
          injection h with hhead _
          cases hhead
  | enclose k u r ihu ihr =>
      cases t with
      | done => cases hb _ (congrArg List.head? h.symm)
      | enclose k' u' r' =>
          simp only [marks, List.cons_append, List.append_assoc, List.cons.injEq, Mark.opens.injEq,
            Opening.enclosure.injEq] at h
          obtain ⟨rfl, htail⟩ := h
          obtain ⟨rfl, hclosed⟩ :=
            ihu (ended_closes _) (ended_closes _) (List.append_cancel_left htail)
          obtain ⟨rfl, hab⟩ := ihr ha hb (List.cons.inj hclosed).2
          exact ⟨rfl, hab⟩
      | leaf _ _ | branch _ _ | branchElse _ _ _ =>
          injection h with hhead _
          cases hhead

theorem marks_injective {s t : Skeleton} (h : s.marks = t.marks) : s = t :=
  (marks_append_inj ended_nil ended_nil (congrArg (· ++ []) h)).1

end Skeleton

/-! ## Code of statements -/

def lockFunctions : List String :=
  ["_genLockObj", "_tryLock", "_unlock"]

/-- The words that the lines start with that hold no assignment and no call of the program. -/
def leadingWords : List (List Char) :=
  ["let", "const", "_callStack", "break", "continue", "return"].map String.toList

def firstWord (s : List Char) : List Char :=
  s.takeWhile isWordChar

def afterWord (s : List Char) : List Char :=
  s.dropWhile isWordChar

/-- A library function is named by words and points, of which the first is no leading word and no
name of the program, and it handles no lock. -/
def Callee.Ordinary : Callee → Prop
  | library name => (library name).Proper ∧ firstWord name.toList ∉ leadingWords ∧
      isNumbered (firstWord name.toList) = false ∧ name ∉ lockFunctions
  | user _ => True

instance : DecidablePred Callee.Ordinary
  | .library name => inferInstanceAs (Decidable ((Callee.library name).Proper ∧ _ ∧ _ ∧ _))
  | .user _ => .isTrue trivial

namespace Code

/-- The code is of a statement, or of a declaration in front of statements.  `notes` says whether
declarations may show the names that the user gave them. -/
def Ordinary (notes : Bool) : Code → Prop
  | declare _ _ note => notes = true ∨ note = none
  | bind _ (.call c) | perform c => c.callee.Ordinary
  | createLock _ | unlock _ | register _ _ | openFunction _ _ _ | openTryLock _ | openTry
  | openFinally => False
  | _ => True

theorem Ordinary.clean {code : Code} (h : code.Ordinary false) : code.Clean := by
  have hproper : ∀ {callee : Callee}, callee.Ordinary → callee.Proper := by
    intro callee hcallee
    cases callee with
    | library _ => exact hcallee.1
    | user _ => trivial
  cases code with
  | declare n initial note => exact h.resolve_left Bool.false_ne_true
  | bind n value =>
      cases value with
      | call c => exact hproper h
      | binary _ _ _ | unary _ _ => trivial
  | perform c => exact hproper h
  | openFunction _ _ _ => exact h.elim
  | createLock _ | bindLimit _ _ | assign _ _ | addAssign _ _ | enterCall _ | leaveCall
    | ifNotFinite _ | ifUndefined _ | breakLoop | continueLoop | returnValue _ | unlock _
    | register _ _ | openIf _ | openUnless _ | openElse | openWhile | openRepeat _ | openBlock
    | openTryLock _ | openTry | openFinally | close => trivial

def mark : Code → Mark
  | assign _ _ => .leaf .assign
  | addAssign _ _ => .leaf .addAssign
  | perform ⟨.library _, _⟩ => .leaf .builtin
  | perform ⟨.user _, _⟩ => .leaf .call
  | ifNotFinite _ | ifUndefined _ => .guard
  | breakLoop => .leaf .breakLoop
  | continueLoop => .leaf .continueLoop
  | returnValue none => .leaf .returnNothing
  | returnValue (some _) => .leaf .returnValue
  | openIf _ => .opens .whenTrue
  | openUnless _ => .opens .unless
  | openElse => .opens .otherwise
  | openWhile => .opens (.enclosure .whileTrue)
  | openRepeat _ => .opens (.enclosure .repeatTimes)
  | openBlock => .opens (.enclosure .compound)
  | close => .closes
  | _ => .silent

end Code

/-! ## Blocks that are closed -/

/-- How many blocks are open after a line, if it closes none but those that are open. -/
def Code.openAfter? (n : Nat) (code : Code) : Option Nat :=
  match code.nesting, n with
  | .within, n => some n
  | .opens _, n => some (n + 1)
  | .closes, n + 1 => some n
  | .closes, 0 => none

/-- The lines close the blocks that they open, and no other. -/
def Balanced (ls : List Line) : Prop :=
  (ls.map Line.code).foldlM Code.openAfter? 0 = some 0

def Mark.openAfter? (n : Nat) (m : Mark) : Option Nat :=
  match m, n with
  | .opens _, n => some (n + 1)
  | .closes, n + 1 => some n
  | .closes, 0 => none
  | _, n => some n

theorem openAfter?_mark {notes : Bool} {code : Code} (h : code.Ordinary notes) (n : Nat) :
    code.mark.openAfter? n = code.openAfter? n := by
  cases code with
  | createLock _ | unlock _ | register _ _ | openFunction _ _ _ | openTryLock _ | openTry
    | openFinally => exact h.elim
  | perform c => obtain ⟨_ | _, _⟩ := c <;> rfl
  | returnValue value => cases value <;> rfl
  | close => cases n <;> rfl
  | declare _ _ _ | bind _ _ | bindLimit _ _ | assign _ _ | addAssign _ _ | enterCall _ | leaveCall
    | ifNotFinite _ | ifUndefined _ | breakLoop | continueLoop | openIf _ | openUnless _ | openElse
    | openWhile | openRepeat _ | openBlock => rfl

theorem foldlM_heard (ms : List Mark) (n : Nat) :
    (heard ms).foldlM Mark.openAfter? n = ms.foldlM Mark.openAfter? n := by
  fun_induction heard ms generalizing n with
  | case1 => rfl
  | case2 k r ih => exact ih n
  | case3 r _ ih => exact ih n
  | case4 r ih => exact ih n
  | case5 m r _ _ _ ih =>
      rw [List.foldlM_cons, List.foldlM_cons]
      simp only [ih]

theorem Skeleton.foldlM_marks (s : Skeleton) (n : Nat) :
    s.marks.foldlM Mark.openAfter? n = some n := by
  induction s generalizing n with
  | done => rfl
  | leaf k r ih => exact ih n
  | branch t r iht ihr =>
      simp [marks, Mark.openAfter?, List.foldlM_append, List.foldlM_cons, iht, ihr]
  | branchElse t e r iht ihe ihr =>
      simp [marks, Mark.openAfter?, List.foldlM_append, List.foldlM_cons, iht, ihe, ihr]
  | enclose k b r ihb ihr =>
      have hstart : (start k).foldlM Mark.openAfter? (n + 1) = some (n + 1) := by
        cases k <;> rfl
      simp [marks, Mark.openAfter?, List.foldlM_append, List.foldlM_cons, hstart, ihb, ihr]

/-- The lines of a skeleton close the blocks that they open. -/
theorem balanced_of_heard {notes : Bool} {ls : List Line} {s : Skeleton}
    (hordinary : ∀ l ∈ ls, l.code.Ordinary notes)
    (h : Heard (ls.map fun l => l.code.mark) s.marks) : Balanced ls := by
  have hmarks : ∀ n, (ls.map fun l => l.code.mark).foldlM Mark.openAfter? n =
      (ls.map Line.code).foldlM Code.openAfter? n := by
    clear h
    induction ls with
    | nil => exact fun n => rfl
    | cons l ls ih =>
        rw [List.forall_mem_cons] at hordinary
        intro n
        simp only [List.map_cons, List.foldlM_cons, openAfter?_mark hordinary.1, ih hordinary.2]
  rw [Balanced, ← hmarks, ← foldlM_heard, h.heard_eq, s.foldlM_marks]

end BlockScript.Script
