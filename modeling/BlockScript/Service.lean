import BlockScript.Compiler
/-!
# The compile service

A service runs the requests of many callers one at a time. A request waits for the service's lock,
holds it while its compile runs, and then releases it; the lock goes to those who wait in the order
of their arrival. A caller may abandon a request: one that waits leaves the queue, one that holds
the lock releases it, and a compile that has begun runs on to its end without anyone to answer.

`Service.step?` gives the state after one event, or none where the event cannot happen.
-/

namespace BlockScript

inductive Phase where
  | acquired
  | running
  | finished
deriving DecidableEq, Repr

structure Ticket where
  number : Nat
  request : Request

structure Service where
  compiler : Compiler
  files : FileTree
  arrived : Nat
  /-- Those who wait for the lock, in the order of their arrival. -/
  waiting : List Ticket
  /-- The request that holds the lock. -/
  holder : Option (Ticket × Phase)
  /-- The compiles that run on although their callers have left. -/
  abandoned : List Ticket
  /-- The answers given, by the numbers of their requests. -/
  answers : List (Nat × Except Error Path)

namespace Service

def start (compiler : Compiler) (files : FileTree) : Service :=
  ⟨compiler, files, 0, [], none, [], []⟩

inductive Step where
  | arrive (r : Request)
  /-- The first who waits takes the free lock. -/
  | acquire
  /-- The compile of the holder is handed over, and runs whether its caller stays or not. -/
  | begin
  /-- The compile of the holder ends. -/
  | finish
  /-- The holder gets its answer and releases the lock. -/
  | release
  /-- The caller of a request leaves. -/
  | abandon (number : Nat)
  /-- A compile whose caller has left ends. -/
  | finishAbandoned (number : Nat)

def isBusy (s : Service) : Bool := s.holder.isSome

def running (s : Service) : Nat :=
  s.abandoned.length + (match s.holder with | some (_, .running) => 1 | _ => 0)

/-- The state after an event, or none where it cannot happen. The compile of a request takes effect
on the files when it ends. -/
def step? (s : Service) : Step → Option Service
  | .arrive r =>
    some { s with arrived := s.arrived + 1, waiting := s.waiting ++ [⟨s.arrived, r⟩] }
  | .acquire =>
    match s.holder, s.waiting with
    | none, t :: r => some { s with waiting := r, holder := some (t, .acquired) }
    | _, _ => none
  | .begin =>
    match s.holder with
    | some (t, .acquired) => some { s with holder := some (t, .running) }
    | _ => none
  | .finish =>
    match s.holder with
    | some (t, .running) =>
      let (files, outcome) := s.compiler.compile t.request s.files
      some { s with
        files := files
        holder := some (t, .finished)
        answers := s.answers ++ [(t.number, outcome.result)] }
    | _ => none
  | .release =>
    match s.holder with
    | some (_, .finished) => some { s with holder := none }
    | _ => none
  | .abandon number =>
    match s.holder with
    | some (t, phase) =>
      if t.number = number then
        some { s with
          holder := none
          abandoned := if phase = .running then s.abandoned ++ [t] else s.abandoned }
      else some { s with waiting := s.waiting.filter fun t => t.number ≠ number }
    | none => some { s with waiting := s.waiting.filter fun t => t.number ≠ number }
  | .finishAbandoned number =>
    match s.abandoned.find? fun t => t.number = number with
    | some t =>
      some { s with
        files := (s.compiler.compile t.request s.files).1
        abandoned := s.abandoned.filter fun t => t.number ≠ number }
    | none => none

def run? (s : Service) : List Step → Option Service
  | [] => some s
  | e :: r => (s.step? e).bind fun s => s.run? r

/-- The events by which one waiting request is served from its turn to its answer. -/
def turn : List Step := [.acquire, .begin, .finish, .release]

/-- The state after events that can happen; an event that cannot is passed over. -/
def advance (s : Service) (steps : List Step) : Service :=
  steps.foldl (fun s e => (s.step? e).getD s) s

end Service

end BlockScript
