import BlockScript.Log
import BlockScript.Numbering
import BlockScript.Options
import BlockScript.Script.Line
/-!
# Emissions

An emission is what generating code gives: lines and events, and a value or a fault. What was given
before a fault stays given. Emissions in sequence append: `output_bind` says that the second adds
its lines after those of the first, and `bind_of_error` that there is no second if the first fails.
-/

namespace BlockScript

open Script (Line Code)

structure Output where
  lines : List Line
  events : List Event
deriving DecidableEq, Repr

namespace Output

def empty : Output := ⟨[], []⟩

def append (a b : Output) : Output :=
  ⟨a.lines ++ b.lines, a.events ++ b.events⟩

instance : Append Output := ⟨append⟩

@[simp] theorem lines_append (a b : Output) : (a ++ b).lines = a.lines ++ b.lines := rfl

@[simp] theorem events_append (a b : Output) : (a ++ b).events = a.events ++ b.events := rfl

@[simp] theorem append_empty (a : Output) : a ++ empty = a := by
  show append a empty = a
  simp [append, empty]

theorem append_assoc (a b c : Output) : a ++ b ++ c = a ++ (b ++ c) := by
  show append (append a b) c = append a (append b c)
  simp [append, List.append_assoc]

end Output

structure Emission (α : Type) where
  output : Output
  result : Except GraphFault α

namespace Emission

protected def pure {α : Type} (a : α) : Emission α := ⟨.empty, .ok a⟩

protected def bind {α β : Type} (x : Emission α) (f : α → Emission β) : Emission β :=
  match x.result with
  | .ok a => ⟨x.output ++ (f a).output, (f a).result⟩
  | .error e => ⟨x.output, .error e⟩

instance : Monad Emission where
  pure := Emission.pure
  bind := Emission.bind

def fail {α : Type} (e : GraphFault) : Emission α := ⟨.empty, .error e⟩

def lift {α : Type} (x : Except GraphFault α) : Emission α := ⟨.empty, x⟩

def line (depth : Nat) (code : Code) : Emission Unit := ⟨⟨[⟨depth, code⟩], []⟩, .ok ()⟩

def event (e : Event) : Emission Unit := ⟨⟨[], [e]⟩, .ok ()⟩

def each {α : Type} (f : α → Emission Unit) : List α → Emission Unit
  | [] => pure ()
  | a :: r => do f a; each f r

def collect {α β : Type} (f : α → Emission β) : List α → Emission (List β)
  | [] => pure []
  | a :: r => do
    let b ← f a
    let bs ← collect f r
    pure (b :: bs)

theorem bind_of_ok {α β : Type} {x : Emission α} {a : α} (h : x.result = .ok a)
    (f : α → Emission β) : x >>= f = ⟨x.output ++ (f a).output, (f a).result⟩ := by
  show Emission.bind x f = _
  rw [Emission.bind, h]

theorem bind_of_error {α β : Type} {x : Emission α} {e : GraphFault} (h : x.result = .error e)
    (f : α → Emission β) : x >>= f = ⟨x.output, .error e⟩ := by
  show Emission.bind x f = _
  rw [Emission.bind, h]

theorem result_bind_eq_ok {α β : Type} {x : Emission α} {f : α → Emission β} {b : β} :
    (x >>= f).result = .ok b ↔ ∃ a, x.result = .ok a ∧ (f a).result = .ok b := by
  cases h : x.result with
  | ok a => simp [bind_of_ok h]
  | error e => simp [bind_of_error h]

theorem output_bind {α β : Type} {x : Emission α} {a : α} (h : x.result = .ok a)
    (f : α → Emission β) : (x >>= f).output = x.output ++ (f a).output := by
  rw [bind_of_ok h]

structure Context where
  graph : Graph
  numbering : Numbering
  options : Options

namespace Context

def serial (c : Context) (id : NodeId) : Emission Nat :=
  .lift (c.numbering.serial id)

def note (c : Context) (name : String) : Option String :=
  if c.options.withComments then some name else none

/-- Runs an emission only when the program records its calls. -/
def whenDebug (c : Context) (x : Emission Unit) : Emission Unit :=
  if c.options.isDebug then x else pure ()

end Context

end Emission

end BlockScript
