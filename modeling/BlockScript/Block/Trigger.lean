import BlockScript.Json.Codec
/-!
# Triggers of event handlers

What an event handler waits for, and the event that it is registered for.
-/

namespace BlockScript

open Json (Codec Value)

/-- What an event handler waits for: a key by the name on its block, or the start of the program
and a delay in seconds. -/
inductive Trigger where
  | keyPressed (key : String)
  | delayedStart (delay : String)
deriving DecidableEq, Repr

namespace Trigger

/-- The names of the keys whose presses are events. -/
def keys : List String :=
  ["A", "B", "C", "D", "E", "F", "G", "H", "I", "J", "K", "L", "M", "N", "O", "P", "Q", "R", "S",
    "T", "U", "V", "W", "X", "Y", "Z", "DIGIT0", "DIGIT1", "DIGIT2", "DIGIT3", "DIGIT4", "DIGIT5",
    "DIGIT6", "DIGIT7", "DIGIT8", "DIGIT9", "SPACE", "ENTER", "SHIFT", "CTRL", "UP", "DOWN",
    "LEFT", "RIGHT"]

/-- The name of a key in capitals. Only the letters of ASCII have capitals here. -/
def capitals (key : String) : String :=
  String.ofList (key.toList.map Char.toUpper)

/-- The event that a handler is registered for; a key without event has none. -/
def event? : Trigger → Option String
  | keyPressed key =>
    let key := capitals key
    if keys.contains key then some ("KEY_" ++ key ++ "_PRESSED") else none
  | delayedStart _ => some "PROGRAM_START"

def describe : Trigger → String
  | keyPressed key => "KeyPressed(" ++ Text.Escaped.enclose key ++ ")"
  | delayedStart delay => "DelayedStart(" ++ Text.Escaped.enclose delay ++ ")"

def codec : Codec Trigger :=
  .variants [.single "key_pressed" .string keyPressed, .single "delayed_start" .string delayedStart]
    fun
    | keyPressed key => .tagged "key_pressed" (.string key)
    | delayedStart delay => .tagged "delayed_start" (.string delay)

end Trigger

end BlockScript
