import BlockScript.Json.Quoted
/-!
# Drafts of JSON documents

A draft is a document as far as its text could be followed. Reading a text always gives a draft:
where the text breaks off or does not fit, the draft holds the fault in that place and ends there.
A decoder that goes through a draft from the front so meets the first problem of the document,
whether it is one of the text or one of the contents.
-/

namespace BlockScript.Json

inductive ListEnd where
  /-- With the closing bracket. -/
  | closed
  /-- With the text, after an item or after the opening bracket. -/
  | ended
  /-- With a comma before the closing bracket. -/
  | danglingComma
  /-- With something that is neither a comma nor the closing bracket. -/
  | noSeparator
  /-- With an item at which the text breaks off. -/
  | cut
deriving DecidableEq, Repr

inductive ObjectEnd where
  /-- With the closing brace. -/
  | closed
  /-- With the text, after a member or after the opening brace. -/
  | ended
  /-- With a comma before the closing brace. -/
  | danglingComma
  /-- With the text after a comma. -/
  | commaThenEnd
  /-- With something that is neither a comma nor the closing brace. -/
  | noSeparator
  /-- With a member at which the text breaks off. -/
  | cut
deriving DecidableEq, Repr

inductive Key where
  /-- A string: its value, and whether it can be skipped. -/
  | quoted (text : Except Fault String) (skip : Except Fault Unit)
  | other

/-- A document as far as its text could be followed. -/
inductive Draft where
  /-- No value stands here. -/
  | missing (fault : Fault)
  /-- The word `null` was begun. -/
  | brokenNull (fault : Fault)
  /-- One of the words `true` and `false` was begun. -/
  | brokenBool (fault : Fault)
  | null
  | bool (b : Bool)
  /-- A number: its value, and whether it can be skipped. -/
  | number (value : Except Fault Number) (skip : Except Fault Unit)
  /-- A string: its value, and whether it can be skipped. -/
  | string (text : Except Fault String) (skip : Except Fault Unit)
  | array (items : List Draft) (ending : ListEnd)
  | object (members : List (Key × Draft)) (ending : ObjectEnd)

namespace Draft

def isSpace (c : Char) : Bool :=
  c == ' ' || c == '\n' || c == '\t' || c == '\r'

def skipSpace (s : List Char) : List Char :=
  s.dropWhile isSpace

def word : List Char → List Char → Except Fault (List Char)
  | [], s => .ok s
  | _ :: _, [] => .error .endInValue
  | w :: ws, c :: s => if c = w then word ws s else .error .expectedWord

/-- The draft of a word that has been taken off a text, and what follows it; `broken` gives the
draft where the word does not stand. -/
def ofWord (value : Draft) (broken : Fault → Draft) :
    Except Fault (List Char) → Draft × Option (List Char)
  | .ok rest => (value, some rest)
  | .error f => (broken f, none)

def ofNumber (negative : Bool) (s : List Char) : Draft × Option (List Char) :=
  match Lexeme.scan negative s with
  | .ok (l, rest) => (.number (l.value?.elim (.error .numberTooLarge) .ok) (.ok ()), some rest)
  | .error .ended => (.number (.error .endInValue) (.error .malformedNumber), none)
  | .error .malformed => (.number (.error .malformedNumber) (.error .malformedNumber), none)

/-- What is known of a string after its opening quote: its value, whether it can be skipped, and
what follows it. -/
def ofQuoted (s : List Char) : Except Fault String × Except Fault Unit × Option (List Char) :=
  let text := (Quoted.read s).map fun (t, _) => String.ofList t
  match Quoted.skip s with
  | .ok rest => (text, .ok (), some rest)
  | .error f => (text, .error f, none)

mutual

def value : Nat → List Char → Draft × Option (List Char)
  | 0, _ => (.missing .endInValue, none)
  | fuel + 1, s =>
    match skipSpace s with
    | [] => (.missing .endInValue, none)
    | c :: r =>
      if c = 'n' then ofWord .null .brokenNull (word ['u', 'l', 'l'] r)
      else if c = 't' then ofWord (.bool true) .brokenBool (word ['r', 'u', 'e'] r)
      else if c = 'f' then ofWord (.bool false) .brokenBool (word ['a', 'l', 's', 'e'] r)
      else if c = '-' then ofNumber true r
      else if c.isDigit then ofNumber false (c :: r)
      else if c = '"' then
        let (text, skip, rest) := ofQuoted r
        (.string text skip, rest)
      else if c = '[' then
        match skipSpace r with
        | [] => (.array [] .ended, none)
        | ']' :: r => (.array [] .closed, some r)
        | r =>
          let (items, ending, rest) := items fuel r
          (.array items ending, rest)
      else if c = '\x7b' then
        match skipSpace r with
        | [] => (.object [] .ended, none)
        | '\x7d' :: r => (.object [] .closed, some r)
        | r =>
          let (members, ending, rest) := members fuel r
          (.object members ending, rest)
      else (.missing .expectedValue, none)

def items : Nat → List Char → List Draft × ListEnd × Option (List Char)
  | 0, _ => ([], .cut, none)
  | fuel + 1, s =>
    match value fuel s with
    | (d, none) => ([d], .cut, none)
    | (d, some rest) =>
      match skipSpace rest with
      | [] => ([d], .ended, none)
      | ']' :: r => ([d], .closed, some r)
      | ',' :: r =>
        match skipSpace r with
        | ']' :: _ => ([d], .danglingComma, none)
        | r =>
          let (ds, ending, rest) := items fuel r
          (d :: ds, ending, rest)
      | _ => ([d], .noSeparator, none)

def members : Nat → List Char → List (Key × Draft) × ObjectEnd × Option (List Char)
  | 0, _ => ([], .cut, none)
  | fuel + 1, s =>
    match s with
    | '"' :: r =>
      match ofQuoted r with
      | (text, skip, none) => ([(.quoted text skip, .missing .endInString)], .cut, none)
      | (text, skip, some rest) =>
        match skipSpace rest with
        | ':' :: r =>
          match value fuel r with
          | (d, none) => ([(.quoted text skip, d)], .cut, none)
          | (d, some rest) =>
            match skipSpace rest with
            | [] => ([(.quoted text skip, d)], .ended, none)
            | '\x7d' :: r => ([(.quoted text skip, d)], .closed, some r)
            | ',' :: r =>
              match skipSpace r with
              | [] => ([(.quoted text skip, d)], .commaThenEnd, none)
              | '\x7d' :: _ => ([(.quoted text skip, d)], .danglingComma, none)
              | r =>
                let (ms, ending, rest) := members fuel r
                ((.quoted text skip, d) :: ms, ending, rest)
            | _ => ([(.quoted text skip, d)], .noSeparator, none)
        | [] => ([(.quoted text skip, .missing .endInObject)], .cut, none)
        | _ => ([(.quoted text skip, .missing .expectedColon)], .cut, none)
    | _ => ([(.other, .missing .keyNotString)], .cut, none)

end

/-- The draft of a whole text, and whether something follows the value. Every step of the reading
takes a character, or opens a bracket taken just before, so twice the length bounds the steps. -/
def ofText (s : List Char) : Draft × Bool :=
  let (d, rest) := value (2 * s.length + 2) s
  (d, rest.any fun r => !(skipSpace r).isEmpty)

/-- The fault of finding another kind of value than the expected one, unless the value itself is
faulty. -/
def mismatch (expected : String) : Draft → Fault
  | missing f => f
  | brokenNull f => f
  | brokenBool f => f
  | null => .wrongType .null expected
  | bool b => .wrongType (.bool b) expected
  | number (.ok n) _ => .wrongType (.number n) expected
  | number (.error f) _ => f
  | string (.ok s) _ => .wrongType (.string s) expected
  | string (.error f) _ => f
  | array _ _ => .wrongType .sequence expected
  | object _ _ => .wrongType .map expected

mutual

/-- Passes a value over: its text must be sound, whatever its contents. -/
def skip : Draft → Except Fault Unit
  | missing f => .error f
  | brokenNull f => .error f
  | brokenBool f => .error f
  | null => .ok ()
  | bool _ => .ok ()
  | number _ s => s
  | string _ s => s
  | array items ending => do
    skipItems items
    match ending with
    | .closed => .ok ()
    | .ended | .cut => .error .endInList
    | .danglingComma => .error .expectedValue
    | .noSeparator => .error .expectedListSeparator
  | object members ending => do
    skipMembers members
    match ending with
    | .closed => .ok ()
    | .ended | .commaThenEnd | .cut => .error .endInObject
    | .danglingComma => .error .keyNotString
    | .noSeparator => .error .expectedObjectSeparator

def skipItems : List Draft → Except Fault Unit
  | [] => .ok ()
  | d :: r => do d.skip; skipItems r

def skipMembers : List (Key × Draft) → Except Fault Unit
  | [] => .ok ()
  | (.quoted _ s, d) :: r => do s; d.skip; skipMembers r
  | (.other, _) :: _ => .error .keyNotString

end

def keyText : Key → Except Fault String
  | .quoted text _ => text
  | .other => .error .keyNotString

/-- The fault of a list that is not closed, for a decoder that takes all its items. -/
def listEnd : ListEnd → Except Fault Unit
  | .closed => .ok ()
  | .ended | .cut => .error .endInList
  | .danglingComma => .error .trailingComma
  | .noSeparator => .error .expectedListSeparator

/-- The fault of a list that is not closed, for a decoder that takes as many items as a record has
fields, and has taken that many. -/
def recordEnd : ListEnd → Except Fault Unit
  | .closed => .ok ()
  | .ended | .cut => .error .endInList
  | .danglingComma => .error .trailingComma
  | .noSeparator => .error .trailingText

def objectEnd : ObjectEnd → Except Fault Unit
  | .closed => .ok ()
  | .ended | .cut => .error .endInObject
  | .danglingComma => .error .trailingComma
  | .commaThenEnd => .error .endInValue
  | .noSeparator => .error .expectedObjectSeparator

def variantEnd : ObjectEnd → Except Fault Unit
  | .closed => .ok ()
  | .ended | .cut => .error .endInObject
  | .danglingComma | .commaThenEnd | .noSeparator => .error .expectedValue

end Draft

end BlockScript.Json
