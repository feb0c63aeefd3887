import BlockScript.Json.Draft
import BlockScript.Json.Value
/-!
# Codecs

A codec says how the values of a type are written as JSON and how they are read from a draft. There
are codecs for plain values, options and lists, for records, described by the list of their fields,
and for types with variants. A record may be read from an object, with its fields in any order and
among others, or from an array of its fields.
-/

namespace BlockScript.Json

structure Codec (α : Type) where
  encode : α → Value
  decode : Draft → Except Fault α

namespace Codec

def bool : Codec Bool where
  encode := .bool
  decode
    | .bool b => .ok b
    | d => .error (d.mismatch "a boolean")

def text (expected : String) : Codec String where
  encode := .string
  decode
    | .string s _ => s
    | d => .error (d.mismatch expected)

def string : Codec String := text "a string"

def word : Codec UInt32 where
  encode n := .number n.toNat
  decode
    | .number (.ok (.natural n)) _ =>
      if n < UInt32.size then .ok (UInt32.ofNat n) else .error (.wrongInteger n "u32")
    | .number (.ok (.negative n)) _ => .error (.wrongInteger (-n) "u32")
    | d => .error (d.mismatch "u32")

def unit : Codec Unit where
  encode _ := .null
  decode
    | .null => .ok ()
    | d => .error (d.mismatch "unit")

def option {α : Type} (c : Codec α) : Codec (Option α) where
  encode := Value.ofOption c.encode
  decode
    | .null => .ok none
    | .brokenNull f => .error f
    | d => (c.decode d).map some

def decodeItems {α : Type} (decode : Draft → Except Fault α) : List Draft → Except Fault (List α)
  | [] => .ok []
  | d :: r => do
    let a ← decode d
    let as ← decodeItems decode r
    pure (a :: as)

def list {α : Type} (c : Codec α) : Codec (List α) where
  encode as := .array (as.map c.encode)
  decode
    | .array items ending => do
      let as ← decodeItems c.decode items
      Draft.listEnd ending
      pure as
    | d => .error (d.mismatch "a sequence")

def imap {α β : Type} (c : Codec α) (into : α → β) (out : β → α) : Codec β where
  encode b := c.encode (out b)
  decode d := (c.decode d).map into

end Codec

structure Field (α : Type) where
  name : String
  codec : Codec α
  /-- The value of the field when it is not given; a field without one is required. -/
  absent : Option α
  /-- Whether the field is left out when it has this value. -/
  omits : α → Bool

namespace Field

/-- A field that is always written and has to be given. -/
def required {α : Type} (name : String) (codec : Codec α) : Field α :=
  ⟨name, codec, none, fun _ => false⟩

/-- A field that is always written and may be left out. -/
def withDefault {α : Type} (name : String) (codec : Codec α) (absent : α) : Field α :=
  ⟨name, codec, some absent, fun _ => false⟩

def optional {α : Type} (name : String) (codec : Codec α) : Field (Option α) :=
  ⟨name, codec.option, some none, Option.isNone⟩

end Field

/-- The fields of a record, one for each of the types. -/
def Fields : List Type → Type
  | [] => Unit
  | α :: αs => Field α × Fields αs

def Row : List Type → Type
  | [] => Unit
  | α :: αs => α × Row αs

/-- The values of a record's fields as far as they have been given. -/
def Slots : List Type → Type
  | [] => Unit
  | α :: αs => Option α × Slots αs

def Slots.empty : (αs : List Type) → Slots αs
  | [] => ()
  | _ :: αs => (none, empty αs)

namespace Fields

/-- The members of the object that stands for a record. -/
def write : {αs : List Type} → Fields αs → Row αs → List (String × Value)
  | [], _, _ => []
  | _ :: _, (f, fs), (a, row) =>
    if f.omits a then write fs row else (f.name, f.codec.encode a) :: write fs row

/-- Reads a member into the slot of the field of that name; none if no field has the name. -/
def place : {αs : List Type} → Fields αs → String → Draft → Slots αs →
    Option (Except Fault (Slots αs))
  | [], _, _, _, _ => none
  | _ :: _, (f, fs), name, d, (slot, slots) =>
    if f.name = name then
      match slot with
      | some _ => some (.error (.repeatedField name))
      | none => some ((f.codec.decode d).map fun a => (some a, slots))
    else (place fs name d slots).map fun placed => placed.map fun slots => (slot, slots)

/-- Reads the members of an object into the slots of a record. Members of other names are passed
over. -/
def readMembers {αs : List Type} (fs : Fields αs) :
    List (Key × Draft) → Slots αs → Except Fault (Slots αs)
  | [], slots => .ok slots
  | (key, d) :: r, slots => do
    let name ← Draft.keyText key
    match fs.place name d slots with
    | some placed => do
      let slots ← placed
      fs.readMembers r slots
    | none => do
      d.skip
      fs.readMembers r slots

/-- Reads the items of an array into the slots of a record, in the order of the fields, and gives
the items left over. -/
def readItems : {αs : List Type} → Fields αs → List Draft → Except Fault (Slots αs × List Draft)
  | [], _, items => .ok ((), items)
  | _ :: αs, _, [] => .ok ((none, Slots.empty αs), [])
  | _ :: _, (f, fs), d :: items => do
    let a ← f.codec.decode d
    let (slots, rest) ← readItems fs items
    pure ((some a, slots), rest)

/-- Takes the values from the slots, and defaults where nothing was given. `fault` says what is
wrong when a required field, given by its position and name, is empty. -/
def complete : {αs : List Type} → Fields αs → (fault : Nat → String → Fault) → Nat → Slots αs →
    Except Fault (Row αs)
  | [], _, _, _, _ => .ok ()
  | _ :: _, (f, fs), fault, position, (slot, slots) =>
    match slot.or f.absent with
    | none => .error (fault position f.name)
    | some a => do
      let row ← complete fs fault (position + 1) slots
      pure (a, row)

def read {αs : List Type} (fs : Fields αs) (title : String) : Draft → Except Fault (Row αs)
  | .object members ending => do
    let slots ← fs.readMembers members (Slots.empty αs)
    Draft.objectEnd ending
    fs.complete (fun _ name => .missingField name) 0 slots
  | .array items ending => do
    let (slots, rest) ← fs.readItems items
    if items.length < αs.length then Draft.listEnd ending
    let row ← fs.complete (fun position _ => .wrongLength position title αs.length) 0 slots
    if rest.isEmpty then Draft.recordEnd ending else .error .trailingText
    pure row
  | d => .error (d.mismatch title)

end Fields

def Codec.record {α : Type} {αs : List Type} (title : String) (fs : Fields αs) (build : Row αs → α)
    (parts : α → Row αs) : Codec α where
  encode a := .object (fs.write (parts a))
  decode d := (fs.read title d).map build

/-- What a variant of a type carries, and how that is read. -/
inductive Payload (α : Type) where
  | unit (a : α)
  | single (decode : Draft → Except Fault α)
  | record (decode : Draft → Except Fault α)

structure Variant (α : Type) where
  name : String
  payload : Payload α

namespace Variant

def unit {α : Type} (name : String) (a : α) : Variant α :=
  ⟨name, .unit a⟩

def single {α β : Type} (name : String) (codec : Codec β) (build : β → α) : Variant α :=
  ⟨name, .single fun d => (codec.decode d).map build⟩

def record {α : Type} {αs : List Type} (name title : String) (fs : Fields αs)
    (build : Row αs → α) : Variant α :=
  ⟨name, .record fun d => (fs.read title d).map build⟩

def find {α : Type} (variants : List (Variant α)) (name : String) : Except Fault (Payload α) :=
  match variants.find? fun v => v.name == name with
  | some v => .ok v.payload
  | none => .error (.unknownVariant name (variants.map Variant.name))

def readPayload {α : Type} : Payload α → Draft → Except Fault α
  | .unit a, d => (Codec.unit.decode d).map fun _ => a
  | .single decode, d => decode d
  | .record decode, d => decode d

/-- Reads a value of a type with variants: the name alone for a variant that carries nothing, or
an object whose only member has the name of the variant. -/
def read {α : Type} (variants : List (Variant α)) : Draft → Except Fault α
  | .missing f => .error f
  | .string text _ => do
    let name ← text
    match ← find variants name with
    | .unit a => pure a
    | .single _ => .error (.wrongType .unitVariant "newtype variant")
    | .record _ => .error (.wrongType .unitVariant "struct variant")
  | .object [] .ended => .error .endInObject
  | .object [] _ => .error .expectedValue
  | .object ((.other, _) :: _) _ => .error .keyNotString
  | .object ((.quoted text _, d) :: r) ending => do
    let name ← text
    let payload ← find variants name
    let a ← match d with
      | .missing f => .error f
      | d => readPayload payload d
    if r.isEmpty then Draft.variantEnd ending else .error .expectedValue
    pure a
  | _ => .error .expectedValue

end Variant

def Codec.variants {α : Type} (variants : List (Variant α)) (encode : α → Value) : Codec α where
  encode := encode
  decode := Variant.read variants

def Codec.enumeration {α : Type} (values : List α) (name : α → String) : Codec α :=
  .variants (values.map fun a => .unit (name a) a) fun a => .string (name a)

def Codec.parse {α : Type} (c : Codec α) (s : String) : Except Fault α := do
  let (d, trailing) := Draft.ofText s.toList
  let a ← c.decode d
  if trailing then .error .trailingText else pure a

end BlockScript.Json
