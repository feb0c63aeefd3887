import BlockScript.Proofs.Json.Spelling
/-!
# Documents that say the same

A value may be written as more documents than the one that a codec writes for it: a record with its
fields in any order and among unknown ones, without fields that hold their defaults, or as an array
of its fields; a variant that carries nothing as an object.  `Varies s v d`: the document `d` comes
from the value `v`, which is of the shape `s`, by any of these changes in any places.
-/

namespace BlockScript.Json

/-! ## Shapes and changes -/

/-- One field of a record: its name, the shape of its values, and what it holds if it is left out;
a field without that has to be given. -/
structure FieldShape (σ : Type) where
  name : String
  shape : σ
  absent : Option Value

namespace FieldShape

variable {σ : Type}

def required (name : String) (shape : σ) : FieldShape σ :=
  ⟨name, shape, none⟩

def withDefault (name : String) (shape : σ) (absent : Value) : FieldShape σ :=
  ⟨name, shape, some absent⟩

end FieldShape

/-- Which values stand for what, as far as that allows them to be written in more than one way. -/
inductive Shape where
  /-- A number or a text. -/
  | plain
  /-- A value, or null for none. -/
  | option (s : Shape)
  | list (s : Shape)
  | record (fields : List (FieldShape Shape))
  /-- The name of a variant that carries nothing, or an object with the name of a variant and what
  it carries; the variants that carry something are given with its shape. -/
  | variants (carried : List (String × Shape))

namespace Shape

def enumeration : Shape := .variants []

/-- The shape of a record of plain values that all have to be given. -/
def plainRecord (names : List String) : Shape :=
  .record (names.map (.required · .plain))

end Shape

/-- What a field holds according to the members that are written for its record. -/
def FieldShape.valueIn {σ : Type} (f : FieldShape σ) (ms : List (String × Value)) : Option Value :=
  (ms.lookup f.name).or f.absent

mutual

/-- The document comes from the value of this shape by changes that do not alter what it says. -/
inductive Varies : Shape → Value → Document → Prop
  | number (n : Nat) : Varies .plain (.number n) (.number (.ofNat n))
  | string {s : String} {k : StringToken} : k.text = .ok s → Varies .plain (.string s) (.string k)
  | none {s : Shape} : Varies (.option s) .null .null
  | some {s : Shape} {v : Value} {d : Document} :
      v ≠ .null → Varies s v d → Varies (.option s) v d
  | list {s : Shape} {vs : List Value} {ds : List Document} :
      VariesItems s vs ds → Varies (.list s) (.array vs) (.array ds)
  /-- The fields, as far as they are given, stand in any order among members of other names. -/
  | object {fs : List (FieldShape Shape)} {ms : List (String × Value)}
      {known unknown members : List (StringToken × Document)} :
      VariesMembers fs ms known →
      (∀ m ∈ unknown, ∃ name, m.1.text = .ok name ∧ ∀ f ∈ fs, f.name ≠ name) →
      members.Perm (known ++ unknown) → Varies (.record fs) (.object ms) (.object members)
  /-- The fields stand in an array in their own order. -/
  | array {fs : List (FieldShape Shape)} {ms : List (String × Value)} {ds : List Document} :
      VariesRow fs ms ds → Varies (.record fs) (.object ms) (.array ds)
  | unit {carried : List (String × Shape)} {name : String} {k : StringToken} :
      k.text = .ok name → Varies (.variants carried) (.string name) (.string k)
  /-- The name of a variant that carries nothing is the key of a null. -/
  | unitObject {carried : List (String × Shape)} {name : String} {k : StringToken} :
      k.text = .ok name → Varies (.variants carried) (.string name) (.object [(k, .null)])
  | tagged {carried : List (String × Shape)} {name : String} {s : Shape} {v : Value}
      {k : StringToken} {d : Document} :
      carried.lookup name = some s → k.text = .ok name → Varies s v d →
      Varies (.variants carried) (.object [(name, v)]) (.object [(k, d)])

inductive VariesItems : Shape → List Value → List Document → Prop
  | nil {s : Shape} : VariesItems s [] []
  | cons {s : Shape} {v : Value} {vs : List Value} {d : Document} {ds : List Document} :
      Varies s v d → VariesItems s vs ds → VariesItems s (v :: vs) (d :: ds)

/-- The fields that are given as members, in their own order; any that holds what it holds when it
is left out may be left out. -/
inductive VariesMembers : List (FieldShape Shape) → List (String × Value) →
    List (StringToken × Document) → Prop
  | nil {ms : List (String × Value)} : VariesMembers [] ms []
  | given {f : FieldShape Shape} {fs : List (FieldShape Shape)} {ms : List (String × Value)}
      {v : Value} {k : StringToken} {d : Document} {r : List (StringToken × Document)} :
      f.valueIn ms = .some v → k.text = .ok f.name → Varies f.shape v d → VariesMembers fs ms r →
      VariesMembers (f :: fs) ms ((k, d) :: r)
  | left {f : FieldShape Shape} {fs : List (FieldShape Shape)} {ms : List (String × Value)}
      {v : Value} {r : List (StringToken × Document)} :
      f.absent = .some v → f.valueIn ms = .some v → VariesMembers fs ms r →
      VariesMembers (f :: fs) ms r

/-- The fields that are given as items; those behind the last one hold what they hold when they are
left out. -/
inductive VariesRow : List (FieldShape Shape) → List (String × Value) → List Document → Prop
  | ended {fs : List (FieldShape Shape)} {ms : List (String × Value)} :
      (∀ f ∈ fs, ∃ v, f.absent = .some v ∧ f.valueIn ms = .some v) → VariesRow fs ms []
  | given {f : FieldShape Shape} {fs : List (FieldShape Shape)} {ms : List (String × Value)}
      {v : Value} {d : Document} {ds : List Document} :
      f.valueIn ms = .some v → Varies f.shape v d → VariesRow fs ms ds →
      VariesRow (f :: fs) ms (d :: ds)

end

theorem Varies.eq_null : {s : Shape} → {v : Value} → Varies s v .null → v = .null
  | _, _, .none => rfl
  | _, _, .some _ h => h.eq_null

end BlockScript.Json
