import BlockScript.Proofs.Json.Document
/-!
# Texts of JSON values

`Spells t d`: the text `t` spells a value whose draft is `d`, with any spaces between its tokens.
The texts of the document that a value is spell it (`spells_of_isText`); its text with a line for
each entry is one of them (`isText_prettyAt`), and it is followed to its end (`ofText_pretty`).
-/

namespace BlockScript.Json

namespace Draft

def ofNatural (n : Nat) : Draft :=
  let l : Lexeme := ⟨false, Nat.toDigits 10 n, none, none⟩
  .number (l.value?.elim (.error .numberTooLarge) .ok) (.ok ())

def ofString (s : String) : Draft :=
  .string (.ok s) (.ok ())

end Draft

def Key.ofString (s : String) : Key :=
  .quoted (.ok s) (.ok ())

mutual

inductive Spells : List Char → Draft → Prop
  | null : Spells ['n', 'u', 'l', 'l'] .null
  | bool (b : Bool) : Spells (Value.word b) (.bool b)
  | natural (n : Nat) : Spells (Nat.toDigits 10 n) (.ofNatural n)
  | string (s : String) : Spells (Quoted.encode s.toList) (.ofString s)
  | emptyArray {w : List Char} : Spaces w → Spells ('[' :: (w ++ [']'])) (.array [] .closed)
  | array {w t : List Char} {ds : List Draft} :
      Spaces w → SpellsItems t ds → Spells ('[' :: (w ++ t)) (.array ds .closed)
  | emptyObject {w : List Char} : Spaces w → Spells ('\x7b' :: (w ++ ['\x7d'])) (.object [] .closed)
  | object {w t : List Char} {ms : List (Key × Draft)} :
      Spaces w → SpellsMembers t ms → Spells ('\x7b' :: (w ++ t)) (.object ms .closed)

inductive SpellsItems : List Char → List Draft → Prop
  | last {t w : List Char} {d : Draft} :
      Spells t d → Spaces w → SpellsItems (t ++ (w ++ [']'])) [d]
  | more {t w w' r : List Char} {d : Draft} {ds : List Draft} :
      Spells t d → Spaces w → Spaces w' → SpellsItems r ds →
        SpellsItems (t ++ (w ++ ',' :: (w' ++ r))) (d :: ds)

inductive SpellsMembers : List Char → List (Key × Draft) → Prop
  | last {w w' t w'' : List Char} {d : Draft} (k : String) :
      Spaces w → Spaces w' → Spells t d → Spaces w'' →
        SpellsMembers (Quoted.encode k.toList ++ (w ++ ':' :: (w' ++ (t ++ (w'' ++ ['\x7d'])))))
          [(.ofString k, d)]
  | more {w w' t w'' w₃ r : List Char} {d : Draft} {ms : List (Key × Draft)} (k : String) :
      Spaces w → Spaces w' → Spells t d → Spaces w'' → Spaces w₃ → SpellsMembers r ms →
        SpellsMembers
          (Quoted.encode k.toList ++ (w ++ ':' :: (w' ++ (t ++ (w'' ++ ',' :: (w₃ ++ r))))))
          ((.ofString k, d) :: ms)

end

/-! ## The texts of values -/

namespace Value

mutual

def draft : Value → Draft
  | null => .null
  | bool b => .bool b
  | number n => .ofNatural n
  | string s => .ofString s
  | array items => .array (draftItems items) .closed
  | object members => .object (draftMembers members) .closed

def draftItems : List Value → List Draft
  | [] => []
  | v :: r => v.draft :: draftItems r

def draftMembers : List (String × Value) → List (Key × Draft)
  | [] => []
  | (k, v) :: r => (.ofString k, v.draft) :: draftMembers r

end

mutual

def document : Value → Document
  | null => .null
  | bool b => .bool b
  | number n => .number (.ofNat n)
  | string s => .string (.ofString s)
  | array items => .array (documentItems items)
  | object members => .object (documentMembers members)

def documentItems : List Value → List Document
  | [] => []
  | v :: r => v.document :: documentItems r

def documentMembers : List (String × Value) → List (StringToken × Document)
  | [] => []
  | (k, v) :: r => (.ofString k, v.document) :: documentMembers r

end

theorem documentMembers_eq_map (ms : List (String × Value)) :
    documentMembers ms = ms.map fun m => (.ofString m.1, m.2.document) := by
  induction ms with
  | nil => rfl
  | cons m ms ih => rw [documentMembers, ih, List.map_cons]

mutual

theorem draft_document : (v : Value) → v.document.draft = v.draft
  | null | bool _ | number _ => rfl
  | string s => by
      rw [document, Document.draft, StringToken.text_ofString]
      rfl
  | array items => by rw [document, Document.draft, draftItems_document items, draft]
  | object members => by rw [document, Document.draft, draftMembers_document members, draft]

theorem draftItems_document :
    (vs : List Value) → Document.draftItems (documentItems vs) = draftItems vs
  | [] => rfl
  | v :: r => by
      rw [documentItems, Document.draftItems, draft_document v, draftItems_document r, draftItems]

theorem draftMembers_document :
    (ms : List (String × Value)) → Document.draftMembers (documentMembers ms) = draftMembers ms
  | [] => rfl
  | (k, v) :: r => by
      rw [documentMembers, Document.draftMembers, draft_document v, draftMembers_document r,
        draftMembers, StringToken.key, StringToken.text_ofString]
      rfl

end

mutual

theorem spells_of_isText {t : List Char} : (v : Value) → IsText t v.document → Spells t v.draft
  | null, .null => .null
  | bool b, .bool _ => .bool b
  | number n, .number _ => by
      rw [Numeral.text_ofNat]
      exact .natural n
  | string s, .string _ => .string s
  | array [], .emptyArray hw => .emptyArray hw
  | array (v :: r), .array hw hitems => .array hw (spellsItems_of_isItems (v :: r) hitems)
  | object [], .emptyObject hw => .emptyObject hw
  | object (m :: r), .object hw hmembers => .object hw (spellsMembers_of_isMembers (m :: r) hmembers)

theorem spellsItems_of_isItems {t : List Char} :
    (vs : List Value) → IsItems t (documentItems vs) → SpellsItems t (draftItems vs)
  | [v], .last h hw => .last (spells_of_isText v h) hw
  | v :: u :: r, .more h hw hw' hitems =>
      .more (spells_of_isText v h) hw hw' (spellsItems_of_isItems (u :: r) hitems)

theorem spellsMembers_of_isMembers {t : List Char} :
    (ms : List (String × Value)) → IsMembers t (documentMembers ms) →
      SpellsMembers t (draftMembers ms)
  | [(k, v)], .last _ hw hw' h hw'' => .last k hw hw' (spells_of_isText v h) hw''
  | (k, v) :: m :: r, .more _ hw hw' h hw'' hw₃ hmembers =>
      .more k hw hw' (spells_of_isText v h) hw'' hw₃ (spellsMembers_of_isMembers (m :: r) hmembers)

end

theorem spaces_newLine (level : Nat) : Spaces (newLine level) := by
  intro c hc
  rcases List.mem_cons.mp hc with rfl | hc
  · decide
  · rw [(List.mem_replicate.mp hc).2]
    decide

theorem spaces_blank : Spaces [' '] := by
  intro c hc
  rw [List.mem_singleton.mp hc]
  decide

mutual

theorem isText_prettyAt (level : Nat) : (v : Value) → IsText (v.prettyAt level) v.document
  | null => .null
  | bool b => .bool b
  | number n => by
      have hnumber := IsText.number (.ofNat n)
      rwa [Numeral.text_ofNat] at hnumber
  | string s => .string (.ofString s)
  | array [] => .emptyArray spaces_nil
  | array (v :: r) => by
      have hitems := isItems_pretty level (level + 1) (v :: r) (List.cons_ne_nil v r)
      rw [prettyAt, List.append_assoc, List.append_assoc]
      exact .array (spaces_newLine (level + 1)) hitems
  | object [] => .emptyObject spaces_nil
  | object (m :: r) => by
      have hmembers := isMembers_pretty level (level + 1) (m :: r) (List.cons_ne_nil m r)
      rw [prettyAt, List.append_assoc, List.append_assoc]
      exact .object (spaces_newLine (level + 1)) hmembers

theorem isItems_pretty (outer level : Nat) : (vs : List Value) → vs ≠ [] →
    IsItems (prettyItems level vs ++ (newLine outer ++ [']'])) (documentItems vs)
  | [], h => absurd rfl h
  | [v], _ => .last (isText_prettyAt level v) (spaces_newLine outer)
  | v :: u :: r, _ => by
      have hitems := isItems_pretty outer level (u :: r) (List.cons_ne_nil u r)
      have hmore := IsItems.more (isText_prettyAt level v) spaces_nil (spaces_newLine level) hitems
      simpa [prettyItems, documentItems] using hmore

theorem isMembers_pretty (outer level : Nat) : (ms : List (String × Value)) → ms ≠ [] →
    IsMembers (prettyMembers level ms ++ (newLine outer ++ ['\x7d'])) (documentMembers ms)
  | [], h => absurd rfl h
  | [(k, v)], _ => by
      have hlast := IsMembers.last (.ofString k) spaces_nil spaces_blank (isText_prettyAt level v)
        (spaces_newLine outer)
      simpa [prettyMembers, documentMembers, StringToken.written_ofString] using hlast
  | (k, v) :: m :: r, _ => by
      have hmembers := isMembers_pretty outer level (m :: r) (List.cons_ne_nil m r)
      have hmore := IsMembers.more (.ofString k) spaces_nil spaces_blank (isText_prettyAt level v)
        spaces_nil (spaces_newLine level) hmembers
      simpa [prettyMembers, documentMembers, StringToken.written_ofString] using hmore

end

mutual

theorem isText_compact : (v : Value) → IsText v.compact v.document
  | null => .null
  | bool b => .bool b
  | number n => by
      have hnumber := IsText.number (.ofNat n)
      rwa [Numeral.text_ofNat] at hnumber
  | string s => .string (.ofString s)
  | array [] => .emptyArray spaces_nil
  | array (v :: r) => .array (w := []) spaces_nil (isItems_compact (v :: r) (List.cons_ne_nil v r))
  | object [] => .emptyObject spaces_nil
  | object (m :: r) =>
      .object (w := []) spaces_nil (isMembers_compact (m :: r) (List.cons_ne_nil m r))

theorem isItems_compact : (vs : List Value) → vs ≠ [] →
    IsItems (compactItems vs ++ [']']) (documentItems vs)
  | [], h => absurd rfl h
  | [v], _ => .last (isText_compact v) spaces_nil
  | v :: u :: r, _ => by
      have hitems := isItems_compact (u :: r) (List.cons_ne_nil u r)
      have hmore := IsItems.more (isText_compact v) spaces_nil spaces_nil hitems
      simpa [compactItems, documentItems] using hmore

theorem isMembers_compact : (ms : List (String × Value)) → ms ≠ [] →
    IsMembers (compactMembers ms ++ ['\x7d']) (documentMembers ms)
  | [], h => absurd rfl h
  | [(k, v)], _ => by
      have hlast := IsMembers.last (.ofString k) spaces_nil spaces_nil (isText_compact v) spaces_nil
      simpa [compactMembers, documentMembers, StringToken.written_ofString] using hlast
  | (k, v) :: m :: r, _ => by
      have hmembers := isMembers_compact (m :: r) (List.cons_ne_nil m r)
      have hmore := IsMembers.more (.ofString k) spaces_nil spaces_nil (isText_compact v)
        spaces_nil spaces_nil hmembers
      simpa [compactMembers, documentMembers, StringToken.written_ofString] using hmore

end

theorem spells_prettyAt (level : Nat) (v : Value) : Spells (v.prettyAt level) v.draft :=
  spells_of_isText v (isText_prettyAt level v)

end Value

theorem ofText_pretty (v : Value) : Draft.ofText v.pretty = (v.draft, false) := by
  have htext := ofText_of_isText (v.isText_prettyAt 0) spaces_nil spaces_nil
  rwa [List.nil_append, List.append_nil, Value.draft_document] at htext

end BlockScript.Json
