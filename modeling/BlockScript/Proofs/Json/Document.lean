import BlockScript.Json.Draft
import BlockScript.Json.Value
import BlockScript.Proofs.Json.Tokens
/-!
# JSON documents and their texts

A document with its tokens as they are written.  `IsText t d`: the text `t` is one of the document,
with any spaces between its tokens.  Following such a text gives the draft of the document and what
stands behind the text (`value_of_isText`), so a whole text is followed to its end
(`ofText_of_isText`); and every document can be passed over (`Document.skip_draft`).
-/

namespace BlockScript.Json

open Draft (isSpace skipSpace)

inductive Document where
  | null
  | bool (b : Bool)
  | number (n : Numeral)
  | string (k : StringToken)
  | array (items : List Document)
  | object (members : List (StringToken × Document))

def StringToken.key (k : StringToken) : Key :=
  .quoted k.text (.ok ())

namespace Document

mutual

def draft : Document → Draft
  | null => .null
  | bool b => .bool b
  | number n => n.draft
  | string k => .string k.text (.ok ())
  | array items => .array (draftItems items) .closed
  | object members => .object (draftMembers members) .closed

def draftItems : List Document → List Draft
  | [] => []
  | d :: r => d.draft :: draftItems r

def draftMembers : List (StringToken × Document) → List (Key × Draft)
  | [] => []
  | (k, d) :: r => (k.key, d.draft) :: draftMembers r

end

theorem draftMembers_eq_map (ms : List (StringToken × Document)) :
    draftMembers ms = ms.map fun m => (m.1.key, m.2.draft) := by
  induction ms with
  | nil => rfl
  | cons m ms ih => rw [draftMembers, ih, List.map_cons]

mutual

theorem skip_draft : (d : Document) → d.draft.skip = .ok ()
  | null | bool _ | number _ | string _ => rfl
  | array items => by
      rw [draft, Draft.skip, skip_draftItems items]
      rfl
  | object members => by
      rw [draft, Draft.skip, skip_draftMembers members]
      rfl

theorem skip_draftItems : (ds : List Document) → Draft.skipItems (draftItems ds) = .ok ()
  | [] => rfl
  | d :: r => by
      rw [draftItems, Draft.skipItems, skip_draft d]
      exact skip_draftItems r

theorem skip_draftMembers :
    (ms : List (StringToken × Document)) → Draft.skipMembers (draftMembers ms) = .ok ()
  | [] => rfl
  | (k, d) :: r => by
      rw [draftMembers, StringToken.key, Draft.skipMembers, skip_draft d]
      exact skip_draftMembers r

end

end Document

/-! ## Texts of documents -/

def Spaces (w : List Char) : Prop :=
  ∀ c ∈ w, isSpace c = true

mutual

inductive IsText : List Char → Document → Prop
  | null : IsText ['n', 'u', 'l', 'l'] .null
  | bool (b : Bool) : IsText (Value.word b) (.bool b)
  | number (n : Numeral) : IsText n.text (.number n)
  | string (k : StringToken) : IsText k.written (.string k)
  | emptyArray {w : List Char} : Spaces w → IsText ('[' :: (w ++ [']'])) (.array [])
  | array {w t : List Char} {ds : List Document} :
      Spaces w → IsItems t ds → IsText ('[' :: (w ++ t)) (.array ds)
  | emptyObject {w : List Char} : Spaces w → IsText ('\x7b' :: (w ++ ['\x7d'])) (.object [])
  | object {w t : List Char} {ms : List (StringToken × Document)} :
      Spaces w → IsMembers t ms → IsText ('\x7b' :: (w ++ t)) (.object ms)

/-- The text is one of the items up to the closing bracket. -/
inductive IsItems : List Char → List Document → Prop
  | last {t w : List Char} {d : Document} :
      IsText t d → Spaces w → IsItems (t ++ (w ++ [']'])) [d]
  | more {t w w' r : List Char} {d : Document} {ds : List Document} :
      IsText t d → Spaces w → Spaces w' → IsItems r ds →
        IsItems (t ++ (w ++ ',' :: (w' ++ r))) (d :: ds)

inductive IsMembers : List Char → List (StringToken × Document) → Prop
  | last {w w' t w'' : List Char} {d : Document} (k : StringToken) :
      Spaces w → Spaces w' → IsText t d → Spaces w'' →
        IsMembers (k.written ++ (w ++ ':' :: (w' ++ (t ++ (w'' ++ ['\x7d']))))) [(k, d)]
  | more {w w' t w'' w₃ r : List Char} {d : Document} {ms : List (StringToken × Document)}
      (k : StringToken) :
      Spaces w → Spaces w' → IsText t d → Spaces w'' → Spaces w₃ → IsMembers r ms →
        IsMembers (k.written ++ (w ++ ':' :: (w' ++ (t ++ (w'' ++ ',' :: (w₃ ++ r))))))
          ((k, d) :: ms)

end

/-! ## Spaces -/

theorem spaces_nil : Spaces [] := List.forall_mem_nil _

theorem skipSpace_append {w : List Char} (h : Spaces w) (s : List Char) :
    skipSpace (w ++ s) = skipSpace s :=
  List.dropWhile_append_of_pos h

theorem skipSpace_cons {c : Char} (h : isSpace c = false) (r : List Char) :
    skipSpace (c :: r) = c :: r := by
  simp [skipSpace, h]

theorem follows_of_isSpace {c : Char} (h : isSpace c = true) (r : List Char) :
    Follows (c :: r) := by
  apply follows_cons
  simp only [isSpace, Bool.or_eq_true, beq_iff_eq] at h
  rcases h with ((rfl | rfl) | rfl) | rfl <;> decide

theorem Follows.spaces {w s : List Char} (h : Follows s) (hw : Spaces w) : Follows (w ++ s) := by
  cases w with
  | nil => exact h
  | cons c w => exact follows_of_isSpace (hw c List.mem_cons_self) _

/-! ## Following a text -/

/-- A digit is neither a space nor a character that starts another value. -/
theorem ne_of_isDigit {c x : Char} (h : c.isDigit = true) (hx : x.isDigit = false) : c ≠ x := by
  rintro rfl
  exact absurd (h.symm.trans hx) (by decide)

theorem isSpace_of_isDigit {c : Char} (h : c.isDigit = true) : isSpace c = false := by
  simp [isSpace, ne_of_isDigit h]

theorem Numeral.exists_cons (n : Numeral) :
    (n.negative = true ∧ n.text = '-' :: n.unsigned) ∨
      ∃ c r, n.negative = false ∧ n.text = n.unsigned ∧ n.unsigned = c :: r ∧ c.isDigit = true := by
  obtain ⟨c, r, hcons⟩ := List.exists_cons_of_ne_nil n.isWhole.ne_nil
  have hdigit := n.isWhole.isDigit c (by simp [hcons])
  cases hsign : n.negative with
  | true => exact .inl ⟨rfl, by simp [text, hsign]⟩
  | false => exact .inr ⟨c, _, rfl, by simp [text, hsign], by rw [unsigned, hcons]; rfl, hdigit⟩

/-- A text starts with a character that is neither a space nor a closing bracket. -/
theorem exists_cons_of_isText {t : List Char} {d : Document} (h : IsText t d) :
    ∃ c r, t = c :: r ∧ isSpace c = false ∧ c ≠ ']' := by
  cases h with
  | null => exact ⟨_, _, rfl, by decide, by decide⟩
  | bool b => cases b <;> exact ⟨_, _, rfl, by decide, by decide⟩
  | number n =>
      rcases n.exists_cons with ⟨_, htext⟩ | ⟨c, r, _, htext, hcons, hdigit⟩
      · exact ⟨_, _, htext, by decide, by decide⟩
      · exact ⟨c, r, htext.trans hcons, isSpace_of_isDigit hdigit, ne_of_isDigit hdigit rfl⟩
  | string k | emptyArray _ | array _ _ | emptyObject _ | object _ _ =>
      exact ⟨_, _, rfl, by decide, by decide⟩

theorem exists_cons_of_isItems {t : List Char} {ds : List Document} (h : IsItems t ds) :
    ∃ c r, t = c :: r ∧ isSpace c = false ∧ c ≠ ']' := by
  cases h with
  | last h _ | more h _ _ _ =>
      obtain ⟨c, r, rfl, hspace, hclose⟩ := exists_cons_of_isText h
      exact ⟨c, _, rfl, hspace, hclose⟩

theorem exists_cons_of_isMembers {t : List Char} {ms : List (StringToken × Document)}
    (h : IsMembers t ms) : ∃ r, t = '"' :: r := by
  cases h with
  | last | more => exact ⟨_, rfl⟩

section

variable {fuel : Nat} {w w' s t rest : List Char}
variable {d : Draft} {ds : List Document} {ms : List (StringToken × Document)}

theorem value_spaces (hw : Spaces w) (s : List Char) :
    Draft.value (fuel + 1) (w ++ s) = Draft.value (fuel + 1) s := by
  rw [Draft.value, Draft.value, skipSpace_append hw]

/-- Behind spaces the first character tells what kind of value stands there. -/
theorem value_null (hw : Spaces w) :
    Draft.value (fuel + 1) (w ++ 'n' :: 'u' :: 'l' :: 'l' :: rest) = (.null, some rest) :=
  value_spaces hw _

theorem value_word (hw : Spaces w) (b : Bool) :
    Draft.value (fuel + 1) (w ++ (Value.word b ++ rest)) = (.bool b, some rest) := by
  rw [value_spaces hw]
  cases b <;> rfl

theorem value_number (hw : Spaces w) (n : Numeral) (h : Follows rest) :
    Draft.value (fuel + 1) (w ++ (n.text ++ rest)) = (n.draft, some rest) := by
  have hscan := ofNumber_unsigned n h
  rw [value_spaces hw]
  rcases n.exists_cons with ⟨hsign, htext⟩ | ⟨c, r, hsign, htext, hcons, hdigit⟩
  · rw [htext]
    rw [hsign] at hscan
    exact hscan
  · rw [hsign, hcons, List.cons_append] at hscan
    rw [htext, hcons, List.cons_append, Draft.value, skipSpace_cons (isSpace_of_isDigit hdigit)]
    have hne : ∀ x : Char, x.isDigit = false → c ≠ x := fun x => ne_of_isDigit hdigit
    simp only [hne 'n' rfl, hne 't' rfl, hne 'f' rfl, hne '-' rfl, if_false, hdigit, if_true, hscan]

theorem written_append (k : StringToken) (rest : List Char) :
    k.written ++ rest = '"' :: (k.body ++ '"' :: rest) := by
  simp [StringToken.written]

theorem value_quote (s : List Char) :
    Draft.value (fuel + 1) ('"' :: s) =
      let (text, skip, rest) := Draft.ofQuoted s
      (.string text skip, rest) :=
  rfl

theorem value_string (hw : Spaces w) (k : StringToken) :
    Draft.value (fuel + 1) (w ++ (k.written ++ rest)) =
      (.string k.text (.ok ()), some rest) := by
  rw [value_spaces hw, written_append, value_quote, k.ofQuoted_body]

theorem value_bracket (s : List Char) :
    Draft.value (fuel + 1) ('[' :: s) =
      match skipSpace s with
      | [] => (.array [] .ended, none)
      | ']' :: r => (.array [] .closed, some r)
      | r =>
        let (items, ending, rest) := Draft.items fuel r
        (.array items ending, rest) :=
  rfl

theorem value_emptyArray (hw : Spaces w) (hw' : Spaces w') :
    Draft.value (fuel + 1) (w ++ '[' :: (w' ++ ']' :: rest)) = (.array [] .closed, some rest) := by
  rw [value_spaces hw, value_bracket, skipSpace_append hw', skipSpace_cons (by decide)]
  rfl

theorem value_array (hw : Spaces w) (hw' : Spaces w') (ht : IsItems t ds)
    (hitems : Draft.items fuel (t ++ rest) = (Document.draftItems ds, .closed, some rest)) :
    Draft.value (fuel + 1) (w ++ '[' :: (w' ++ (t ++ rest))) =
      ((Document.array ds).draft, some rest) := by
  obtain ⟨c, r, rfl, hspace, hclose⟩ := exists_cons_of_isItems ht
  rw [List.cons_append] at hitems ⊢
  rw [value_spaces hw, value_bracket, skipSpace_append hw', skipSpace_cons hspace]
  simp [hclose, hitems, Document.draft]

theorem value_brace (s : List Char) :
    Draft.value (fuel + 1) ('\x7b' :: s) =
      match skipSpace s with
      | [] => (.object [] .ended, none)
      | '\x7d' :: r => (.object [] .closed, some r)
      | r =>
        let (members, ending, rest) := Draft.members fuel r
        (.object members ending, rest) :=
  rfl

theorem value_emptyObject (hw : Spaces w) (hw' : Spaces w') :
    Draft.value (fuel + 1) (w ++ '\x7b' :: (w' ++ '\x7d' :: rest)) =
      (.object [] .closed, some rest) := by
  rw [value_spaces hw, value_brace, skipSpace_append hw', skipSpace_cons (by decide)]
  rfl

theorem value_object (hw : Spaces w) (hw' : Spaces w') (ht : IsMembers t ms)
    (hmembers : Draft.members fuel (t ++ rest) = (Document.draftMembers ms, .closed, some rest)) :
    Draft.value (fuel + 1) (w ++ '\x7b' :: (w' ++ (t ++ rest))) =
      ((Document.object ms).draft, some rest) := by
  obtain ⟨r, rfl⟩ := exists_cons_of_isMembers ht
  rw [List.cons_append] at hmembers ⊢
  rw [value_spaces hw, value_brace, skipSpace_append hw', skipSpace_cons (by decide)]
  simp [hmembers, Document.draft]

theorem items_last (hw : Spaces w)
    (hvalue : Draft.value fuel s = (d, some (w ++ ']' :: rest))) :
    Draft.items (fuel + 1) s = ([d], .closed, some rest) := by
  rw [Draft.items, hvalue]
  simp only [skipSpace_append hw, skipSpace_cons (c := ']') (by decide)]

theorem items_more (hw : Spaces w) (hw' : Spaces w') (ht : IsItems t ds)
    (hvalue : Draft.value fuel s = (d, some (w ++ ',' :: (w' ++ (t ++ rest)))))
    (hitems : Draft.items fuel (t ++ rest) = (Document.draftItems ds, .closed, some rest)) :
    Draft.items (fuel + 1) s = (d :: Document.draftItems ds, .closed, some rest) := by
  obtain ⟨c, r, rfl, hspace, hclose⟩ := exists_cons_of_isItems ht
  rw [List.cons_append] at hitems hvalue
  rw [Draft.items, hvalue]
  simp only [skipSpace_append hw, skipSpace_cons (c := ',') (by decide), skipSpace_append hw',
    skipSpace_cons hspace]
  simp [hclose, hitems]

/-- A member from the front of its key to its value. -/
theorem members_key (hw : Spaces w) (k : StringToken) :
    Draft.members (fuel + 1) (k.written ++ (w ++ ':' :: s)) =
      match Draft.value fuel s with
      | (d, none) => ([(k.key, d)], .cut, none)
      | (d, some rest) =>
        match skipSpace rest with
        | [] => ([(k.key, d)], .ended, none)
        | '\x7d' :: r => ([(k.key, d)], .closed, some r)
        | ',' :: r =>
          match skipSpace r with
          | [] => ([(k.key, d)], .commaThenEnd, none)
          | '\x7d' :: _ => ([(k.key, d)], .danglingComma, none)
          | r =>
            let (ms, ending, rest) := Draft.members fuel r
            ((k.key, d) :: ms, ending, rest)
        | _ => ([(k.key, d)], .noSeparator, none) := by
  rw [written_append, Draft.members]
  simp only [k.ofQuoted_body, skipSpace_append hw, skipSpace_cons (c := ':') (by decide)]
  rfl

theorem members_last (hw : Spaces w) (hw' : Spaces w') (k : StringToken)
    (hvalue : Draft.value fuel s = (d, some (w' ++ '\x7d' :: rest))) :
    Draft.members (fuel + 1) (k.written ++ (w ++ ':' :: s)) =
      ([(k.key, d)], .closed, some rest) := by
  rw [members_key hw, hvalue]
  simp only [skipSpace_append hw', skipSpace_cons (c := '\x7d') (by decide)]

theorem members_more {w'' : List Char} (hw : Spaces w) (hw' : Spaces w') (hw'' : Spaces w'')
    (k : StringToken) (ht : IsMembers t ms)
    (hvalue : Draft.value fuel s = (d, some (w' ++ ',' :: (w'' ++ (t ++ rest)))))
    (hmembers : Draft.members fuel (t ++ rest) = (Document.draftMembers ms, .closed, some rest)) :
    Draft.members (fuel + 1) (k.written ++ (w ++ ':' :: s)) =
      ((k.key, d) :: Document.draftMembers ms, .closed, some rest) := by
  obtain ⟨r, rfl⟩ := exists_cons_of_isMembers ht
  rw [List.cons_append] at hmembers hvalue
  rw [members_key hw, hvalue]
  simp only [skipSpace_append hw', skipSpace_cons (c := ',') (by decide), skipSpace_append hw'',
    skipSpace_cons (c := '"') (by decide)]
  simp [hmembers]

end

/-- What ends an item or a member is no part of a number. -/
theorem follows_separator {c : Char} (h : c = ',' ∨ c = ']' ∨ c = '\x7d') {w : List Char}
    (hw : Spaces w) (r : List Char) : Follows (w ++ c :: r) := by
  refine (follows_cons ?_ r).spaces hw
  rcases h with rfl | rfl | rfl <;> decide

mutual

/-- A value is followed to the end of its text, with no more than two steps for each character. -/
theorem value_of_isText {t : List Char} {d : Document} : IsText t d →
    ∀ {n : Nat} {w rest : List Char}, 2 * t.length ≤ n + 1 → Spaces w → Follows rest →
      Draft.value (n + 1) (w ++ (t ++ rest)) = (d.draft, some rest)
  | .null, _, _, _, _, hw, _ => value_null hw
  | .bool b, _, _, _, _, hw, _ => value_word hw b
  | .number n, _, _, _, _, hw, hrest => value_number hw n hrest
  | .string x, _, _, _, _, hw, _ => value_string hw x
  | .emptyArray hw', _, _, _, _, hw, _ => by
      rw [List.cons_append, List.append_assoc]
      exact value_emptyArray hw hw'
  | .array hw' hitems, n, _, rest, hn, hw, _ => by
      rw [List.length_cons, List.length_append] at hn
      rw [List.cons_append, List.append_assoc]
      exact value_array hw hw' hitems (items_of_isItems hitems (by omega))
  | .emptyObject hw', _, _, _, _, hw, _ => by
      rw [List.cons_append, List.append_assoc]
      exact value_emptyObject hw hw'
  | .object hw' hmembers, n, _, rest, hn, hw, _ => by
      rw [List.length_cons, List.length_append] at hn
      rw [List.cons_append, List.append_assoc]
      exact value_object hw hw' hmembers (members_of_isMembers hmembers (by omega))

theorem items_of_isItems {t : List Char} {ds : List Document} : IsItems t ds →
    ∀ {n : Nat} {rest : List Char}, 2 * t.length + 1 ≤ n →
      Draft.items n (t ++ rest) = (Document.draftItems ds, .closed, some rest)
  | .last h hw, n, rest, hn => by
      simp only [List.length_append, List.length_singleton] at hn
      obtain ⟨m, rfl⟩ : ∃ m, n = m + 2 := ⟨n - 2, by omega⟩
      simp only [List.append_assoc, List.singleton_append]
      have hfollows := follows_separator (.inr (.inl rfl)) hw rest
      exact items_last hw (value_of_isText (n := m) h (by omega) spaces_nil hfollows)
  | .more h hw hw' hitems, n, rest, hn => by
      simp only [List.length_append, List.length_cons] at hn
      obtain ⟨m, rfl⟩ : ∃ m, n = m + 2 := ⟨n - 2, by omega⟩
      simp only [List.append_assoc, List.cons_append]
      have hfollows := follows_separator (.inl rfl) hw
      exact items_more hw hw' hitems (value_of_isText (n := m) h (by omega) spaces_nil (hfollows _))
        (items_of_isItems hitems (by omega))

theorem members_of_isMembers {t : List Char} {ms : List (StringToken × Document)} : IsMembers t ms →
    ∀ {n : Nat} {rest : List Char}, 2 * t.length + 1 ≤ n →
      Draft.members n (t ++ rest) = (Document.draftMembers ms, .closed, some rest)
  | .last k hw hw' h hw'', n, rest, hn => by
      simp only [List.length_append, List.length_cons, List.length_nil] at hn
      obtain ⟨m, rfl⟩ : ∃ m, n = m + 2 := ⟨n - 2, by omega⟩
      simp only [List.append_assoc, List.cons_append, List.nil_append]
      have hfollows := follows_separator (.inr (.inr rfl)) hw'' rest
      exact members_last hw hw'' k (value_of_isText (n := m) h (by omega) hw' hfollows)
  | .more k hw hw' h hw'' hw₃ hmembers, n, rest, hn => by
      simp only [List.length_append, List.length_cons] at hn
      obtain ⟨m, rfl⟩ : ∃ m, n = m + 2 := ⟨n - 2, by omega⟩
      simp only [List.append_assoc, List.cons_append]
      have hfollows := follows_separator (.inl rfl) hw''
      exact members_more hw hw'' hw₃ k hmembers
        (value_of_isText (n := m) h (by omega) hw' (hfollows _))
        (members_of_isMembers hmembers (by omega))

end

theorem ofText_of_isText {t w w' : List Char} {d : Document} (h : IsText t d) (hw : Spaces w)
    (hw' : Spaces w') : Draft.ofText (w ++ (t ++ w')) = (d.draft, false) := by
  have hfollows : Follows w' := by
    have hspaces := follows_nil.spaces hw'
    rwa [List.append_nil] at hspaces
  have hvalue : Draft.value (2 * (w ++ (t ++ w')).length + 2) (w ++ (t ++ w')) =
      (d.draft, some w') :=
    value_of_isText h (by simp only [List.length_append]; omega) hw hfollows
  have hend : skipSpace w' = [] := by
    have hskip := skipSpace_append hw' []
    rwa [List.append_nil] at hskip
  rw [Draft.ofText, hvalue]
  simp [hend]

end BlockScript.Json
