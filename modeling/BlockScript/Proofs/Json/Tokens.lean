import BlockScript.Json.Draft
import BlockScript.Proofs.Decimal.Plain
import BlockScript.Proofs.Json.Quoted
/-!
# Tokens of JSON texts

Strings and numbers in every form that they may be written in.  Passing one takes its text off the
front of a longer one, whatever stands behind a string (`ofQuoted_body`) and whatever may stand
behind a number (`ofNumber_unsigned`).
-/

namespace BlockScript.Json

/-! ## Strings -/

namespace Quoted

open BlockScript.Text (hexUnit?)

inductive Body : List Char → Prop
  | nil : Body []
  | plain {c : Char} {r : List Char} :
      c ≠ '"' → c ≠ '\\' → ¬c.toNat < 0x20 → Body r → Body (c :: r)
  | letter {x c : Char} {r : List Char} : escaped? x = some c → Body r → Body ('\\' :: x :: r)
  | unit {a b c d : Char} {n : Nat} {r : List Char} :
      hexUnit? a b c d = some n → Body r → Body ('\\' :: 'u' :: a :: b :: c :: d :: r)

theorem Body.append {s r : List Char} (hs : Body s) (hr : Body r) : Body (s ++ r) := by
  induction hs with
  | nil => exact hr
  | plain hquote hback hcontrol _ ih => exact .plain hquote hback hcontrol ih
  | letter hletter _ ih => exact .letter hletter ih
  | unit hunit _ ih => exact .unit hunit ih

theorem body_escapeAll (s : List Char) : Body (escapeAll s) := by
  induction s with
  | nil => exact .nil
  | cons c s ih =>
      rw [escapeAll_cons]
      refine .append ?_ ih
      rcases escape_cases c with ⟨x, _, hc, he⟩ | ⟨hcontrol, he⟩ | ⟨hquote, hback, hplain, he⟩
      · exact he ▸ .letter hc .nil
      · exact he ▸ .unit (hexUnit?_control hcontrol) .nil
      · exact he ▸ .plain hquote hback hplain .nil

theorem ne_of_escaped? {x c : Char} (h : escaped? x = some c) : x ≠ 'u' := by
  rintro rfl
  cases h

/-- Skipping goes on from one element of a string to the next and stops at its end. -/
theorem skip_body {s : List Char} (h : Body s) (rest : List Char) :
    skip (s ++ '"' :: rest) = .ok rest := by
  induction h with
  | nil => simp [skip]
  | plain _ hback hcontrol _ ih => simp [skip, hback, hcontrol, ih]
  | letter hletter _ ih => simp [skip, ne_of_escaped? hletter, hletter, ih]
  | unit hunit _ ih => simp [skip, hunit, ih]

def behind (rest : List Char) : List Char × List Char → List Char × List Char :=
  fun (text, _) => (text, rest)

theorem prepend_map (c : Char) (rest : List Char) (x : Except Fault (List Char × List Char)) :
    prepend c (x.map (behind rest)) = (prepend c x).map (behind rest) := by
  cases x <;> rfl

/-- What a string reads as does not depend on what stands behind it.  The escape of a leading
surrogate looks at the next one, so the induction is on the length and not on the elements. -/
theorem read_body {s : List Char} (h : Body s) (rest : List Char) :
    read (s ++ '"' :: rest) = (read (s ++ ['"'])).map (behind rest) := by
  induction hlength : s.length using Nat.strongRecOn generalizing s with
  | ind length ih =>
      subst hlength
      cases h with
      | nil => simp [read, behind, Except.map]
      | plain _ hback hcontrol h =>
          have hr := ih _ (by simp only [List.length_cons]; omega) h rfl
          simp [read, hback, hcontrol, hr, prepend_map]
      | letter hletter h =>
          have hr := ih _ (by simp only [List.length_cons]; omega) h rfl
          simp [read, ne_of_escaped? hletter, hletter, hr, prepend_map]
      | @unit _ _ _ _ n _ hunit h =>
          have hr := ih _ (by simp only [List.length_cons]; omega) h rfl
          by_cases htrailing : isTrailing n = true
          · simp [read, hunit, htrailing, Except.map]
          by_cases hleading : isLeading n = true
          · cases h with
            | nil => simp [read, hunit, htrailing, hleading, Except.map]
            | plain _ hback _ _ => simp [read, hunit, htrailing, hleading, hback, Except.map]
            | letter hletter _ =>
                simp [read, hunit, htrailing, hleading, ne_of_escaped? hletter, Except.map]
            | @unit _ _ _ _ m _ hunit' h' =>
                have hr' := ih _ (by simp only [List.length_cons]; omega) h' rfl
                by_cases hpair : isTrailing m = true
                · simp [read, hunit, htrailing, hleading, hunit', hpair, hr', prepend_map]
                · simp [read, hunit, htrailing, hleading, hunit', hpair, Except.map]
          · simp [read, hunit, htrailing, hleading, hr, prepend_map]

end Quoted

structure StringToken where
  body : List Char
  isBody : Quoted.Body body

namespace StringToken

def written (k : StringToken) : List Char :=
  '"' :: (k.body ++ ['"'])

def text (k : StringToken) : Except Fault String :=
  (Quoted.read (k.body ++ ['"'])).map fun (text, _) => String.ofList text

def ofString (s : String) : StringToken :=
  ⟨Quoted.escapeAll s.toList, Quoted.body_escapeAll s.toList⟩

theorem written_ofString (s : String) : (ofString s).written = Quoted.encode s.toList :=
  rfl

@[simp] theorem text_ofString (s : String) : (ofString s).text = .ok s := by
  simp [text, ofString, Quoted.read_escapeAll, Except.map]

theorem ofQuoted_body (k : StringToken) (rest : List Char) :
    Draft.ofQuoted (k.body ++ '"' :: rest) = (k.text, .ok (), some rest) := by
  rw [Draft.ofQuoted, Quoted.skip_body k.isBody, Quoted.read_body k.isBody, text]
  cases Quoted.read (k.body ++ ['"']) <;> rfl

end StringToken

/-! ## Numbers -/

structure Digits where
  chars : List Char
  ne_nil : chars ≠ []
  isDigit : ∀ c ∈ chars, c.isDigit = true

/-- The exponent of a number: the case of its letter, its sign, which says whether it is a minus,
and its digits. -/
structure Exponent where
  capital : Bool
  sign : Option Bool
  digits : Digits

structure Numeral where
  negative : Bool
  whole : List Char
  isWhole : Decimal.Whole whole
  fraction : Option Digits
  exponent : Option Exponent

namespace Exponent

def signText : Option Bool → List Char
  | none => []
  | some true => ['-']
  | some false => ['+']

def text (e : Exponent) : List Char :=
  (if e.capital then 'E' else 'e') :: (signText e.sign ++ e.digits.chars)

end Exponent

namespace Numeral

def fractionText : Option Digits → List Char
  | none => []
  | some digits => '.' :: digits.chars

def exponentText : Option Exponent → List Char
  | none => []
  | some e => e.text

def unsigned (n : Numeral) : List Char :=
  n.whole ++ (fractionText n.fraction ++ exponentText n.exponent)

def text (n : Numeral) : List Char :=
  if n.negative then '-' :: n.unsigned else n.unsigned

def lexeme (n : Numeral) : Lexeme where
  negative := n.negative
  whole := n.whole
  fraction := n.fraction.map Digits.chars
  exponent := n.exponent.map fun e => (e.sign == some true, e.digits.chars)

def ofNat (n : Nat) : Numeral :=
  ⟨false, Nat.toDigits 10 n, Decimal.whole_toDigits n, none, none⟩

theorem text_ofNat (n : Nat) : (ofNat n).text = Nat.toDigits 10 n := by
  simp [text, ofNat, unsigned, fractionText, exponentText]

end Numeral

/-- What stands behind digits without being one of them. -/
def NoDigit (rest : List Char) : Prop :=
  ∀ c ∈ rest.head?, c.isDigit = false

/-- What may stand behind a number without being taken for a part of it. -/
def Follows (rest : List Char) : Prop :=
  ∀ c ∈ rest.head?, c.isDigit = false ∧ c ≠ '.' ∧ c ≠ 'e' ∧ c ≠ 'E'

theorem follows_nil : Follows [] := by
  intro c hc
  cases hc

theorem follows_cons {c : Char} (h : c.isDigit = false ∧ c ≠ '.' ∧ c ≠ 'e' ∧ c ≠ 'E')
    (r : List Char) : Follows (c :: r) := by
  intro x hx
  obtain rfl : c = x := by simpa using hx
  exact h

variable {w rest : List Char}

theorem Follows.noDigit (h : Follows rest) : NoDigit rest :=
  fun c hc => (h c hc).1

theorem noDigit_cons {c : Char} (h : c.isDigit = false) (r : List Char) : NoDigit (c :: r) := by
  intro x hx
  obtain rfl : c = x := by simpa using hx
  exact h

theorem takeWhile_append_noDigit (hw : ∀ c ∈ w, c.isDigit = true) (h : NoDigit rest) :
    (w ++ rest).takeWhile Char.isDigit = w := by
  rw [List.takeWhile_append_of_pos hw]
  cases rest with
  | nil => simp
  | cons c r => simp [h c rfl]

theorem dropWhile_append_noDigit (hw : ∀ c ∈ w, c.isDigit = true) (h : NoDigit rest) :
    (w ++ rest).dropWhile Char.isDigit = rest := by
  rw [List.dropWhile_append_of_pos hw]
  cases rest with
  | nil => simp
  | cons c r => simp [h c rfl]

namespace Lexeme

theorem scanWhole_append (hw : Decimal.Whole w) (h : NoDigit rest) :
    scanWhole (w ++ rest) = .ok (w, rest) := by
  cases hw with
  | zero =>
      have hrest : rest.head?.any Char.isDigit = false := by
        cases rest with
        | nil => rfl
        | cons c r => exact h c rfl
      simp [scanWhole, hrest]
  | @digits c r hne hdigits =>
      rw [List.forall_mem_cons] at hdigits
      simp [scanWhole, hne, hdigits.1, takeWhile_append_noDigit hdigits.2 h,
        dropWhile_append_noDigit hdigits.2 h]

theorem scanDigits_append (digits : Digits) (h : NoDigit rest) :
    scanDigits (digits.chars ++ rest) = .ok (digits.chars, rest) := by
  rw [scanDigits, takeWhile_append_noDigit digits.isDigit h,
    dropWhile_append_noDigit digits.isDigit h]
  obtain ⟨c, r, hcons⟩ := List.exists_cons_of_ne_nil digits.ne_nil
  rw [hcons]

theorem scanFraction_append (o : Option Digits) (h : NoDigit rest) (hpoint : rest.head? ≠ some '.') :
    scanFraction (Numeral.fractionText o ++ rest) = .ok (o.map Digits.chars, rest) := by
  cases o with
  | some digits =>
      simp [Numeral.fractionText, scanFraction, scanDigits_append digits h, bind, Except.bind,
        pure, Except.pure]
  | none =>
      cases rest with
      | nil => rfl
      | cons c r =>
          have hne : c ≠ '.' := fun heq => hpoint (congrArg some heq)
          simp [Numeral.fractionText, scanFraction, hne]

theorem scanExponent_append (o : Option Exponent) (h : Follows rest) :
    scanExponent (Numeral.exponentText o ++ rest) =
      .ok (o.map fun e => (e.sign == some true, e.digits.chars), rest) := by
  cases o with
  | some e =>
      obtain ⟨capital, sign, digits⟩ := e
      have hscan := scanDigits_append digits h.noDigit
      have hletter : (if capital then 'E' else 'e') = 'e' ∨ (if capital then 'E' else 'e') = 'E' := by
        cases capital <;> decide
      simp only [Numeral.exponentText, Exponent.text, List.cons_append, List.append_assoc,
        scanExponent, if_pos hletter]
      match sign with
      | some true | some false =>
          simp [Exponent.signText, hscan, bind, Except.bind, pure, Except.pure]
      | none =>
          obtain ⟨c, r, hcons⟩ := List.exists_cons_of_ne_nil digits.ne_nil
          have hdigit : c.isDigit = true := digits.isDigit c (by simp [hcons])
          have hminus : c ≠ '-' := by
            rintro rfl
            cases hdigit
          have hplus : c ≠ '+' := by
            rintro rfl
            cases hdigit
          rw [hcons] at hscan ⊢
          simp only [Exponent.signText, List.nil_append, List.cons_append] at hscan ⊢
          simp [hscan, hminus, hplus, hcons, bind, Except.bind, pure, Except.pure]
  | none =>
      cases rest with
      | nil => rfl
      | cons c r => simp [Numeral.exponentText, scanExponent, (h c rfl).2.2]

theorem scan_unsigned (n : Numeral) (h : Follows rest) :
    scan n.negative (n.unsigned ++ rest) = .ok (n.lexeme, rest) := by
  have hexponent : ∀ c ∈ (Numeral.exponentText n.exponent ++ rest).head?,
      c.isDigit = false ∧ c ≠ '.' := by
    cases n.exponent with
    | none => exact fun c hc => ⟨(h c hc).1, (h c hc).2.1⟩
    | some e =>
        intro c hc
        obtain rfl : (if e.capital then 'E' else 'e') = c := Option.some.inj hc
        cases e.capital <;> decide
  have hfraction : NoDigit (Numeral.fractionText n.fraction ++
      (Numeral.exponentText n.exponent ++ rest)) := by
    cases n.fraction with
    | none => exact fun c hc => (hexponent c hc).1
    | some digits => exact noDigit_cons rfl _
  simp only [scan, Numeral.unsigned, List.append_assoc, scanWhole_append n.isWhole hfraction,
    scanFraction_append n.fraction (fun c hc => (hexponent c hc).1)
      (fun hpoint => (hexponent '.' hpoint).2 rfl),
    scanExponent_append n.exponent h, bind, Except.bind, pure, Except.pure]
  rfl

end Lexeme

def Numeral.draft (n : Numeral) : Draft :=
  .number (n.lexeme.value?.elim (.error .numberTooLarge) .ok) (.ok ())

theorem ofNumber_unsigned (n : Numeral) (h : Follows rest) :
    Draft.ofNumber n.negative (n.unsigned ++ rest) = (n.draft, some rest) := by
  rw [Draft.ofNumber, Lexeme.scan_unsigned n h]
  rfl

end BlockScript.Json
