import BlockScript.Script.Operand
import BlockScript.Library.Basic
/-!
# Names keep apart

Each name has its own written form (`Name.render_injective`), and no written form is a word of the
built-in library (`Name.render_not_mem_words`): a name starts with an underscore and ends with a
digit, and no word of the library does both.
-/

namespace BlockScript.Script

/-! ## Written forms -/

namespace Name

/-- The part of a written form that tells the role. -/
def stem : Name → List Char
  | var _ => ['_', 'v']
  | func _ => ['_', 'f']
  | lock _ => ['_', 'l', 'o', 'c', 'k']
  | limit _ => ['_', '_', 'v']

def serial : Name → Nat
  | var n => n
  | func n => n
  | lock n => n
  | limit n => n

theorem toList_render (a : Name) : a.render.toList = a.stem ++ Nat.toDigits 10 a.serial := by
  cases a <;> simp [render, stem, serial]

theorem isDigit_of_mem_stem (a : Name) : ∀ c ∈ a.stem, c.isDigit = false := by
  have hall : a.stem.all (!·.isDigit) = true := by
    cases a <;> rfl
  simpa [List.all_eq_true] using hall

theorem isDigit_of_mem_toDigits (n : Nat) : ∀ c ∈ Nat.toDigits 10 n, c.isDigit = true :=
  fun _ hc => Nat.isDigit_of_mem_toDigits (by decide) (by decide) hc

theorem takeWhile_render (a : Name) : a.render.toList.takeWhile (!·.isDigit) = a.stem := by
  rw [toList_render, List.takeWhile_append_of_pos]
  · have hdigits : (Nat.toDigits 10 a.serial).takeWhile (!·.isDigit) = [] := by
      cases hd : Nat.toDigits 10 a.serial with
      | nil => rfl
      | cons c r =>
          have hc := isDigit_of_mem_toDigits a.serial c (by simp [hd])
          simp [hc]
    simp [hdigits]
  · intro c hc
    simp [isDigit_of_mem_stem a c hc]

theorem dropWhile_render (a : Name) :
    a.render.toList.dropWhile (!·.isDigit) = Nat.toDigits 10 a.serial := by
  have hsplit := List.takeWhile_append_dropWhile (p := fun c => !c.isDigit)
    (l := a.render.toList)
  rw [takeWhile_render, toList_render] at hsplit
  rw [toList_render]
  exact List.append_cancel_left hsplit

/-- Names of different roles or numbers are written differently. -/
theorem render_injective {a b : Name} (h : a.render = b.render) : a = b := by
  have hstem : a.stem = b.stem := by rw [← takeWhile_render, h, takeWhile_render]
  have hserial : a.serial = b.serial := by
    have hdigits : Nat.toDigits 10 a.serial = Nat.toDigits 10 b.serial := by
      rw [← dropWhile_render, h, dropWhile_render]
    rw [← Nat.ofDigitChars_ten_toDigits (n := a.serial), hdigits, Nat.ofDigitChars_ten_toDigits]
  cases a <;> cases b <;> simp_all [stem, serial]

theorem render_inj {a b : Name} : a.render = b.render ↔ a = b :=
  ⟨render_injective, congrArg render⟩

end Name

/-! ## Words -/

def isWordChar (c : Char) : Bool :=
  c.isAlphanum || c == '_' || c == '$'

/-- The pieces of a text between other characters.  Whatever identifiers a text declares or uses are
among them. -/
def wordsOf (text : List Char) : List (List Char) :=
  text.splitOnP (!isWordChar ·)

def words (text : String) : List String :=
  (wordsOf text.toList).map String.ofList

/-- Whether a word starts with an underscore and ends with a digit, as names do. -/
def isNumbered (word : List Char) : Bool :=
  word.head? == some '_' && word.getLast?.any Char.isDigit

theorem Name.isNumbered_render (a : Name) : isNumbered a.render.toList = true := by
  have hne : Nat.toDigits 10 a.serial ≠ [] := List.ne_nil_of_length_pos Nat.length_toDigits_pos
  have hlast : a.render.toList.getLast? = some ((Nat.toDigits 10 a.serial).getLast hne) := by
    rw [toList_render, List.getLast?_append, List.getLast?_eq_some_getLast hne]
    rfl
  have hdigit := isDigit_of_mem_toDigits a.serial _ (List.getLast_mem hne)
  have hhead : a.render.toList.head? = some '_' := by
    rw [toList_render]
    cases a <;> rfl
  simp [isNumbered, hhead, hlast, hdigit]

/-- A text that adds no word like a name to what follows it. -/
def Unnumbered (text : List Char) : Prop :=
  ∀ rest, (wordsOf rest).all (!isNumbered ·) → (wordsOf (text ++ rest)).all (!isNumbered ·)

namespace Unnumbered

theorem nil : Unnumbered [] := fun _ h => h

theorem append {a b : List Char} (ha : Unnumbered a) (hb : Unnumbered b) :
    Unnumbered (a ++ b) := by
  intro rest h
  rw [List.append_assoc]
  exact ha _ (hb _ h)

theorem line {l : List Char} (h : (wordsOf l).all (!isNumbered ·)) : Unnumbered (l ++ ['\n']) := by
  intro rest hrest
  have hsplit : wordsOf (l ++ '\n' :: rest) = wordsOf l ++ wordsOf rest :=
    List.splitOnP_append_cons l rest (by decide)
  rw [List.append_assoc, List.singleton_append, hsplit, List.all_append, h, hrest]
  rfl

theorem endLine {s : String} (h : Unnumbered s.toList) :
    Unnumbered (Library.endLine s).toList := by
  unfold Library.endLine
  split
  · exact h
  · rw [String.toList_append]
    exact h.append (line (by decide +kernel) : Unnumbered ([] ++ ['\n']))

structure Lines (lines : List String) : Prop where
  join : Unnumbered (String.join (lines.map (· ++ "\n"))).toList

theorem Lines.nil : Lines [] := ⟨Unnumbered.nil⟩

theorem Lines.cons {l : List Char} {r : List String} (h : (wordsOf l).all (!isNumbered ·))
    (hr : Lines r) : Lines (String.ofList l :: r) := by
  refine ⟨?_⟩
  simp only [List.map_cons, String.join_cons, String.toList_append, String.toList_ofList]
  exact (line h).append hr.join

theorem commonText : Unnumbered Library.commonText.toList := by
  apply Lines.join
  repeat refine Lines.cons (by decide +kernel) ?_
  exact Lines.nil

theorem localText : Unnumbered Library.localText.toList := by
  apply Lines.join
  repeat refine Lines.cons (by decide +kernel) ?_
  exact Lines.nil

theorem remoteText : Unnumbered Library.remoteText.toList := by
  apply Lines.join
  repeat refine Lines.cons (by decide +kernel) ?_
  exact Lines.nil

end Unnumbered

theorem Name.render_not_mem_words (a : Name) (isLocal : Bool) :
    a.render ∉ words (Library.builtin.source isLocal) := by
  have hhost : Unnumbered
      (Library.endLine (if isLocal then Library.localText else Library.remoteText)).toList := by
    cases isLocal
    · exact Unnumbered.remoteText.endLine
    · exact Unnumbered.localText.endLine
  have hsource := Unnumbered.commonText.endLine.append hhost [] (by decide)
  rw [List.append_nil, ← String.toList_append, List.all_eq_true] at hsource
  intro hmem
  obtain ⟨w, hw, hrender⟩ := List.mem_map.mp hmem
  have hnot := hsource w hw
  rw [← String.toList_ofList (l := w), hrender, isNumbered_render] at hnot
  exact absurd hnot (by decide)

end BlockScript.Script
