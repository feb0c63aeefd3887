import BlockScript.Json.Quoted
import Mathlib.Tactic.SplitIfs
/-!
# Strings in JSON texts are read as they were written

Each character is written in one of three ways (`escape_cases`), and reading what `escapeAll` wrote
gives the text back (`read_escapeAll`).
-/

namespace BlockScript.Json.Quoted

open BlockScript.Text (hexUnit?)

/-- A character is written as a letter after a backslash, by its number, or as itself. -/
theorem escape_cases (c : Char) :
    (∃ x, x ≠ 'u' ∧ escaped? x = some c ∧ escape c = ['\\', x]) ∨
      (c.toNat < 0x20 ∧ escape c =
        ['\\', 'u', '0', '0', Nat.digitChar (c.toNat / 16), Nat.digitChar (c.toNat % 16)]) ∨
      (c ≠ '"' ∧ c ≠ '\\' ∧ ¬c.toNat < 0x20 ∧ escape c = [c]) := by
  unfold escape
  split_ifs with hquote hback hbackspace htab hfeed hpage hreturn hcontrol
  · exact .inl ⟨'"', by decide, by rw [hquote]; rfl, rfl⟩
  · exact .inl ⟨'\\', by decide, by rw [hback]; rfl, rfl⟩
  · exact .inl ⟨'b', by decide, by rw [hbackspace]; rfl, rfl⟩
  · exact .inl ⟨'t', by decide, by rw [htab]; rfl, rfl⟩
  · exact .inl ⟨'n', by decide, by rw [hfeed]; rfl, rfl⟩
  · exact .inl ⟨'f', by decide, by rw [hpage]; rfl, rfl⟩
  · exact .inl ⟨'r', by decide, by rw [hreturn]; rfl, rfl⟩
  · exact .inr (.inl ⟨hcontrol, rfl⟩)
  · exact .inr (.inr ⟨hquote, hback, hcontrol, rfl⟩)

theorem hexUnit?_control {n : Nat} (h : n < 0x20) :
    hexUnit? '0' '0' (Nat.digitChar (n / 16)) (Nat.digitChar (n % 16)) = some n := by
  have hall : ∀ n < 0x20,
      hexUnit? '0' '0' (Nat.digitChar (n / 16)) (Nat.digitChar (n % 16)) = some n := by decide
  exact hall n h

theorem read_escape (c : Char) (r : List Char) : read (escape c ++ r) = prepend c (read r) := by
  rcases escape_cases c with ⟨x, hx, hc, he⟩ | ⟨hcontrol, he⟩ | ⟨hquote, hback, hplain, he⟩
  · simp [he, read, hx, hc]
  · have hunit := hexUnit?_control hcontrol
    have htrailing : isTrailing c.toNat = false := by simp [isTrailing]; omega
    have hleading : isLeading c.toNat = false := by simp [isLeading]; omega
    simp [he, read, hunit, htrailing, hleading]
  · simp [he, read, hback, hplain]

theorem escapeAll_cons (c : Char) (s : List Char) : escapeAll (c :: s) = escape c ++ escapeAll s :=
  List.flatMap_cons

theorem read_escapeAll (s rest : List Char) : read (escapeAll s ++ '"' :: rest) = .ok (s, rest) := by
  induction s with
  | nil => simp [escapeAll, read]
  | cons c s ih =>
      rw [escapeAll_cons, List.append_assoc, read_escape, ih]
      rfl

end BlockScript.Json.Quoted
