import BlockScript.Decimal.Basic
import Mathlib.Algebra.Order.Field.Power
import Mathlib.Algebra.Order.Field.Rat
import Mathlib.Data.List.TakeWhile
import Mathlib.Data.Nat.Cast.Order.Field
import Mathlib.Tactic.Linarith
import Mathlib.Tactic.NormNum
import Mathlib.Tactic.Ring
/-!
# Digits and the values they spell

Digits of a natural spell it (`valueOf_toDigits`); they start with a zero only if it is zero and
end with one only if it is a multiple of ten.  Zeros at the end of a decimal's digits may be
counted towards its exponent (`value_ofDigits`).
-/

namespace BlockScript.Decimal

variable {n : Nat} {c : Char}

/-! ## Digits of naturals -/

theorem isDigit_of_mem_digits (h : c ∈ Nat.toDigits 10 n) : c.isDigit = true :=
  Nat.isDigit_of_mem_toDigits (by decide) (by decide) h

theorem toDigits_ne_nil (n : Nat) : Nat.toDigits 10 n ≠ [] :=
  List.ne_nil_of_length_pos Nat.length_toDigits_pos

theorem eq_zero_of_digitChar (hn : n < 10) (h : Nat.digitChar n = '0') : n = 0 := by
  have hall : ∀ n < 10, Nat.digitChar n = '0' → n = 0 := by decide
  exact hall n hn h

theorem eq_zero_of_head?_toDigits (h : (Nat.toDigits 10 n).head? = some '0') : n = 0 := by
  induction n using Nat.strongRecOn with
  | ind n ih =>
      by_cases hn : n < 10
      · rw [Nat.toDigits_of_lt_base hn] at h
        exact eq_zero_of_digitChar hn (by simpa using h)
      · have hsplit := Nat.toDigits_of_base_le (b := 10) (by decide) (Nat.le_of_not_lt hn)
        obtain ⟨c, r, hdigits⟩ := List.exists_cons_of_ne_nil (toDigits_ne_nil (n / 10))
        rw [hsplit, hdigits, List.cons_append, List.head?_cons] at h
        have hquotient := ih (n / 10) (by omega) (by rw [hdigits, List.head?_cons, h])
        omega

theorem mod_ten_of_getLast?_toDigits (h : (Nat.toDigits 10 n).getLast? = some '0') :
    n % 10 = 0 := by
  by_cases hn : n < 10
  · rw [Nat.toDigits_of_lt_base hn] at h
    rw [eq_zero_of_digitChar hn (by simpa using h)]
  · rw [Nat.toDigits_of_base_le (by decide) (Nat.le_of_not_lt hn), List.getLast?_concat] at h
    exact eq_zero_of_digitChar (Nat.mod_lt n (by decide)) (by simpa using h)

/-! ## Values of digits -/

theorem valueOf_eq_ofDigitChars (l : List Char) : valueOf l = Nat.ofDigitChars 10 l 0 := by
  simp only [valueOf, Nat.ofDigitChars, Nat.mul_comm]

theorem valueOf_toDigits (n : Nat) : valueOf (Nat.toDigits 10 n) = n := by
  rw [valueOf_eq_ofDigitChars, Nat.ofDigitChars_ten_toDigits]

theorem valueOf_append (l m : List Char) :
    valueOf (l ++ m) = valueOf l * 10 ^ m.length + valueOf m := by
  simp only [valueOf_eq_ofDigitChars, Nat.ofDigitChars_append]
  rw [Nat.ofDigitChars_eq_ofDigitChars_zero, Nat.mul_comm]

theorem valueOf_zeros (n : Nat) : valueOf (List.replicate n '0') = 0 := by
  rw [valueOf_eq_ofDigitChars, Nat.ofDigitChars_replicate_zero, Nat.mul_zero]

/-! ## Values of decimals -/

def value (d : Decimal) : ℚ :=
  d.coefficient * 10 ^ d.exponent

variable {d : Decimal}

theorem value_eq_zero_iff : d.value = 0 ↔ d.coefficient = 0 := by
  have hten : (10 : ℚ) ^ d.exponent ≠ 0 := zpow_ne_zero _ (by norm_num)
  simp [value, hten]

theorem value_shift (c k : Nat) (e : Int) :
    (⟨c, e + k⟩ : Decimal).value = (⟨c * 10 ^ k, e⟩ : Decimal).value := by
  simp only [value, Nat.cast_mul, Nat.cast_pow, Nat.cast_ofNat]
  rw [zpow_add₀ (by norm_num), zpow_natCast]
  ring

theorem dropFinalZeros_append (digits : List Char) :
    dropFinalZeros digits ++
      List.replicate (digits.length - (dropFinalZeros digits).length) '0' = digits := by
  have hsplit : digits =
      dropFinalZeros digits ++ (digits.reverse.takeWhile (· == '0')).reverse := by
    rw [dropFinalZeros, ← List.reverse_append, List.takeWhile_append_dropWhile, List.reverse_reverse]
  have hzeros : (digits.reverse.takeWhile (· == '0')).reverse =
      List.replicate (digits.length - (dropFinalZeros digits).length) '0' := by
    refine List.eq_replicate_iff.mpr ⟨?_, fun c hc => ?_⟩
    · have hlength := congrArg List.length hsplit
      rw [List.length_append] at hlength
      omega
    · simpa using List.mem_takeWhile_imp (List.mem_reverse.mp hc)
  rw [← hzeros, ← hsplit]

theorem value_ofDigits (digits : List Char) (e : Int) :
    (ofDigits digits e).value = (⟨valueOf digits, e⟩ : Decimal).value := by
  have hvalue := congrArg valueOf (dropFinalZeros_append digits)
  rw [valueOf_append, valueOf_zeros, List.length_replicate, Nat.add_zero] at hvalue
  rw [ofDigits, value_shift, hvalue]

end BlockScript.Decimal
