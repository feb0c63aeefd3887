import BlockScript.Proofs.Decimal.Digits
/-!
# Positional texts

The positional text of a decimal is digits, and behind a point the digits of a fraction if it has
one (`exists_splits`).  Read as a number text it gives a decimal of the same value
(`signed?_plain`).  If the coefficient has no final zero the text is in `Positional` form: no zero
before another digit of the whole part, and none at the end of the fraction (`positional_plain`).
-/

namespace BlockScript.Decimal

/-! ## Positional form -/

/-- `0`, or digits that do not start with `0`. -/
inductive Whole : List Char → Prop
  | zero : Whole ['0']
  | digits {c : Char} {r : List Char} :
      c ≠ '0' → (∀ x ∈ c :: r, x.isDigit = true) → Whole (c :: r)

/-- Nothing, or a point and digits that do not end in `0`. -/
inductive Fraction : List Char → Prop
  | none : Fraction []
  | digits {r : List Char} {c : Char} :
      c ≠ '0' → (∀ x ∈ r ++ [c], x.isDigit = true) → Fraction ('.' :: (r ++ [c]))

/-- A whole part and a fraction, after a minus sign or not. -/
inductive Positional : List Char → Prop
  | unsigned {w f : List Char} : Whole w → Fraction f → Positional (w ++ f)
  | negative {w f : List Char} : Whole w → Fraction f → Positional ('-' :: (w ++ f))

/-- A text that starts, after its sign, with a zero and another digit. -/
def StartsOctal (s : List Char) : Prop :=
  ∃ c r, c.isDigit = true ∧ (s = '0' :: c :: r ∨ s = '-' :: '0' :: c :: r)

variable {s w f : List Char} {d : Decimal}

theorem Whole.isDigit (h : Whole w) : ∀ c ∈ w, c.isDigit = true := by
  cases h with
  | zero => simp
  | digits _ hdigits => exact hdigits

theorem Whole.ne_nil (h : Whole w) : w ≠ [] := by
  cases h <;> exact List.cons_ne_nil _ _

theorem Fraction.isDigit_or (h : Fraction f) : ∀ c ∈ f, c = '.' ∨ c.isDigit = true := by
  cases h with
  | none => simp
  | digits _ hdigits =>
      intro c hc
      exact (List.mem_cons.mp hc).imp_right (hdigits c)

theorem Positional.isDigit_or (h : Positional s) :
    ∀ c ∈ s, c = '-' ∨ c = '.' ∨ c.isDigit = true := by
  have hparts : ∀ {w f : List Char}, Whole w → Fraction f →
      ∀ c ∈ w ++ f, c = '.' ∨ c.isDigit = true := by
    intro w f hw hf c hc
    exact (List.mem_append.mp hc).elim (fun hc => .inr (hw.isDigit c hc)) (hf.isDigit_or c)
  intro c hc
  cases h with
  | unsigned hw hf => exact .inr (hparts hw hf c hc)
  | negative hw hf => exact (List.mem_cons.mp hc).imp_right (hparts hw hf c)

theorem Positional.not_mem_exponent (h : Positional s) : 'e' ∉ s ∧ 'E' ∉ s := by
  constructor
  · intro hmem
    exact absurd (h.isDigit_or _ hmem) (by decide)
  · intro hmem
    exact absurd (h.isDigit_or _ hmem) (by decide)

theorem Whole.not_zero_digit (hw : Whole w) (hf : Fraction f) {c : Char} {r : List Char}
    (h : w ++ f = '0' :: c :: r) : c.isDigit = false := by
  cases hw with
  | zero =>
      cases hf with
      | none => cases h
      | digits => cases h; rfl
  | digits hne =>
      rw [List.cons_append, List.cons.injEq] at h
      exact absurd h.1 hne

theorem Whole.ne_minus (hw : Whole w) {r : List Char} : w ++ f ≠ '-' :: r := by
  intro h
  cases hw with
  | zero => cases h
  | digits _ hdigits =>
      rw [List.cons_append, List.cons.injEq] at h
      have hminus := hdigits _ List.mem_cons_self
      rw [h.1] at hminus
      exact absurd hminus (by decide)

theorem Positional.not_startsOctal (h : Positional s) : ¬ StartsOctal s := by
  rintro ⟨c, r, hdigit, hstart⟩
  cases h with
  | unsigned hw hf =>
      rcases hstart with hstart | hstart
      · rw [hw.not_zero_digit hf hstart] at hdigit
        cases hdigit
      · exact hw.ne_minus hstart
  | negative hw hf =>
      rcases hstart with hstart | hstart
      · cases hstart
      · rw [hw.not_zero_digit hf (List.cons.inj hstart).2] at hdigit
        cases hdigit

/-! ## The parts of a positional text -/

/-- The digits before the point and those behind it, which is left out if there are none. -/
def joined (w f : List Char) : List Char :=
  if f = [] then w else w ++ '.' :: f

structure Splits (d : Decimal) (w f : List Char) : Prop where
  whole : Whole w
  fraction : ∀ c ∈ f, c.isDigit = true
  text : d.plain = joined w f
  value : (⟨valueOf (w ++ f), -f.length⟩ : Decimal).value = d.value
  last : f.getLast? = some '0' → d.coefficient % 10 = 0

/-- Leading digits of a number other than zero, and more digits behind them. -/
theorem whole_of_prefix {c : Nat} (hc : c ≠ 0) (hw : w ≠ []) (hf : ∀ x ∈ f, x.isDigit = true)
    (h : w <+: Nat.toDigits 10 c) : Whole (w ++ f) := by
  obtain ⟨r, hr⟩ := h
  obtain ⟨x, w', rfl⟩ := List.exists_cons_of_ne_nil hw
  rw [List.cons_append]
  refine .digits ?_ fun y hy => ?_
  · rintro rfl
    exact hc (eq_zero_of_head?_toDigits (by rw [← hr]; rfl))
  · rw [← List.cons_append] at hy
    refine (List.mem_append.mp hy).elim (fun hy => ?_) (hf y)
    exact isDigit_of_mem_digits (by rw [← hr]; exact List.mem_append_left r hy)

theorem whole_toDigits (n : Nat) : Whole (Nat.toDigits 10 n) := by
  by_cases hn : n = 0
  · exact hn ▸ .zero
  · have hwhole := whole_of_prefix hn (toDigits_ne_nil n) (List.forall_mem_nil _) List.prefix_rfl
    rwa [List.append_nil] at hwhole

theorem isDigit_of_mem_zeros {k : Nat} : ∀ x ∈ List.replicate k '0', x.isDigit = true := by
  intro x hx
  rw [List.eq_of_mem_replicate hx]
  rfl

section

variable {c : Nat} (hc : c ≠ 0)

include hc

/-- Zeros stand for an exponent that is not negative. -/
theorem splits_upward (k : Nat) :
    Splits ⟨c, k⟩ (Nat.toDigits 10 c ++ List.replicate k '0') [] where
  whole := whole_of_prefix hc (toDigits_ne_nil c) isDigit_of_mem_zeros List.prefix_rfl
  fraction := List.forall_mem_nil _
  text := by simp [plain, joined, hc]
  value := by
    have hshift := value_shift c k 0
    rw [Int.zero_add] at hshift
    rw [hshift, List.append_nil, valueOf_append, valueOf_zeros, valueOf_toDigits,
      List.length_replicate]
    rfl
  last := by simp

/-- The point stands among the digits. -/
theorem splits_among (hw : w ≠ []) (hf : f ≠ []) (h : Nat.toDigits 10 c = w ++ f) :
    Splits ⟨c, -f.length⟩ w f where
  whole := by
    have hwhole := whole_of_prefix hc hw (List.forall_mem_nil _) (h ▸ List.prefix_append w f)
    rwa [List.append_nil] at hwhole
  fraction x hx := isDigit_of_mem_digits (h ▸ List.mem_append_right w hx)
  text := by
    have hlength := List.length_pos_iff.mpr hw
    simp [plain, joined, hc, hf, h, hlength]
  value := by rw [← h, valueOf_toDigits]
  last hlast := mod_ten_of_getLast?_toDigits (by
    rw [h, List.getLast?_append, hlast]
    rfl)

/-- Zeros stand between the point and the digits. -/
theorem splits_below (k : Nat) :
    Splits ⟨c, -(k + (Nat.toDigits 10 c).length : Nat)⟩ ['0']
      (List.replicate k '0' ++ Nat.toDigits 10 c) where
  whole := .zero
  fraction x hx := (List.mem_append.mp hx).elim (isDigit_of_mem_zeros x) isDigit_of_mem_digits
  text := by
    have hpos := List.length_pos_iff.mpr (toDigits_ne_nil c)
    have hnegative : ¬ (0 : Int) ≤ -(k + (Nat.toDigits 10 c).length : Nat) := by omega
    have hplaces : (- -((k + (Nat.toDigits 10 c).length : Nat) : Int)).toNat =
        k + (Nat.toDigits 10 c).length := by omega
    simp only [plain, joined, if_neg hc, if_neg hnegative, hplaces, List.append_eq_nil_iff,
      toDigits_ne_nil, and_false, if_false, Nat.add_sub_cancel]
    rw [if_neg (by omega)]
    rfl
  value := by
    have hzero : valueOf ['0'] = 0 := rfl
    rw [valueOf_append, valueOf_append, valueOf_zeros, valueOf_toDigits, hzero,
      List.length_append, List.length_replicate]
    simp
  last hlast := by
    rw [List.getLast?_append, Option.or_of_isSome (by simp)] at hlast
    exact mod_ten_of_getLast?_toDigits hlast

end

theorem exists_splits (d : Decimal) : ∃ w f, d.Splits w f := by
  obtain ⟨c, e⟩ := d
  by_cases hc : c = 0
  · subst hc
    exact ⟨['0'], [], .zero, List.forall_mem_nil _, rfl, by simp [value, valueOf], by simp⟩
  obtain ⟨k, rfl | rfl⟩ := Int.eq_nat_or_neg e
  · exact ⟨_, _, splits_upward hc k⟩
  obtain rfl | hk := Nat.eq_zero_or_pos k
  · exact ⟨_, _, splits_upward hc 0⟩
  by_cases hplaces : k < (Nat.toDigits 10 c).length
  · have hsplit := List.take_append_drop ((Nat.toDigits 10 c).length - k) (Nat.toDigits 10 c)
    have hlength : ((Nat.toDigits 10 c).drop ((Nat.toDigits 10 c).length - k)).length = k := by
      rw [List.length_drop]
      omega
    have hamong := splits_among hc ?_ ?_ hsplit.symm
    · rw [hlength] at hamong
      exact ⟨_, _, hamong⟩
    · rw [← List.length_pos_iff, List.length_take]
      omega
    · rw [← List.length_pos_iff, hlength]
      exact hk
  · have hbelow := splits_below hc (k - (Nat.toDigits 10 c).length)
    rw [Nat.sub_add_cancel (Nat.le_of_not_lt hplaces)] at hbelow
    exact ⟨_, _, hbelow⟩

/-! ## Reading a positional text -/

theorem takeWhile_isDigit (hw : ∀ c ∈ w, c.isDigit = true) : w.takeWhile Char.isDigit = w :=
  List.takeWhile_eq_self_iff.mpr hw

theorem dropWhile_isDigit (hw : ∀ c ∈ w, c.isDigit = true) : w.dropWhile Char.isDigit = [] :=
  List.dropWhile_eq_nil_iff.mpr hw

theorem unsigned?_joined (hne : w ≠ []) (hw : ∀ c ∈ w, c.isDigit = true)
    (hf : ∀ c ∈ f, c.isDigit = true) :
    unsigned? (joined w f) = some (ofDigits (w ++ f) (-f.length)) := by
  have hpoint : '.'.isDigit = false := rfl
  by_cases hnil : f = []
  · subst hnil
    simp [unsigned?, joined, takeWhile_isDigit hw, dropWhile_isDigit hw, hne, exponentPart?]
  · simp [unsigned?, joined, hnil, List.takeWhile_append_of_pos hw, List.dropWhile_append_of_pos hw,
      hpoint, takeWhile_isDigit hf, dropWhile_isDigit hf, hne, exponentPart?]

theorem Splits.unsigned?_plain (h : d.Splits w f) :
    ∃ d', unsigned? d.plain = some d' ∧ d'.value = d.value := by
  refine ⟨_, h.text ▸ unsigned?_joined h.whole.ne_nil h.whole.isDigit h.fraction, ?_⟩
  rw [value_ofDigits, h.value]

/-- The positional text reads as a decimal of the same value, after a minus sign as well. -/
theorem signed?_plain (d : Decimal) (negative : Bool) :
    ∃ d', signed? (if negative then '-' :: d.plain else d.plain) = some (negative, d') ∧
      d'.value = d.value := by
  obtain ⟨w, f, h⟩ := exists_splits d
  obtain ⟨d', hread, hvalue⟩ := h.unsigned?_plain
  refine ⟨d', ?_, hvalue⟩
  cases negative with
  | true => simp [signed?, hread]
  | false =>
      obtain ⟨c, r, rfl⟩ := List.exists_cons_of_ne_nil h.whole.ne_nil
      have hdigit := h.whole.isDigit c List.mem_cons_self
      have hfront : ∃ r', d.plain = c :: r' := by
        rw [h.text, joined]
        split <;> exact ⟨_, rfl⟩
      obtain ⟨r', hplain⟩ := hfront
      rw [hplain] at hread ⊢
      simp only [Bool.false_eq_true, if_false]
      unfold signed?
      split
      · rename_i heq
        cases heq
        cases hdigit
      · rename_i heq
        cases heq
        cases hdigit
      · rw [hread]
        rfl

/-- Without a final zero in the coefficient the positional text is in positional form. -/
theorem positional_plain (h : d.coefficient = 0 ∨ d.coefficient % 10 ≠ 0) (negative : Bool) :
    Positional (if negative then '-' :: d.plain else d.plain) := by
  obtain ⟨w, f, hw, hf⟩ : ∃ w f, Whole w ∧ Fraction f ∧ d.plain = w ++ f := by
    by_cases hzero : d.coefficient = 0
    · exact ⟨['0'], [], .zero, .none, by simp [plain, hzero]⟩
    obtain ⟨w, f, hsplits⟩ := exists_splits d
    have hlast : f.getLast? ≠ some '0' := fun hlast =>
      h.elim hzero fun hne => hne (hsplits.last hlast)
    rcases List.eq_nil_or_concat f with rfl | ⟨r, c, rfl⟩
    · exact ⟨w, [], hsplits.whole, .none, by simp [hsplits.text, joined]⟩
    · rw [List.concat_eq_append] at *
      refine ⟨w, _, hsplits.whole, .digits ?_ hsplits.fraction, by simp [hsplits.text, joined]⟩
      simpa using hlast
  obtain ⟨hf, hplain⟩ := hf
  cases negative with
  | true => simpa [hplain] using Positional.negative hw hf
  | false => simpa [hplain] using Positional.unsigned hw hf

end BlockScript.Decimal
