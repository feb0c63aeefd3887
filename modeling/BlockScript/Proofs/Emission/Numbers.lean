import BlockScript.Emission.Roots
import BlockScript.Proofs.Binary64.Shortest
/-!
# Numbers are emitted in canonical form

Whatever text a constant or a delay gives for a number, it is emitted in positional form.  That
text reads as the same number, so emitting it again leaves it alone, and two texts are emitted
alike exactly if they give one value with one sign (`emittedCanonically_of_number`).
-/

namespace BlockScript.Emission

open Script (Operand)

variable {id : NodeId} {text : String} {x : Binary64}

theorem number_eq_ok_iff :
    number id text = .ok x ↔ Binary64.read? (Text.trim text.toList) = some x := by
  unfold number
  cases hread : Binary64.read? (Text.trim text.toList) <;> simp [hread]

theorem isBlank_of_isDigit {c : Char} (h : c.isDigit = true) : Text.isBlank c = false := by
  have hrange : 48 ≤ c.toNat ∧ c.toNat ≤ 57 := Char.isDigit_iff_toNat.mp h
  simp only [Text.isBlank, Bool.or_eq_false_iff, Bool.and_eq_false_iff, beq_eq_false_iff_ne,
    decide_eq_false_iff_not]
  omega

theorem trim_of_positional {s : List Char} (h : Decimal.Positional s) : Text.trim s = s := by
  have hblank : ∀ c ∈ s, Text.isBlank c = false := by
    intro c hc
    rcases h.isDigit_or c hc with rfl | rfl | hdigit
    · rfl
    · rfl
    · exact isBlank_of_isDigit hdigit
  exact Text.trim_eq_self (fun c hc => hblank c (List.mem_of_mem_head? hc))
    (fun c hc => hblank c (List.mem_of_mem_getLast? hc))

structure EmittedCanonically (x : Binary64) : Prop where
  /-- After a minus sign or not, `0` or digits that do not start with `0`, and then nothing or a
  point and digits that do not end in `0`. -/
  positional : Decimal.Positional (Operand.number x).render.toList
  /-- No exponent stands in it. -/
  noExponent : 'e' ∉ (Operand.number x).render.toList ∧ 'E' ∉ (Operand.number x).render.toList
  /-- It cannot be taken for an octal number. -/
  notOctal : ¬ Decimal.StartsOctal (Operand.number x).render.toList
  /-- As the text of a number it gives the same number again. -/
  fixed : ∀ id, number id (Operand.number x).render = .ok x
  /-- Another text is emitted alike exactly if it gives the same value with the same sign. -/
  alike : ∀ id text y, number id text = .ok y →
    ((Operand.number x).render = (Operand.number y).render ↔
      x.negative = y.negative ∧ x.magnitude.value = y.magnitude.value)

theorem emittedCanonically_of_number (h : number id text = .ok x) : EmittedCanonically x := by
  have hvalid := Binary64.valid_of_read? (number_eq_ok_iff.mp h)
  have hpositional := Binary64.positional_plain hvalid
  have hrender : (Operand.number x).render.toList = x.plain := String.toList_ofList
  exact {
    positional := by rw [hrender]; exact hpositional
    noExponent := by rw [hrender]; exact hpositional.not_mem_exponent
    notOctal := by rw [hrender]; exact hpositional.not_startsOctal
    fixed := fun id => by
      rw [number_eq_ok_iff, hrender, trim_of_positional hpositional, Binary64.read?_plain hvalid]
    alike := fun id text y hy => by
      rw [← Binary64.plain_eq_iff hvalid (Binary64.valid_of_read? (number_eq_ok_iff.mp hy))]
      exact String.ofList_inj }

theorem emittedCanonically_paddedText :
    ∃ x, number ⟨0⟩ " 007.50 " = .ok x ∧ (Operand.number x).render = "7.5" ∧
      EmittedCanonically x := by
  have hnumber : number ⟨0⟩ " 007.50 " = .ok ⟨false, ⟨8444249301319680, -50⟩⟩ := by decide +kernel
  exact ⟨_, hnumber, by decide +kernel, emittedCanonically_of_number hnumber⟩

end BlockScript.Emission
