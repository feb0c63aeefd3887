import BlockScript.Emission.Basic
import Mathlib.Data.List.Forall2
/-!
# Emissions that succeed

`Gives x ls a`: the emission succeeds with the lines `ls` and the value `a`.  A sequence gives the
lines of its parts, one after the other (`gives_bind`).  `Agrees` compares two emissions: whatever
the first gives, the second gives the same lines and a related value.
-/

namespace BlockScript.Emission

open Script (Line Code)

variable {α β γ δ : Type}

/-! ## Laws of sequences -/

theorem bind_assoc_emission (x : Emission α) (f : α → Emission β) (k : β → Emission γ) :
    x >>= f >>= k = x >>= fun a => f a >>= k := by
  cases hx : x.result with
  | error e =>
      rw [bind_of_error hx, bind_of_error hx]
      exact bind_of_error rfl k
  | ok a =>
      rw [bind_of_ok hx, bind_of_ok hx]
      cases hf : (f a).result with
      | error e =>
          rw [bind_of_error hf]
          exact bind_of_error rfl k
      | ok b =>
          rw [bind_of_ok hf, bind_of_ok rfl]
          simp [Output.append_assoc]

theorem bind_pure_emission (x : Emission α) : x >>= pure = x := by
  rcases x with ⟨output, result⟩
  cases result with
  | error e => exact bind_of_error rfl _
  | ok a =>
      rw [bind_of_ok rfl]
      show (⟨output ++ Output.empty, .ok a⟩ : Emission α) = _
      rw [Output.append_empty]

instance : LawfulMonad Emission :=
  .mk' Emission bind_pure_emission
    (fun a f => by rw [bind_of_ok (x := pure a) rfl]; rfl) bind_assoc_emission

@[simp] theorem lift_ok (a : α) : lift (.ok a) = pure a := rfl

@[simp] theorem lift_error (e : GraphFault) : (lift (.error e) : Emission α) = fail e := rfl

theorem fail_bind (e : GraphFault) (f : α → Emission β) : fail e >>= f = fail e := rfl

/-! ## What an emission gives -/

def Gives (x : Emission α) (ls : List Line) (a : α) : Prop :=
  x.result = .ok a ∧ x.output.lines = ls

theorem gives_bind {x : Emission α} {f : α → Emission β} {ls : List Line} {b : β} :
    Gives (x >>= f) ls b ↔
      ∃ a l₁ l₂, Gives x l₁ a ∧ Gives (f a) l₂ b ∧ ls = l₁ ++ l₂ := by
  constructor
  · rintro ⟨hresult, rfl⟩
    obtain ⟨a, hx, hf⟩ := result_bind_eq_ok.mp hresult
    exact ⟨a, _, _, ⟨hx, rfl⟩, ⟨hf, rfl⟩, by rw [output_bind hx, Output.lines_append]⟩
  · rintro ⟨a, _, _, ⟨hx, rfl⟩, ⟨hf, rfl⟩, rfl⟩
    exact ⟨result_bind_eq_ok.mpr ⟨a, hx, hf⟩, by rw [output_bind hx, Output.lines_append]⟩

@[simp] theorem gives_pure {a b : α} {ls : List Line} :
    Gives (pure a) ls b ↔ b = a ∧ ls = [] := by
  show Except.ok a = Except.ok b ∧ [] = ls ↔ _
  rw [Except.ok.injEq, eq_comm, eq_comm (a := [])]

@[simp] theorem gives_fail {e : GraphFault} {a : α} {ls : List Line} :
    Gives (fail e) ls a ↔ False := by
  simp [Gives, fail]

@[simp] theorem gives_lift {x : Except GraphFault α} {a : α} {ls : List Line} :
    Gives (lift x) ls a ↔ x = .ok a ∧ ls = [] := by
  simp [Gives, lift, Output.empty, eq_comm]

@[simp] theorem gives_line {depth : Nat} {code : Code} {u : Unit} {ls : List Line} :
    Gives (line depth code) ls u ↔ ls = [⟨depth, code⟩] := by
  simp [Gives, line, eq_comm]

@[simp] theorem gives_event {e : Event} {u : Unit} {ls : List Line} :
    Gives (event e) ls u ↔ ls = [] := by
  simp [Gives, event, eq_comm]

theorem gives_lift_bind {x : Except GraphFault α} {f : α → Emission β} {ls : List Line} {b : β} :
    Gives (lift x >>= f) ls b ↔ ∃ a, x = .ok a ∧ Gives (f a) ls b := by
  cases x with
  | error e => simp [fail_bind]
  | ok a => simp

theorem gives_line_bind {depth : Nat} {code : Code} {f : Unit → Emission β} {ls : List Line}
    {b : β} :
    Gives (line depth code >>= f) ls b ↔ ∃ r, Gives (f ()) r b ∧ ls = ⟨depth, code⟩ :: r := by
  rw [gives_bind]
  constructor
  · rintro ⟨_, _, r, hline, hf, rfl⟩
    exact ⟨r, hf, by rw [gives_line.mp hline]; rfl⟩
  · rintro ⟨r, hf, rfl⟩
    exact ⟨(), _, r, gives_line.mpr rfl, hf, rfl⟩

theorem gives_event_bind {e : Event} {f : Unit → Emission β} {ls : List Line} {b : β} :
    Gives (event e >>= f) ls b ↔ Gives (f ()) ls b := by
  rw [gives_bind]
  constructor
  · rintro ⟨_, _, r, hevent, hf, rfl⟩
    rw [gives_event.mp hevent]
    exact hf
  · intro hf
    exact ⟨(), [], ls, gives_event.mpr rfl, hf, rfl⟩

theorem collect_map {f : β → Emission γ} {F : α → β} {as : List α} :
    collect f (as.map F) = collect (fun a => f (F a)) as := by
  induction as with
  | nil => rfl
  | cons a as ih => simp only [List.map_cons, collect, ih]

theorem forall₂_of_gives_collect {R : α → β → Prop} {f : α → Emission β} {as : List α}
    {bs : List β} {ls : List Line}
    (hf : ∀ a ∈ as, ∀ l b, Gives (f a) l b → l = [] ∧ R a b) (h : Gives (collect f as) ls bs) :
    ls = [] ∧ List.Forall₂ R as bs := by
  induction as generalizing ls bs with
  | nil =>
      obtain ⟨rfl, rfl⟩ := gives_pure.mp h
      exact ⟨rfl, .nil⟩
  | cons a as ih =>
      obtain ⟨b, l₁, l₂, hb, hrest, rfl⟩ := gives_bind.mp h
      obtain ⟨bs', l₃, l₄, hbs, hpure, rfl⟩ := gives_bind.mp hrest
      obtain ⟨rfl, rfl⟩ := gives_pure.mp hpure
      obtain ⟨rfl, hab⟩ := hf a List.mem_cons_self l₁ b hb
      obtain ⟨rfl, habs⟩ := ih (fun a ha => hf a (List.mem_cons_of_mem _ ha)) hbs
      exact ⟨rfl, .cons hab habs⟩

/-! ## Success -/

def Succeeds (x : Emission α) : Prop :=
  ∃ a, x.result = .ok a

theorem succeeds_iff_gives {x : Emission α} : x.Succeeds ↔ ∃ ls a, Gives x ls a :=
  ⟨fun ⟨a, h⟩ => ⟨_, a, h, rfl⟩, fun ⟨_, a, h, _⟩ => ⟨a, h⟩⟩

theorem succeeds_bind {x : Emission α} {f : α → Emission β} :
    (x >>= f).Succeeds ↔ ∃ a, x.result = .ok a ∧ (f a).Succeeds := by
  constructor
  · rintro ⟨b, h⟩
    obtain ⟨a, hx, hf⟩ := result_bind_eq_ok.mp h
    exact ⟨a, hx, b, hf⟩
  · rintro ⟨a, hx, b, hf⟩
    exact ⟨b, result_bind_eq_ok.mpr ⟨a, hx, hf⟩⟩

/-- When the second part succeeds alike after every value of the first. -/
theorem succeeds_bind_iff_and {x : Emission α} {f : α → Emission β} {P : Prop}
    (h : ∀ a, (f a).Succeeds ↔ P) : (x >>= f).Succeeds ↔ x.Succeeds ∧ P := by
  rw [succeeds_bind]
  simp only [h]
  exact exists_and_right

@[simp] theorem succeeds_pure (a : α) : (pure a : Emission α).Succeeds := ⟨a, rfl⟩

@[simp] theorem succeeds_fail (e : GraphFault) : ¬(fail e : Emission α).Succeeds := by
  rintro ⟨a, h⟩
  cases h

@[simp] theorem succeeds_lift {x : Except GraphFault α} :
    (lift x).Succeeds ↔ ∃ a, x = .ok a := Iff.rfl

@[simp] theorem succeeds_line (depth : Nat) (code : Code) : (line depth code).Succeeds :=
  ⟨(), rfl⟩

@[simp] theorem succeeds_event (e : Event) : (event e).Succeeds := ⟨(), rfl⟩

theorem succeeds_lift_unit {x : Except GraphFault Unit} : (lift x).Succeeds ↔ x = .ok () :=
  ⟨fun ⟨(), h⟩ => h, fun h => ⟨(), h⟩⟩

theorem succeeds_lift_bind {x : Except GraphFault α} {f : α → Emission β} :
    (lift x >>= f).Succeeds ↔ ∃ a, x = .ok a ∧ (f a).Succeeds :=
  succeeds_bind

theorem succeeds_line_bind {depth : Nat} {code : Code} {f : Unit → Emission β} :
    (line depth code >>= f).Succeeds ↔ (f ()).Succeeds := by
  rw [succeeds_bind]
  exact ⟨fun ⟨(), _, h⟩ => h, fun h => ⟨(), rfl, h⟩⟩

/-! ## Two emissions side by side -/

/-- Whatever the first emission gives, the second gives the same lines and a related value. -/
def Agrees (R : α → β → Prop) (x : Emission α) (y : Emission β) : Prop :=
  ∀ ls a, Gives x ls a → ∃ b, Gives y ls b ∧ R a b

namespace Agrees

variable {R : α → β → Prop} {S : γ → δ → Prop}

theorem bind {x : Emission α} {y : Emission β} {f : α → Emission γ} {k : β → Emission δ}
    (h : Agrees R x y) (hf : ∀ a b, R a b → Agrees S (f a) (k b)) :
    Agrees S (x >>= f) (y >>= k) := by
  intro ls c hc
  obtain ⟨a, l₁, l₂, hx, hfa, rfl⟩ := gives_bind.mp hc
  obtain ⟨b, hy, hab⟩ := h l₁ a hx
  obtain ⟨d, hkb, hcd⟩ := hf a b hab l₂ c hfa
  exact ⟨d, gives_bind.mpr ⟨b, l₁, l₂, hy, hkb, rfl⟩, hcd⟩

theorem pure {a : α} {b : β} (h : R a b) : Agrees R (pure a) (pure b) := by
  intro ls c hc
  obtain ⟨rfl, rfl⟩ := gives_pure.mp hc
  exact ⟨b, gives_pure.mpr ⟨rfl, rfl⟩, h⟩

theorem fail {e : GraphFault} {y : Emission β} : Agrees R (fail e) y := by
  intro ls a h
  exact absurd h gives_fail.mp

theorem lift {x : Except GraphFault α} {y : Except GraphFault β}
    (h : ∀ a, x = .ok a → ∃ b, y = .ok b ∧ R a b) : Agrees R (lift x) (lift y) := by
  intro ls a ha
  obtain ⟨hx, rfl⟩ := gives_lift.mp ha
  obtain ⟨b, hy, hab⟩ := h a hx
  exact ⟨b, gives_lift.mpr ⟨hy, rfl⟩, hab⟩

theorem refl (x : Emission α) : Agrees Eq x x :=
  fun _ a h => ⟨a, h, rfl⟩

theorem event (e e' : Event) : Agrees Eq (event e) (event e') := by
  intro ls u h
  obtain rfl := gives_event.mp h
  exact ⟨u, gives_event.mpr rfl, rfl⟩

theorem collect {F : α → β} {f : α → Emission γ} {k : β → Emission γ} {as : List α}
    (h : ∀ a ∈ as, Agrees Eq (f a) (k (F a))) :
    Agrees Eq (collect f as) (collect k (as.map F)) := by
  induction as with
  | nil => exact .refl _
  | cons a as ih =>
      rw [List.forall_mem_cons] at h
      refine h.1.bind fun c d hcd => (ih h.2).bind fun cs ds hcds => ?_
      exact .pure (by rw [hcd, hcds])

theorem each {F : α → β} {f : α → Emission Unit} {k : β → Emission Unit} {as : List α}
    (h : ∀ a ∈ as, Agrees Eq (f a) (k (F a))) : Agrees Eq (each f as) (each k (as.map F)) := by
  induction as with
  | nil => exact .refl _
  | cons a as ih =>
      rw [List.forall_mem_cons] at h
      exact h.1.bind fun _ _ _ => ih h.2

/-- Two chains are followed; if the first ends as it should, so does the second. -/
theorem ended {x : Emission α} {y : Emission β} {ending ending' : Except GraphFault Unit}
    {f : α → Emission γ} {k : β → Emission δ}
    (h : ending = .ok () → ending' = .ok () ∧ Agrees R x y)
    (hf : ∀ a b, R a b → Agrees S (f a) (k b)) :
    Agrees S (x >>= fun a => Emission.lift ending >>= fun _ => f a)
      (y >>= fun b => Emission.lift ending' >>= fun _ => k b) := by
  cases ending with
  | ok u =>
      obtain ⟨rfl, hxy⟩ := h rfl
      exact hxy.bind hf
  | error e =>
      intro ls c hc
      obtain ⟨a, _, _, _, hfail, _⟩ := gives_bind.mp hc
      exact absurd hfail gives_fail.mp

theorem ended_last {x : Emission α} {y : Emission β} {ending ending' : Except GraphFault Unit}
    (h : ending = .ok () → ending' = .ok () ∧ Agrees R x y) :
    Agrees Eq (x >>= fun _ => Emission.lift ending) (y >>= fun _ => Emission.lift ending') := by
  have hended := ended (S := Eq) (f := fun _ => Pure.pure ()) (k := fun _ => Pure.pure ()) h
    fun _ _ _ => .refl _
  simpa using hended

end Agrees

end BlockScript.Emission
