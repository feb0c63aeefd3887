import BlockScript.Emission.Roots
import BlockScript.Proofs.Emission.Sequence
import BlockScript.Proofs.Graph.Chain
/-!
# Generating code without bounds

The bounds on nesting hide a recursion along the slots.  At the root of a tree they do not matter:
the code of an expression is made of the code of its operands (`operand_eq`), and the code of a
chain of statements of the code of the chains in them (`statements_eq`).
-/

namespace BlockScript.Emission

open Script (Operand)
open BlockScript.Graph (PreOrder IsTree)

variable {α β : Type}

theorem collect_congr {f k : α → Emission β} {as : List α} (h : ∀ a ∈ as, f a = k a) :
    collect f as = collect k as := by
  induction as with
  | nil => rfl
  | cons a as ih =>
      rw [List.forall_mem_cons] at h
      simp only [collect, h.1, ih h.2]

theorem each_congr {f k : α → Emission Unit} {as : List α} (h : ∀ a ∈ as, f a = k a) :
    each f as = each k as := by
  induction as with
  | nil => rfl
  | cons a as ih =>
      rw [List.forall_mem_cons] at h
      simp only [each, h.1, ih h.2]

namespace Context

variable {c : Context} {depth : Nat} {id : NodeId} {f k : NodeId → Emission Operand}

theorem builtinCall_congr {call : BuiltinCall} {target : Option Nat}
    (h : ∀ x ∈ call.args, f x = k x) :
    c.builtinCall depth f id call target = c.builtinCall depth k id call target := by
  simp only [builtinCall, collect_congr h]

theorem userCall_congr {args : NodeId} {target : Option Nat}
    (h : ∀ entry ∈ (c.graph.arguments args).entries, f entry.2.value = k entry.2.value) :
    c.userCall depth f id args target = c.userCall depth k id args target := by
  have hvalues : collect (fun entry : NodeId × Argument => f entry.2.value)
      (c.graph.arguments args).entries =
      collect (fun entry => k entry.2.value) (c.graph.arguments args).entries :=
    collect_congr h
  unfold userCall
  simp only [hvalues]

/-- Generating an expression asks only for operands in its slots, and for the values of a chain of
arguments that starts in a slot. -/
theorem expressionCode_congr {e : Expression} (h : ∀ x ∈ e.children, f x = k x)
    (hargs : ∀ args, e = .call args →
      ∀ entry ∈ (c.graph.arguments args).entries, f entry.2.value = k entry.2.value) :
    c.expressionCode depth f id e = c.expressionCode depth k id e := by
  cases e with
  | binary op left right =>
      simp only [expressionCode, h left (by simp [Expression.children]),
        h right (by simp [Expression.children])]
  | unary op right => simp only [expressionCode, h right (by simp [Expression.children])]
  | read => rfl
  | literal l =>
      cases l with
      | tone frequency duration =>
          simp only [expressionCode, literal, h frequency (by simp [Expression.children]),
            h duration (by simp [Expression.children])]
      | number _ | text _ | bool _ | lineFeed | emptyList _ | silence => rfl
  | builtin call => simp only [expressionCode, builtinCall_congr h]
  | call args => simp only [expressionCode, userCall_congr (hargs args rfl)]

/-- As many levels as the tree has nodes are enough for the code of an expression. -/
theorem expression_eq_of_preOrder {l : List NodeId} (h : PreOrder c.graph [id] l)
    {fuel fuel' : Nat} (hfuel : l.length ≤ fuel) (hfuel' : l.length ≤ fuel') :
    c.expression depth fuel id = c.expression depth fuel' id := by
  induction fuel generalizing id l fuel' with
  | zero =>
      have hpos := List.length_pos_of_mem (h.subset (List.mem_singleton_self id))
      omega
  | succ fuel ih =>
      obtain ⟨n, below, hn, hbelow, rfl⟩ := h.exists_of_singleton
      obtain ⟨fuel', rfl⟩ : ∃ k, fuel' = k + 1 := ⟨fuel' - 1, by simp at hfuel'; omega⟩
      simp only [List.length_cons] at hfuel hfuel'
      have hoperand : ∀ x ∈ below, c.expression depth fuel x = c.expression depth fuel' x := by
        intro x hx
        obtain ⟨lx, hlx, hsub⟩ := hbelow.exists_sublist hx
        have hle := hsub.length_le
        exact ih hlx (by omega) (by omega)
      unfold expression
      cases he : c.graph.expression id with
      | error e => rfl
      | ok e =>
          obtain ⟨m, hm, hkind⟩ := Graph.expression_eq_ok_iff.mp he
          obtain rfl := Option.some.inj (hn.symm.trans hm)
          have hslots : n.kind.children = e.children := by rw [hkind]; rfl
          rw [hslots] at hbelow
          have hcode : c.expressionCode depth (c.expression depth fuel) id e =
              c.expressionCode depth (c.expression depth fuel') id e := by
            refine expressionCode_congr (fun x hx => hoperand x (hbelow.subset hx)) ?_
            rintro args rfl entry hentry
            exact hoperand _ (hbelow.value_mem_of_entry hentry)
          simp only [lift_ok, pure_bind, hcode]

/-- The code of an expression is made of the code of its operands. -/
theorem operand_eq (h : IsTree c.graph id) (depth : Nat) :
    c.operand depth id = (do
      let e ← .lift (c.graph.expression id)
      c.expressionCode depth (c.operand depth) id e) := by
  obtain ⟨l, hl, hnodup⟩ := h
  have hle := hl.length_le hnodup
  have hsucc : c.operand depth id = c.expression depth (c.graph.budget + 1) id :=
    expression_eq_of_preOrder hl (by unfold Graph.budget; omega) (by unfold Graph.budget; omega)
  rw [hsucc]
  rfl

/-! ## Statements -/

theorem statement_congr {nested nested' : Nat → NodeId → Emission Unit} {s : StatementKind}
    (h : ∀ x ∈ s.children, ∀ depth, nested depth x = nested' depth x) :
    c.statement nested depth id s = c.statement nested' depth id s := by
  cases s with
  | branch condition onTrue onFalse =>
      cases onFalse with
      | none => simp only [statement, h onTrue (by simp [StatementKind.children])]
      | some body =>
          simp only [statement, h onTrue (by simp [StatementKind.children]),
            h body (by simp [StatementKind.children])]
  | whileTrue condition body =>
      simp only [statement, h body (by simp [StatementKind.children])]
  | repeatTimes count body =>
      simp only [statement, h body (by simp [StatementKind.children])]
  | compound locals body =>
      simp only [statement, h body (by simp [StatementKind.children])]
  | returnValue value => cases value <;> rfl
  | assign _ _ | addAssign _ _ | breakLoop | continueLoop | builtin _ | call _ => rfl

theorem statementsWithin_eq_of_preOrder {l : List NodeId} (h : PreOrder c.graph [id] l)
    {fuel fuel' : Nat} (hfuel : l.length ≤ fuel) (hfuel' : l.length ≤ fuel') (depth : Nat) :
    c.statementsWithin fuel depth id = c.statementsWithin fuel' depth id := by
  induction fuel generalizing id l fuel' depth with
  | zero =>
      have hpos := List.length_pos_of_mem (h.subset (List.mem_singleton_self id))
      omega
  | succ fuel ih =>
      obtain ⟨fuel', rfl⟩ : ∃ k, fuel' = k + 1 := by
        have hpos := List.length_pos_of_mem (h.subset (List.mem_singleton_self id))
        exact ⟨fuel' - 1, by omega⟩
      have hentries : Emission.each (fun entry : NodeId × Statement =>
            c.statement (c.statementsWithin fuel) depth entry.1 entry.2.kind)
            (c.graph.statements id).entries =
          Emission.each (fun entry =>
            c.statement (c.statementsWithin fuel') depth entry.1 entry.2.kind)
            (c.graph.statements id).entries := by
        refine each_congr fun entry hentry => statement_congr fun x hx depth' => ?_
        obtain ⟨hmem, hread⟩ := h.mem_of_entry (Graph.followsSlots_statement c.graph) hentry
        obtain ⟨n, hn, hkind⟩ := Graph.statement_eq_some_iff.mp hread
        obtain ⟨le, hle, hsub⟩ := h.exists_sublist hmem
        -- The chains in an entry's slots have fewer nodes than the tree of the entry.
        obtain ⟨lx, hlx, _, hlt⟩ := hle.child hn (c := x) (by simp [hkind, NodeKind.children, hx])
        have hlen := hsub.length_le
        exact ih hlx (by omega) (by omega) depth'
      unfold statementsWithin
      simp only [hentries]

/-- The code of a chain of statements is made of the code of the chains in them. -/
theorem statements_eq_each (h : IsTree c.graph id) (depth : Nat) :
    c.statements depth id = (do
      let chain := c.graph.statements id
      Emission.each (fun (id, s) => c.statement c.statements depth id s.kind) chain.entries
      .lift chain.ending) := by
  obtain ⟨l, hl, hnodup⟩ := h
  have hle := hl.length_le hnodup
  have hsucc : c.statements depth id = c.statementsWithin (c.graph.budget + 1) depth id :=
    statementsWithin_eq_of_preOrder hl (by unfold Graph.budget; omega)
      (by unfold Graph.budget; omega) depth
  rw [hsucc]
  rfl

theorem statements_eq (h : IsTree c.graph id) (depth : Nat) :
    c.statements depth id = (do
      match ← .lift (c.graph.statement id) with
      | none => pure ()
      | some s => do
        c.statement c.statements depth id s.kind
        c.statements depth s.next) := by
  rw [statements_eq_each h]
  unfold Graph.statements
  rw [h.follow_eq (Graph.followsSlots_statement c.graph)]
  cases hread : c.graph.statement id with
  | error e => rfl
  | ok o =>
      cases o with
      | none => rfl
      | some s =>
          obtain ⟨n, hn, hkind⟩ := Graph.statement_eq_some_iff.mp hread
          have hnext : IsTree c.graph s.next := h.child hn (by simp [hkind, NodeKind.children])
          simp only [each, bind_assoc, lift_ok, pure_bind]
          rw [statements_eq_each hnext]
          rfl

end Context

end BlockScript.Emission
