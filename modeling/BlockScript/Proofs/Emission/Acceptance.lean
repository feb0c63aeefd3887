import BlockScript.Proofs.Emission.Equations
import BlockScript.Proofs.Emission.Lines
import BlockScript.Proofs.Graph.Grammar
import BlockScript.Proofs.Numbering.Program
/-!
# Which code can be generated

For nodes that a numbering covers, generating code succeeds exactly where the grammar of blocks is
obeyed: `succeeds_operand_iff` for expressions, `succeeds_statements_iff` for chains of statements.
-/

namespace BlockScript.Emission

open Script (Operand Call)
open BlockScript.Graph (PreOrder IsTree ExpressionAt FormAt BodyAt StatementAt)

variable {α β : Type}

theorem succeeds_collect_iff {f : α → Emission β} {as : List α} :
    (collect f as).Succeeds ↔ ∀ a ∈ as, (f a).Succeeds := by
  induction as with
  | nil => simp [collect]
  | cons a as ih =>
      rw [List.forall_mem_cons]
      apply succeeds_bind_iff_and
      intro b
      rw [succeeds_bind_iff_and (P := True) fun bs => by simp, ih, and_true]

theorem succeeds_each_iff {f : α → Emission Unit} {as : List α} :
    (each f as).Succeeds ↔ ∀ a ∈ as, (f a).Succeeds := by
  induction as with
  | nil => simp [each]
  | cons a as ih =>
      rw [List.forall_mem_cons]
      exact succeeds_bind_iff_and fun _ => ih

theorem succeeds_number_iff {id : NodeId} {text : String} :
    (∃ x, number id text = .ok x) ↔ SpellsNumber text := by
  unfold number SpellsNumber
  cases hread : Binary64.read? (Text.trim text.toList) <;> simp [hread]

namespace Context

variable {c : Context} {depth : Nat} {id : NodeId} {nodes : List NodeId}
variable {f : NodeId → Emission Operand}

/-- The values of a chain of arguments succeed as the grammar asks. -/
theorem arguments_iff {args : NodeId} (htree : IsTree c.graph args) {P : NodeId → Prop}
    (hvalues : ∀ entry ∈ (c.graph.arguments args).entries, (f entry.2.value).Succeeds ↔
      P entry.2.value) :
    (∃ entries, Chained c.graph.argument Argument.next args entries ∧
        ∀ entry ∈ entries, P entry.2.value) ↔
      (c.graph.arguments args).ending = .ok () ∧
        ∀ entry ∈ (c.graph.arguments args).entries, (f entry.2.value).Succeeds := by
  rw [Chained.exists_and_iff htree (Graph.followsSlots_argument c.graph)]
  refine and_congr_right fun _ => forall₂_congr fun entry hentry => ?_
  exact (hvalues entry hentry).symm

section

variable (h : c.numbering.Covers c.graph nodes) (hid : id ∈ nodes)
include h hid

theorem succeeds_serial : (c.serial id).Succeeds :=
  h.serial id hid

theorem succeeds_serial_bind {k : Nat → Emission β} (hk : ∀ n, (k n).Succeeds) :
    (c.serial id >>= k).Succeeds := by
  obtain ⟨n, hn⟩ := h.serial id hid
  exact succeeds_bind.mpr ⟨n, hn, hk n⟩

theorem succeeds_variableRead_iff :
    (c.variableRead id).Succeeds ↔ c.graph.RefersToDeclaration id := by
  have hleads := h.leadsTo id hid
  obtain ⟨n, hn⟩ := h.serial id hid
  rw [succeeds_iff_gives]
  constructor
  · rintro ⟨_, _, hgives⟩
    obtain ⟨⟨d, hd⟩, _, _⟩ := gives_variableRead.mp hgives
    exact ⟨_, d, hleads, hd⟩
  · rintro ⟨last, d, hlast, hd⟩
    obtain rfl := hlast.unique hleads
    exact ⟨[], n, gives_variableRead.mpr ⟨⟨d, hd⟩, hn, rfl⟩⟩

theorem succeeds_performCall (call : Call) (target : Option Nat) :
    (c.performCall depth id call target).Succeeds := by
  obtain ⟨n, hn⟩ := h.serial id hid
  rw [succeeds_iff_gives]
  exact ⟨_, (), gives_performCall.mpr ⟨n, fun _ => hn, rfl⟩⟩

theorem succeeds_builtinCall_iff {call : BuiltinCall} {target : Option Nat} :
    (c.builtinCall depth f id call target).Succeeds ↔
      call.Catalogued ∧ ∀ x ∈ call.args, (f x).Succeeds := by
  unfold builtinCall
  cases hname : call.func.function? call.choice with
  | none =>
      apply iff_of_false (succeeds_fail _)
      intro hcall
      have hfunction := hcall.1.function
      simp [hname] at hfunction
  | some name =>
      by_cases harity : call.args.length = call.func.arity
      · have hcall : call.Catalogued := ⟨by simp [hname], harity⟩
        simp only [harity, ne_eq, not_true_eq_false, if_false]
        rw [succeeds_bind_iff_and (P := True), and_true, succeeds_collect_iff]
        · exact (and_iff_right hcall).symm
        · intro args
          rw [succeeds_bind_iff_and (P := True)]
          · simpa using succeeds_performCall h hid _ target
          · intro _
            cases target with
            | none => simp
            | some t => cases call.func.substitute? <;> simp [succeeds_line_bind]
      · simp only [ne_eq, harity, not_false_eq_true, if_true]
        exact iff_of_false (succeeds_fail _) fun hcall => harity hcall.1.arity

theorem succeeds_userCall_iff {args : NodeId} {target : Option Nat} :
    (c.userCall depth f id args target).Succeeds ↔
      ∃ d, c.graph.RefersToDefinition id d ∧ (target.isSome → d.returns ≠ none) ∧
        (c.graph.arguments args).ending = .ok () ∧
        ∀ entry ∈ (c.graph.arguments args).entries, (f entry.2.value).Succeeds := by
  have hbody : ∀ d : Definition, Succeeds (if target.isSome ∧ d.returns = none then
        Emission.fail (.noReturn d.name id)
      else do
        let chain := c.graph.arguments args
        let values ← Emission.collect (fun entry => f entry.2.value) chain.entries
        .lift chain.ending
        let n ← c.serial id
        c.performCall depth id ⟨.user n, values⟩ target) ↔
      (target.isSome → d.returns ≠ none) ∧ (c.graph.arguments args).ending = .ok () ∧
        ∀ entry ∈ (c.graph.arguments args).entries, (f entry.2.value).Succeeds := by
    intro d
    split
    · next hno => exact iff_of_false (succeeds_fail _) fun hall => hall.1 hno.1 hno.2
    · next hno =>
        rw [and_iff_right (fun ht hr => hno ⟨ht, hr⟩), and_comm, ← succeeds_collect_iff]
        apply succeeds_bind_iff_and
        intro values
        rw [succeeds_bind_iff_and (P := True)]
        · rw [and_true, succeeds_lift_unit]
        · intro _
          rw [succeeds_bind_iff_and (P := True) fun n => by
            simpa using succeeds_performCall h hid _ target, and_true]
          simpa using succeeds_serial h hid
  have hleads := h.leadsTo id hid
  unfold userCall
  rw [succeeds_bind]
  constructor
  · rintro ⟨d, hd, hcall⟩
    exact ⟨d, ⟨_, hleads, hd⟩, (hbody d).mp hcall⟩
  · rintro ⟨d, ⟨last, hlast, hd⟩, hcall⟩
    obtain rfl := hlast.unique hleads
    exact ⟨d, hd, (hbody d).mpr hcall⟩

theorem succeeds_literal_iff {l : Literal} :
    (c.literal depth f id l).Succeeds ↔
      l.Readable ∧ ∀ x ∈ (Expression.literal l).children, (f x).Succeeds := by
  cases l with
  | number text =>
      have hcode : (c.literal depth f id (.number text)).Succeeds ↔
          (∃ x, number id text = .ok x) ∧ True :=
        succeeds_bind_iff_and fun x => by simp
      rw [hcode, succeeds_number_iff]
      simp [Literal.Readable, Expression.children]
  | bool text =>
      unfold literal
      cases hread : boolOfText? text <;> simp [Literal.Readable, Expression.children, hread]
  | tone frequency duration =>
      have hcode : (c.literal depth f id (.tone frequency duration)).Succeeds ↔
          (f frequency).Succeeds ∧ (f duration).Succeeds ∧ True := by
        refine succeeds_bind_iff_and fun a => succeeds_bind_iff_and fun b => ?_
        refine iff_true_intro (succeeds_serial_bind h hid fun t => ?_)
        exact succeeds_line_bind.mpr (succeeds_pure _)
      rw [hcode]
      simp [Literal.Readable, Expression.children]
  | text _ | lineFeed | emptyList _ | silence =>
      simp [literal, Literal.Readable, Expression.children]

theorem succeeds_expressionCode_iff {e : Expression} (hread : c.graph.expression id = .ok e)
    (hslots : ∀ x ∈ e.children, (f x).Succeeds ↔ ExpressionAt c.graph x)
    (hvalues : ∀ args, e = .call args → ∀ entry ∈ (c.graph.arguments args).entries,
      (f entry.2.value).Succeeds ↔ ExpressionAt c.graph entry.2.value) :
    (c.expressionCode depth f id e).Succeeds ↔ FormAt c.graph id e := by
  cases e with
  | binary op left right =>
      have hcode : (c.expressionCode depth f id (.binary op left right)).Succeeds ↔
          (f left).Succeeds ∧ (f right).Succeeds ∧ True := by
        refine succeeds_bind_iff_and fun a => succeeds_bind_iff_and fun b => ?_
        refine iff_true_intro (succeeds_serial_bind h hid fun t => succeeds_line_bind.mpr ?_)
        split
        · exact succeeds_line_bind.mpr (succeeds_line_bind.mpr (succeeds_pure _))
        · exact succeeds_pure _
      rw [hcode, and_true, hslots left (by simp [Expression.children]),
        hslots right (by simp [Expression.children]), FormAt.binary_iff]
  | unary op right =>
      have hcode : (c.expressionCode depth f id (.unary op right)).Succeeds ↔
          (f right).Succeeds ∧ True := by
        refine succeeds_bind_iff_and fun a => iff_true_intro ?_
        exact succeeds_serial_bind h hid fun t => succeeds_line_bind.mpr (succeeds_pure _)
      rw [hcode, and_true, hslots right (by simp [Expression.children]), FormAt.unary_iff]
  | read =>
      have hcode : (c.expressionCode depth f id .read).Succeeds ↔
          (c.variableRead id).Succeeds ∧ True :=
        succeeds_bind_iff_and fun n => by simp
      rw [hcode, and_true, succeeds_variableRead_iff h hid, FormAt.read_iff]
  | literal l =>
      have hcode : (c.expressionCode depth f id (.literal l)).Succeeds ↔
          l.Readable ∧ ∀ x ∈ (Expression.literal l).children, (f x).Succeeds :=
        succeeds_literal_iff h hid
      rw [hcode, FormAt.literal_iff]
      exact and_congr_right fun _ => forall₂_congr hslots
  | builtin call =>
      have hcode : (c.expressionCode depth f id (.builtin call)).Succeeds ↔
          call.func.hasValue ∧ call.Catalogued ∧ ∀ x ∈ call.args, (f x).Succeeds := by
        by_cases hvalue : call.func.hasValue
        · simp only [expressionCode, hvalue, if_true, true_and]
          rw [succeeds_bind_iff_and fun t => ?_, and_iff_right (succeeds_serial h hid)]
          rw [succeeds_bind_iff_and (P := True) fun _ => by simp, and_true]
          exact succeeds_builtinCall_iff h hid
        · simp only [expressionCode, hvalue]
          exact iff_of_false (succeeds_fail _) fun hall => absurd hall.1 (by decide)
      rw [hcode, FormAt.builtin_iff]
      exact and_congr_right fun _ => and_congr_right fun _ => forall₂_congr hslots
  | call args =>
      have htree : IsTree c.graph args := by
        obtain ⟨n, hn, hkind⟩ := Graph.expression_eq_ok_iff.mp hread
        exact (h.tree id hid).child hn (by simp [hkind, NodeKind.children, Expression.children])
      have hcode : (c.expressionCode depth f id (.call args)).Succeeds ↔
          ∃ d, c.graph.RefersToDefinition id d ∧ d.returns ≠ none ∧
            ∃ entries, Chained c.graph.argument Argument.next args entries ∧
              ∀ entry ∈ entries, ExpressionAt c.graph entry.2.value := by
        rw [arguments_iff htree (hvalues args rfl)]
        refine (succeeds_bind_iff_and fun t => ?_).trans (and_iff_right (succeeds_serial h hid))
        rw [succeeds_bind_iff_and (P := True) fun _ => by simp, and_true,
          succeeds_userCall_iff h hid]
        simp
      rw [hcode, FormAt.call_iff]

end

/-- The code of an expression can be generated exactly where the grammar has an expression. -/
theorem succeeds_operand_iff (h : c.numbering.Covers c.graph nodes) (hid : id ∈ nodes)
    (depth : Nat) :
    (c.operand depth id).Succeeds ↔ ExpressionAt c.graph id := by
  refine (h.tree id hid).induction (motive := fun id => id ∈ nodes →
    ((c.operand depth id).Succeeds ↔ ExpressionAt c.graph id)) ?_ hid
  intro id below hl hnodup ih hid
  rw [operand_eq ⟨_, hl, hnodup⟩, succeeds_lift_bind]
  have hforms : ∀ e, c.graph.expression id = .ok e →
      ((c.expressionCode depth (c.operand depth) id e).Succeeds ↔ FormAt c.graph id e) := by
    intro e he
    obtain ⟨hslots, hvalues⟩ := h.operand_mem hid hl he
    refine succeeds_expressionCode_iff h hid he (fun x hx => ?_) fun args hargs entry hentry => ?_
    · exact ih x (hslots x hx).1 (hslots x hx).2
    · obtain ⟨hbelow, hnodes⟩ := hvalues args hargs entry hentry
      exact ih _ hbelow hnodes
  constructor
  · rintro ⟨e, he, hcode⟩
    exact .intro he ((hforms e he).mp hcode)
  · rintro ⟨he, hform⟩
    exact ⟨_, he, (hforms _ he).mpr hform⟩

/-! ## Statements -/

theorem declarationsAt_iff {g : Graph} {head : NodeId} (htree : IsTree g head) :
    g.DeclarationsAt head ↔ (g.declarations head).ending = .ok () := by
  have hchain := Chained.exists_and_iff htree (Graph.followsSlots_declaration g)
    (P := fun _ => True)
  simp only [and_true] at hchain
  exact hchain

theorem succeeds_declarations_iff (h : c.numbering.Covers c.graph nodes) {head : NodeId}
    (hhead : head ∈ nodes) (depth : Nat) :
    (c.declarations depth head).Succeeds ↔ c.graph.DeclarationsAt head := by
  have hentries : ∀ entry ∈ (c.graph.declarations head).entries,
      (c.declaration depth entry.1 entry.2).Succeeds := by
    intro entry hentry
    have hmem := h.entry_mem hhead (Graph.followsSlots_declaration c.graph) hentry
    exact succeeds_serial_bind h hmem fun n => succeeds_line _ _
  have hcode : (c.declarations depth head).Succeeds ↔
      True ∧ (c.graph.declarations head).ending = .ok () := by
    unfold declarations
    rw [succeeds_bind_iff_and fun _ => succeeds_lift_unit, succeeds_each_iff]
    exact and_congr_left fun _ => iff_true_intro hentries
  rw [hcode, true_and, declarationsAt_iff (h.tree head hhead)]

theorem succeeds_assignment_iff (h : c.numbering.Covers c.graph nodes) {target value : NodeId}
    (htarget : target ∈ nodes) (hvalue : value ∈ nodes) {code : Nat → Operand → Script.Code} :
    (c.assignment depth target value code).Succeeds ↔
      c.graph.expression target = .ok .read ∧ c.graph.RefersToDeclaration target ∧
        ExpressionAt c.graph value := by
  unfold assignment
  rw [succeeds_lift_bind]
  have hread : Succeeds (do
      let n ← c.variableRead target
      let a ← c.operand depth value
      .line depth (code n a)) ↔
      c.graph.RefersToDeclaration target ∧ ExpressionAt c.graph value := by
    rw [← succeeds_variableRead_iff h htarget, ← succeeds_operand_iff h hvalue depth]
    apply succeeds_bind_iff_and
    intro n
    rw [succeeds_bind_iff_and fun a => iff_true_intro (succeeds_line _ _), and_true]
  constructor
  · rintro ⟨e, he, hcode⟩
    cases e with
    | read => exact ⟨he, hread.mp hcode⟩
    | binary _ _ _ | unary _ _ | literal _ | builtin _ | call _ =>
        exact absurd hcode (succeeds_fail _)
  · rintro ⟨he, hcode⟩
    exact ⟨_, he, hread.mpr hcode⟩

theorem succeeds_block_iff {x : Emission Unit} {P : Prop} (hx : x.Succeeds ↔ P)
    {first last : Script.Code} {depth' : Nat} {f : Unit → Emission Unit} {Q : Prop}
    (hf : (f ()).Succeeds ↔ Q) :
    (line depth first >>= fun _ => x >>= fun _ => line depth' last >>= f).Succeeds ↔ P ∧ Q := by
  rw [succeeds_line_bind, succeeds_bind_iff_and fun _ => succeeds_line_bind, hx, hf]

theorem succeeds_last_block_iff {x : Emission Unit} {P : Prop} (hx : x.Succeeds ↔ P)
    {first last : Script.Code} {depth' : Nat} :
    (line depth first >>= fun _ => x >>= fun _ => line depth' last).Succeeds ↔ P := by
  rw [succeeds_line_bind, succeeds_bind_iff_and fun _ => iff_true_intro (succeeds_line _ _), hx,
    and_true]

theorem succeeds_statement_iff (h : c.numbering.Covers c.graph nodes) (hid : id ∈ nodes)
    {s : StatementKind} {nested : Nat → NodeId → Emission Unit}
    (hslots : ∀ x ∈ s.children, x ∈ nodes)
    (hnested : ∀ x ∈ s.children, ∀ depth, (nested depth x).Succeeds ↔ BodyAt c.graph x) :
    (c.statement nested depth id s).Succeeds ↔ StatementAt c.graph id s := by
  have hoperand : ∀ x ∈ s.children, ∀ depth,
      (c.operand depth x).Succeeds ↔ ExpressionAt c.graph x :=
    fun x hx => succeeds_operand_iff h (hslots x hx)
  cases s with
  | assign target value =>
      have htarget := hslots target (by simp [StatementKind.children])
      have hvalue := hslots value (by simp [StatementKind.children])
      rw [StatementAt.assign_iff]
      exact succeeds_assignment_iff h htarget hvalue
  | addAssign target value =>
      have htarget := hslots target (by simp [StatementKind.children])
      have hvalue := hslots value (by simp [StatementKind.children])
      rw [StatementAt.addAssign_iff]
      exact succeeds_assignment_iff h htarget hvalue
  | branch condition onTrue onFalse =>
      have hcondition := hoperand condition (by simp [StatementKind.children]) depth
      have htrue := hnested onTrue (by simp [StatementKind.children]) (depth + 1)
      have hcode : (c.statement nested depth id (.branch condition onTrue onFalse)).Succeeds ↔
          ExpressionAt c.graph condition ∧ BodyAt c.graph onTrue ∧
            ∀ body ∈ onFalse, BodyAt c.graph body := by
        rw [← hcondition]
        refine succeeds_bind_iff_and fun a => succeeds_block_iff htrue ?_
        cases onFalse with
        | none => simp
        | some body =>
            have hfalse := hnested body (by simp [StatementKind.children]) (depth + 1)
            refine (succeeds_last_block_iff hfalse).trans ?_
            simp
      rw [hcode, StatementAt.branch_iff]
  | whileTrue condition body =>
      have hcondition := hoperand condition (by simp [StatementKind.children]) (depth + 1)
      have hbody := hnested body (by simp [StatementKind.children]) (depth + 1)
      have hcode : (c.statement nested depth id (.whileTrue condition body)).Succeeds ↔
          ExpressionAt c.graph condition ∧ BodyAt c.graph body := by
        rw [← hcondition]
        refine succeeds_line_bind.trans (succeeds_bind_iff_and fun a => ?_)
        exact succeeds_line_bind.trans (succeeds_line_bind.trans (succeeds_last_block_iff hbody))
      rw [hcode, StatementAt.whileTrue_iff]
  | repeatTimes count body =>
      have hcount := hoperand count (by simp [StatementKind.children]) depth
      have hbody := hnested body (by simp [StatementKind.children]) (depth + 1)
      have hcode : (c.statement nested depth id (.repeatTimes count body)).Succeeds ↔
          ExpressionAt c.graph count ∧ BodyAt c.graph body := by
        rw [← hcount]
        apply succeeds_bind_iff_and
        intro a
        rw [succeeds_bind_iff_and fun n => succeeds_line_bind.trans (succeeds_last_block_iff hbody)]
        exact and_iff_right (succeeds_serial h hid)
      rw [hcode, StatementAt.repeatTimes_iff]
  | compound locals body =>
      have hlocals := hslots locals (by simp [StatementKind.children])
      have hbody := hnested body (by simp [StatementKind.children]) (depth + 1)
      have hcode : (c.statement nested depth id (.compound locals body)).Succeeds ↔
          c.graph.DeclarationsAt locals ∧ BodyAt c.graph body := by
        rw [← succeeds_declarations_iff h hlocals (depth + 1)]
        refine succeeds_line_bind.trans (succeeds_bind_iff_and fun _ => ?_)
        rw [succeeds_bind_iff_and fun _ => iff_true_intro (succeeds_line _ _), hbody, and_true]
      rw [hcode, StatementAt.compound_iff]
  | breakLoop => exact iff_of_true (succeeds_line _ _) .breakLoop
  | continueLoop => exact iff_of_true (succeeds_line _ _) .continueLoop
  | returnValue value =>
      have hcode : (c.statement nested depth id (.returnValue value)).Succeeds ↔
          ∀ x ∈ value, ExpressionAt c.graph x := by
        cases value with
        | none => simp [statement]
        | some x =>
            have hx := hoperand x (by simp [StatementKind.children]) depth
            refine (succeeds_bind_iff_and fun a => iff_true_intro (succeeds_line _ _)).trans ?_
            simp [hx]
      rw [hcode, StatementAt.returnValue_iff]
  | builtin call =>
      rw [StatementAt.builtin_iff]
      refine (succeeds_builtinCall_iff h hid).trans (and_congr_right fun _ => ?_)
      exact forall₂_congr fun x hx => hoperand x hx depth
  | call args =>
      have hmem : args ∈ nodes := hslots args (by simp [StatementKind.children])
      have hvalues : ∀ entry ∈ (c.graph.arguments args).entries,
          (c.operand depth entry.2.value).Succeeds ↔ ExpressionAt c.graph entry.2.value := by
        intro entry hentry
        obtain ⟨l, hl, _⟩ := h.tree args hmem
        have hsub := h.subset_of_preOrder hl (by simpa using hmem)
        exact succeeds_operand_iff h (hsub (hl.value_mem_of_entry hentry)) depth
      have hcode : (c.statement nested depth id (.call args)).Succeeds ↔ _ :=
        succeeds_userCall_iff h hid
      rw [hcode, ← arguments_iff (h.tree args hmem) hvalues, StatementAt.call_iff]
      simp

/-- A chain of statements in a tree is its first statement and the chain from the next. -/
theorem succeeds_statements_step {head : NodeId} (htree : IsTree c.graph head) :
    (c.statements depth head).Succeeds ↔
      c.graph.statement head = .ok none ∨
        ∃ s, c.graph.statement head = .ok (some s) ∧
          (c.statement c.statements depth head s.kind).Succeeds ∧
          (c.statements depth s.next).Succeeds := by
  rw [statements_eq htree, succeeds_lift_bind]
  constructor
  · rintro ⟨o, ho, hcode⟩
    cases o with
    | none => exact .inl ho
    | some s => exact .inr ⟨s, ho, (succeeds_bind_iff_and fun _ => Iff.rfl).mp hcode⟩
  · rintro (hend | ⟨s, hs, hcode⟩)
    · exact ⟨none, hend, succeeds_pure ()⟩
    · exact ⟨some s, hs, (succeeds_bind_iff_and fun _ => Iff.rfl).mpr hcode⟩

/-- The code of a chain of statements can be generated exactly where the grammar has one. -/
theorem succeeds_statements_iff (h : c.numbering.Covers c.graph nodes) (hid : id ∈ nodes)
    (depth : Nat) :
    (c.statements depth id).Succeeds ↔ BodyAt c.graph id := by
  refine (h.tree id hid).induction (motive := fun id => id ∈ nodes → ∀ depth,
    ((c.statements depth id).Succeeds ↔ BodyAt c.graph id)) ?_ hid depth
  intro id below hl hnodup ih hid depth
  rw [succeeds_statements_step ⟨_, hl, hnodup⟩]
  have hstep : ∀ s, c.graph.statement id = .ok (some s) →
      ((c.statement c.statements depth id s.kind).Succeeds ↔ StatementAt c.graph id s.kind) ∧
        ((c.statements depth s.next).Succeeds ↔ BodyAt c.graph s.next) := by
    intro s hs
    obtain ⟨hslots, hnext, hnodes⟩ := h.statement_mem hid hl hs
    constructor
    · refine succeeds_statement_iff h hid (fun x hx => (hslots x hx).2) fun x hx depth => ?_
      exact ih x (hslots x hx).1 (hslots x hx).2 depth
    · exact ih s.next hnext hnodes depth
  constructor
  · rintro (hend | ⟨s, hs, hstatement, hnext⟩)
    · exact .nil hend
    · exact .cons hs ((hstep s hs).1.mp hstatement) ((hstep s hs).2.mp hnext)
  · intro hbody
    cases hbody with
    | nil hend => exact .inl hend
    | cons hs hstatement hnext =>
        exact .inr ⟨_, hs, (hstep _ hs).1.mpr hstatement, (hstep _ hs).2.mpr hnext⟩

/-! ## Roots -/

theorem succeeds_delay_iff (depth : Nat) (id : NodeId) {trigger : Trigger} :
    (delay depth id trigger).Succeeds ↔ trigger.Readable := by
  cases trigger with
  | keyPressed key => exact iff_true_intro (succeeds_pure _)
  | delayedStart text =>
      unfold delay
      rw [succeeds_bind_iff_and fun x => iff_true_intro (succeeds_line _ _), and_true,
        succeeds_lift, succeeds_number_iff]
      rfl

section

variable (h : c.numbering.Covers c.graph nodes)
include h

theorem succeeds_globalEntries (depth : Nat) {entries : List (NodeId × Declaration)}
    (declared : List NodeId) (hentries : ∀ entry ∈ entries, entry.1 ∈ nodes) :
    (c.globalEntries depth entries declared).Succeeds := by
  induction entries generalizing declared with
  | nil => exact succeeds_pure _
  | cons entry entries ih =>
      rw [List.forall_mem_cons] at hentries
      unfold globalEntries
      split
      · exact succeeds_bind.mpr ⟨(), rfl, ih _ hentries.2⟩
      · have hline := succeeds_serial_bind (k := fun n => .line depth
          (.declare n entry.2.type.initial (c.note entry.2.name))) h hentries.1
          fun n => succeeds_line _ _
        obtain ⟨u, hu⟩ := hline
        exact succeeds_bind.mpr ⟨u, hu, ih _ hentries.2⟩

theorem succeeds_node_bind {root : NodeId} {P : NodeKind → Prop} {k : Node → Emission β}
    (hroot : root ∈ nodes)
    (hk : ∀ n, c.graph.node? root = some n → ((k n).Succeeds ↔ P n.kind)) :
    (lift (c.graph.node root) >>= k).Succeeds ↔
      ∀ n, c.graph.node? root = some n → P n.kind := by
  obtain ⟨n, hn⟩ := (h.tree root hroot).node
  rw [Graph.node_eq_ok_iff.mpr hn, lift_ok, pure_bind, hk n hn]
  simp only [hn, Option.some.injEq, forall_eq']

theorem succeeds_globals_iff {roots : List NodeId} (declared : List NodeId)
    (hroots : ∀ root ∈ roots, root ∈ nodes) :
    (c.globals depth roots declared).Succeeds ↔
      ∀ root ∈ roots, ∀ n, c.graph.node? root = some n → ∀ d, n.kind = .declaration d →
        c.graph.DeclarationsAt root := by
  induction roots generalizing declared with
  | nil => simp [globals]
  | cons root roots ih =>
      rw [List.forall_mem_cons] at hroots ⊢
      obtain ⟨n, hn⟩ := (h.tree root hroots.1).node
      unfold globals
      rw [Graph.node_eq_ok_iff.mpr hn, lift_ok, pure_bind]
      simp only [hn, Option.some.injEq, forall_eq']
      cases hkind : n.kind with
      | declaration d =>
          have hmem : ∀ entry ∈ (c.graph.declarations root).entries, entry.1 ∈ nodes :=
            fun entry hentry =>
              h.entry_mem hroots.1 (Graph.followsSlots_declaration c.graph) hentry
          obtain ⟨declared', hdeclared⟩ := succeeds_globalEntries h depth declared hmem
          have hentries : Succeeds (do
              let declared ← c.globalEntries depth (c.graph.declarations root).entries declared
              .lift (c.graph.declarations root).ending
              c.globals depth roots declared) ↔
              (c.graph.declarations root).ending = .ok () ∧
                ∀ root ∈ roots, ∀ n, c.graph.node? root = some n → ∀ d,
                  n.kind = .declaration d → c.graph.DeclarationsAt root := by
            rw [succeeds_bind_iff_and (P := _) fun declared =>
              succeeds_bind_iff_and fun _ => ih declared hroots.2, succeeds_lift_unit]
            exact and_iff_right ⟨declared', hdeclared⟩
          refine hentries.trans ?_
          rw [declarationsAt_iff (h.tree root hroots.1)]
          simp
      | statement _ | declarationEnd | statementEnd | expression _ | argument _ | argumentEnd
        | definition _ | handler _ =>
          simpa using ih declared hroots.2

theorem succeeds_params_iff {head : NodeId} (hhead : head ∈ nodes) :
    (c.params head).Succeeds ↔ c.graph.DeclarationsAt head := by
  have hentries : ∀ entry ∈ (c.graph.declarations head).entries, Succeeds (do
      let n ← c.serial entry.1
      pure (Script.Param.mk n (c.note entry.2.name))) := by
    intro entry hentry
    have hmem := h.entry_mem hhead (Graph.followsSlots_declaration c.graph) hentry
    exact succeeds_serial_bind h hmem fun n => succeeds_pure _
  rw [declarationsAt_iff (h.tree head hhead)]
  unfold params
  rw [succeeds_bind_iff_and fun _ => succeeds_bind_iff_and fun _ => iff_true_intro
    (succeeds_pure _), succeeds_collect_iff, and_true, succeeds_lift_unit]
  exact and_iff_right hentries

theorem succeeds_definition_iff {d : Definition} (hid : id ∈ nodes) (hparams : d.params ∈ nodes)
    (hbody : d.body ∈ nodes) :
    (c.definition depth id d).Succeeds ↔
      c.graph.DeclarationsAt d.params ∧ c.graph.BodyAt d.body := by
  rw [← succeeds_params_iff h hparams, ← succeeds_statements_iff h hbody (depth + 1)]
  unfold definition
  refine (succeeds_bind_iff_and fun n => ?_).trans (and_iff_right (succeeds_serial h hid))
  refine (succeeds_bind_iff_and fun _ => ?_).trans (and_iff_right (succeeds_event _))
  apply succeeds_bind_iff_and
  intro params
  exact succeeds_last_block_iff Iff.rfl

theorem succeeds_handler_iff {x : Handler} (hid : id ∈ nodes) (hbody : x.body ∈ nodes) :
    (c.handler depth id x).Succeeds ↔ x.trigger.Readable ∧ c.graph.BodyAt x.body := by
  have hregistration : ∀ n, (registration depth id n x.trigger).Succeeds := by
    intro n
    unfold registration
    cases x.trigger.event? <;> simp
  rw [← succeeds_statements_iff h hbody (depth + 3), ← succeeds_delay_iff (depth + 3) id]
  unfold handler
  refine (succeeds_bind_iff_and fun n => ?_).trans (and_iff_right (succeeds_serial h hid))
  refine (succeeds_bind_iff_and fun _ => ?_).trans (and_iff_right (succeeds_event _))
  simp only [succeeds_line_bind]
  apply succeeds_bind_iff_and
  intro _
  refine (succeeds_bind_iff_and fun _ => iff_true_intro ?_).trans (by rw [and_true])
  simp only [succeeds_line_bind]
  exact hregistration n

theorem succeeds_definitions_iff {roots : List NodeId} (hroots : ∀ root ∈ roots, root ∈ nodes) :
    (c.definitions depth roots).Succeeds ↔
      ∀ root ∈ roots, ∀ n, c.graph.node? root = some n → ∀ d, n.kind = .definition d →
        c.graph.DeclarationsAt d.params ∧ c.graph.BodyAt d.body := by
  unfold definitions
  rw [succeeds_each_iff]
  apply forall₂_congr
  intro root hroot
  refine succeeds_node_bind h (P := fun kind => ∀ d, kind = .definition d →
    c.graph.DeclarationsAt d.params ∧ c.graph.BodyAt d.body) (hroots root hroot) fun n hn => ?_
  cases hkind : n.kind with
  | definition d =>
      have hslots : ∀ x ∈ [d.params, d.body], x ∈ nodes := fun x hx =>
        h.child root (hroots root hroot) n hn x (by rw [hkind]; exact hx)
      rw [succeeds_definition_iff h (hroots root hroot) (hslots _ (by simp))
        (hslots _ (by simp))]
      simp
  | statement _ | declarationEnd | statementEnd | expression _ | argument _ | argumentEnd
    | declaration _ | handler _ => simp

theorem succeeds_handlers_iff {roots : List NodeId} (hroots : ∀ root ∈ roots, root ∈ nodes) :
    (c.handlers depth roots).Succeeds ↔
      ∀ root ∈ roots, ∀ n, c.graph.node? root = some n → ∀ x, n.kind = .handler x →
        x.trigger.Readable ∧ c.graph.BodyAt x.body := by
  unfold handlers
  rw [succeeds_each_iff]
  apply forall₂_congr
  intro root hroot
  refine succeeds_node_bind h (P := fun kind => ∀ x, kind = .handler x →
    x.trigger.Readable ∧ c.graph.BodyAt x.body) (hroots root hroot) fun n hn => ?_
  cases hkind : n.kind with
  | handler x =>
      have hbody : x.body ∈ nodes := h.child root (hroots root hroot) n hn x.body (by
        rw [hkind]
        exact List.mem_singleton_self _)
      rw [succeeds_handler_iff h (hroots root hroot) hbody]
      simp
  | statement _ | declarationEnd | statementEnd | expression _ | argument _ | argumentEnd
    | declaration _ | definition _ => simp

end

end Context

end BlockScript.Emission
