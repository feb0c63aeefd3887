import BlockScript.Proofs.Graph.Chain
import Mathlib.Logic.Relation
/-!
# Where generators go

The generators of code go from node to node by the fields that they know of: each kind of statement
and each form of expression has its own.  `Enters` is one such step.  The walk that numbers nodes
knows only of children; the two agree (`enters_iff`).
-/

namespace BlockScript

/-- A node that generating a statement asks for, by the field of the statement that names it. -/
inductive StatementKind.Field : StatementKind → NodeId → Prop where
  | assignTarget {target value : NodeId} : Field (.assign target value) target
  | assignValue {target value : NodeId} : Field (.assign target value) value
  | addAssignTarget {target value : NodeId} : Field (.addAssign target value) target
  | addAssignValue {target value : NodeId} : Field (.addAssign target value) value
  | branchCondition {condition onTrue : NodeId} {onFalse : Option NodeId} :
      Field (.branch condition onTrue onFalse) condition
  | branchTrue {condition onTrue : NodeId} {onFalse : Option NodeId} :
      Field (.branch condition onTrue onFalse) onTrue
  | branchFalse {condition onTrue body : NodeId} : Field (.branch condition onTrue (some body)) body
  | whileCondition {condition body : NodeId} : Field (.whileTrue condition body) condition
  | whileBody {condition body : NodeId} : Field (.whileTrue condition body) body
  | repeatCount {count body : NodeId} : Field (.repeatTimes count body) count
  | repeatBody {count body : NodeId} : Field (.repeatTimes count body) body
  | compoundLocals {locals body : NodeId} : Field (.compound locals body) locals
  | compoundBody {locals body : NodeId} : Field (.compound locals body) body
  | returnValue {value : NodeId} : Field (.returnValue (some value)) value
  | builtinArgument {call : BuiltinCall} {x : NodeId} (hx : x ∈ call.args) : Field (.builtin call) x
  | callArguments {args : NodeId} : Field (.call args) args

inductive Expression.Field : Expression → NodeId → Prop where
  | binaryLeft {op : BinaryOp} {left right : NodeId} : Field (.binary op left right) left
  | binaryRight {op : BinaryOp} {left right : NodeId} : Field (.binary op left right) right
  | unaryOperand {op : UnaryOp} {operand : NodeId} : Field (.unary op operand) operand
  | toneFrequency {frequency duration : NodeId} :
      Field (.literal (.tone frequency duration)) frequency
  | toneDuration {frequency duration : NodeId} :
      Field (.literal (.tone frequency duration)) duration
  | builtinArgument {call : BuiltinCall} {x : NodeId} (hx : x ∈ call.args) : Field (.builtin call) x
  | callArguments {args : NodeId} : Field (.call args) args

theorem StatementKind.field_iff {s : StatementKind} {x : NodeId} : s.Field x ↔ x ∈ s.children := by
  constructor
  · intro h
    cases h <;> simp_all [children]
  · intro h
    cases s with
    | assign target value =>
        rcases List.mem_pair.mp h with rfl | rfl
        · exact .assignTarget
        · exact .assignValue
    | addAssign target value =>
        rcases List.mem_pair.mp h with rfl | rfl
        · exact .addAssignTarget
        · exact .addAssignValue
    | branch condition onTrue onFalse =>
        simp only [children, List.mem_cons, Option.mem_toList] at h
        rcases h with rfl | rfl | h
        · exact .branchCondition
        · exact .branchTrue
        · cases h
          exact .branchFalse
    | whileTrue condition body =>
        rcases List.mem_pair.mp h with rfl | rfl
        · exact .whileCondition
        · exact .whileBody
    | repeatTimes count body =>
        rcases List.mem_pair.mp h with rfl | rfl
        · exact .repeatCount
        · exact .repeatBody
    | compound locals body =>
        rcases List.mem_pair.mp h with rfl | rfl
        · exact .compoundLocals
        · exact .compoundBody
    | breakLoop | continueLoop => cases h
    | returnValue value =>
        cases Option.mem_toList.mp h
        exact .returnValue
    | builtin call => exact .builtinArgument h
    | call args =>
        obtain rfl := List.mem_singleton.mp h
        exact .callArguments

theorem Expression.field_iff {e : Expression} {x : NodeId} : e.Field x ↔ x ∈ e.children := by
  constructor
  · intro h
    cases h <;> simp_all [children]
  · intro h
    cases e with
    | binary op left right =>
        rcases List.mem_pair.mp h with rfl | rfl
        · exact .binaryLeft
        · exact .binaryRight
    | unary op operand =>
        obtain rfl := List.mem_singleton.mp h
        exact .unaryOperand
    | read => cases h
    | literal l =>
        cases l with
        | tone frequency duration =>
            rcases List.mem_pair.mp h with rfl | rfl
            · exact .toneFrequency
            · exact .toneDuration
        | number _ | text _ | bool _ | lineFeed | emptyList _ | silence => cases h
    | builtin call => exact .builtinArgument h
    | call args =>
        obtain rfl := List.mem_singleton.mp h
        exact .callArguments

namespace Graph

/-- Generating the code of a node goes on to another node. -/
inductive Enters (g : Graph) (id : NodeId) : NodeId → Prop where
  | statement {s : Statement} {x : NodeId} (hread : g.statement id = .ok (some s))
      (hx : s.kind.Field x) : Enters g id x
  | statementNext {s : Statement} (hread : g.statement id = .ok (some s)) : Enters g id s.next
  | expression {e : Expression} {x : NodeId} (hread : g.expression id = .ok e) (hx : e.Field x) :
      Enters g id x
  | argumentValue {a : Argument} (hread : g.argument id = .ok (some a)) : Enters g id a.value
  | argumentNext {a : Argument} (hread : g.argument id = .ok (some a)) : Enters g id a.next
  | declarationNext {d : Declaration} (hread : g.declaration id = .ok (some d)) :
      Enters g id d.next
  | definitionParams {d : Definition} (hread : g.definition id = .ok d) : Enters g id d.params
  | definitionBody {d : Definition} (hread : g.definition id = .ok d) : Enters g id d.body
  | handlerBody {n : Node} {h : Handler} (hn : g.node? id = some n) (hkind : n.kind = .handler h) :
      Enters g id h.body

variable {g : Graph} {id x : NodeId}

/-- Generators go where the children of a node are, and to all of them. -/
theorem enters_iff : g.Enters id x ↔ ∃ n, g.node? id = some n ∧ x ∈ n.kind.children := by
  constructor
  · intro h
    cases h with
    | statement hread hx =>
        obtain ⟨n, hn, hkind⟩ := statement_eq_some_iff.mp hread
        have hmem := StatementKind.field_iff.mp hx
        exact ⟨n, hn, by simp [hkind, NodeKind.children, hmem]⟩
    | expression hread hx =>
        obtain ⟨n, hn, hkind⟩ := expression_eq_ok_iff.mp hread
        have hmem := Expression.field_iff.mp hx
        exact ⟨n, hn, by simpa [hkind, NodeKind.children] using hmem⟩
    | statementNext hread => exact followsSlots_statement g id _ hread
    | argumentNext hread => exact followsSlots_argument g id _ hread
    | declarationNext hread => exact followsSlots_declaration g id _ hread
    | argumentValue hread =>
        obtain ⟨n, hn, hkind⟩ := argument_eq_some_iff.mp hread
        exact ⟨n, hn, by simp [hkind, NodeKind.children]⟩
    | definitionParams hread | definitionBody hread =>
        obtain ⟨n, hn, hkind⟩ := definition_eq_ok_iff.mp hread
        exact ⟨n, hn, by simp [hkind, NodeKind.children]⟩
    | handlerBody hn hkind => exact ⟨_, hn, by simp [hkind, NodeKind.children]⟩
  · rintro ⟨n, hn, hx⟩
    cases hkind : n.kind with
    | declaration d =>
        rw [hkind] at hx
        obtain rfl := List.mem_singleton.mp hx
        exact .declarationNext (declaration_eq_some_iff.mpr ⟨n, hn, hkind⟩)
    | statement s =>
        have hread : g.statement id = .ok (some s) := statement_eq_some_iff.mpr ⟨n, hn, hkind⟩
        rw [hkind] at hx
        rcases List.mem_append.mp hx with hx | hx
        · exact .statement hread (StatementKind.field_iff.mpr hx)
        · obtain rfl := List.mem_singleton.mp hx
          exact .statementNext hread
    | expression e =>
        rw [hkind] at hx
        exact .expression (expression_eq_ok_iff.mpr ⟨n, hn, hkind⟩) (Expression.field_iff.mpr hx)
    | argument a =>
        have hread : g.argument id = .ok (some a) := argument_eq_some_iff.mpr ⟨n, hn, hkind⟩
        rw [hkind] at hx
        rcases List.mem_pair.mp hx with rfl | rfl
        · exact .argumentValue hread
        · exact .argumentNext hread
    | definition d =>
        have hread : g.definition id = .ok d := definition_eq_ok_iff.mpr ⟨n, hn, hkind⟩
        rw [hkind] at hx
        rcases List.mem_pair.mp hx with rfl | rfl
        · exact .definitionParams hread
        · exact .definitionBody hread
    | handler h =>
        rw [hkind] at hx
        obtain rfl := List.mem_singleton.mp hx
        exact .handlerBody hn hkind
    | declarationEnd | statementEnd | argumentEnd =>
        rw [hkind] at hx
        cases hx

/-- Generating the code of the first nodes comes to a node. -/
def Entered (g : Graph) (starts : List NodeId) (id : NodeId) : Prop :=
  ∃ start ∈ starts, Relation.ReflTransGen g.Enters start id

/-- What holds of the first nodes and passes to children holds wherever generators come. -/
theorem Entered.induction {starts : List NodeId} {motive : NodeId → Prop}
    (hstarts : ∀ start ∈ starts, motive start)
    (step : ∀ id n c, motive id → g.node? id = some n → c ∈ n.kind.children → motive c)
    (h : g.Entered starts id) : motive id := by
  obtain ⟨start, hstart, hpath⟩ := h
  induction hpath with
  | refl => exact hstarts start hstart
  | tail _ henters ih =>
      obtain ⟨n, hn, hc⟩ := enters_iff.mp henters
      exact step _ n _ ih hn hc

end Graph

end BlockScript
