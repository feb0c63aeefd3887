import BlockScript.Emission.Roots
import BlockScript.Proofs.Emission.Equations
import BlockScript.Proofs.Graph.Fault
import BlockScript.Proofs.Numbering.Program
import BlockScript.Proofs.Script.ClearTexts
/-!
# What every emission keeps to

For nodes that a numbering covers, generating code fails only for grammar: no walk runs out of steps
and no node is without a number.  And the lines that it gives call only functions of the library
with plain names.  Such an emission is `Regular`; sequences of regular emissions are regular, and so
is the code of expressions (`regular_operand`), of chains of statements (`regular_statements`) and
of roots.
-/

namespace BlockScript.Emission

open Script (Line Code Call Operand)
open BlockScript.Graph (PreOrder IsTree)

variable {α β : Type}

/-- The emission calls only functions with plain names, and fails only for grammar. -/
structure Regular (x : Emission α) : Prop where
  plain : ∀ l ∈ x.output.lines, l.code.Plain
  fault : ∀ e, x.result = .error e → e.OfGrammar

namespace Regular

theorem ne_outOfSteps {x : Emission α} (h : Regular x) : x.result ≠ .error .outOfSteps :=
  fun heq => (h.fault _ heq).ne_outOfSteps rfl

theorem pure (a : α) : Regular (Pure.pure a) :=
  ⟨List.forall_mem_nil _, by rintro e ⟨⟩⟩

theorem fail {e : GraphFault} (h : e.OfGrammar) : Regular (fail e : Emission α) := by
  refine ⟨List.forall_mem_nil _, fun e' he => ?_⟩
  obtain rfl := Except.error.inj he
  exact h

theorem lift {x : Except GraphFault α} (h : ∀ e, x = .error e → e.OfGrammar) :
    Regular (lift x) :=
  ⟨List.forall_mem_nil _, h⟩

theorem line {code : Code} (h : code.Plain) (depth : Nat) : Regular (line depth code) :=
  ⟨List.forall_mem_singleton.mpr h, by rintro e ⟨⟩⟩

theorem event (e : Event) : Regular (event e) :=
  ⟨List.forall_mem_nil _, by rintro e ⟨⟩⟩

theorem bind {x : Emission α} {f : α → Emission β} (hx : Regular x)
    (hf : ∀ a, x.result = .ok a → Regular (f a)) : Regular (x >>= f) := by
  cases hresult : x.result with
  | error e =>
      rw [bind_of_error hresult]
      refine ⟨hx.plain, fun e' he => ?_⟩
      obtain rfl := Except.error.inj he
      exact hx.fault e hresult
  | ok a =>
      rw [bind_of_ok hresult]
      have ha := hf a hresult
      refine ⟨fun l hl => ?_, ha.fault⟩
      rcases List.mem_append.mp hl with hl | hl
      · exact hx.plain l hl
      · exact ha.plain l hl

theorem line_bind {code : Code} {f : Unit → Emission β} (h : code.Plain) (depth : Nat)
    (hf : Regular (f ())) : Regular (Emission.line depth code >>= f) :=
  (line h depth).bind fun _ _ => hf

theorem each {f : α → Emission Unit} {as : List α} (h : ∀ a ∈ as, Regular (f a)) :
    Regular (each f as) := by
  induction as with
  | nil => exact .pure ()
  | cons a as ih =>
      rw [List.forall_mem_cons] at h
      exact h.1.bind fun _ _ => ih h.2

theorem collect {f : α → Emission β} {as : List α} (h : ∀ a ∈ as, Regular (f a)) :
    Regular (collect f as) := by
  induction as with
  | nil => exact .pure []
  | cons a as ih =>
      rw [List.forall_mem_cons] at h
      exact h.1.bind fun _ _ => (ih h.2).bind fun _ _ => .pure _

end Regular

theorem quiet_function {func : Builtin} {choice : Option Choice} {name : String}
    (h : func.function? choice = some name) : Script.Quiet name.toList := by
  have hlist : ∀ op : ListOp, Script.Quiet op.function.toList := by
    intro op
    cases op <;> decide
  unfold Builtin.function? at h
  split at h
  all_goals
    cases h <;> first | decide | exact hlist _

theorem ofGrammar_of_number {id : NodeId} {text : String} {e : GraphFault}
    (h : number id text = .error e) : e.OfGrammar := by
  unfold number at h
  cases hread : Binary64.read? (Text.trim text.toList) with
  | some x => simp [hread] at h
  | none =>
      simp only [hread, Except.error.injEq] at h
      exact h ▸ trivial

namespace Context

variable {c : Context} {depth : Nat} {id : NodeId} {nodes : List NodeId}
variable {f : NodeId → Emission Operand} {nested : Nat → NodeId → Emission Unit}

theorem regular_whenDebug {x : Emission Unit} (h : Regular x) : Regular (c.whenDebug x) := by
  unfold whenDebug
  split
  · exact h
  · exact .pure ()

section

variable (h : c.numbering.Covers c.graph nodes) (hid : id ∈ nodes)
include h hid

/-! ## Calls -/

theorem regular_serial : Regular (c.serial id) := by
  obtain ⟨k, hk⟩ := h.serial id hid
  unfold serial
  rw [hk]
  exact .pure k

theorem regular_variableRead : Regular (c.variableRead id) := by
  obtain ⟨n, hn, _⟩ := (h.leadsTo id hid).target
  have hread : Regular (lift (c.graph.declaration (c.numbering.bearer id))) :=
    .lift fun e he => Graph.ofGrammar_of_contents hn he
  apply hread.bind
  intro o _
  cases o with
  | none => exact .fail trivial
  | some d => exact regular_serial h hid

theorem regular_performCall {call : Call} (hcall : call.callee.Plain) (target : Option Nat) :
    Regular (c.performCall depth id call target) := by
  have henter : Regular (do let n ← c.serial id; .line depth (.enterCall n)) :=
    (regular_serial h hid).bind fun _ _ => .line (by trivial) depth
  have hleave : Regular (c.whenDebug (.line depth .leaveCall)) :=
    regular_whenDebug (.line (by trivial) depth)
  refine (regular_whenDebug henter).bind fun _ _ => ?_
  cases target with
  | some t => exact .line_bind (by exact hcall) depth hleave
  | none => exact .line_bind (by exact hcall) depth hleave

theorem regular_builtinCall {call : BuiltinCall} (hargs : ∀ x ∈ call.args, Regular (f x))
    (target : Option Nat) : Regular (c.builtinCall depth f id call target) := by
  unfold builtinCall
  cases hname : call.func.function? call.choice with
  | none => exact .fail trivial
  | some name =>
      simp only
      split
      · exact .fail trivial
      · refine (Regular.collect hargs).bind fun args _ => ?_
        refine (regular_performCall h hid (by exact quiet_function hname) target).bind fun _ _ => ?_
        split
        · exact .line_bind (by trivial) depth (.line (by trivial) (depth + 1))
        · exact .pure ()

theorem regular_userCall {args : NodeId} (htree : IsTree c.graph args)
    (hvalues : ∀ entry ∈ (c.graph.arguments args).entries, Regular (f entry.2.value))
    (target : Option Nat) : Regular (c.userCall depth f id args target) := by
  obtain ⟨n, hn, _⟩ := (h.leadsTo id hid).target
  have hdefinition : Regular (lift (c.graph.definition (c.numbering.bearer id))) :=
    .lift fun e he => Graph.ofGrammar_of_contents hn he
  have hending : Regular (lift (c.graph.arguments args).ending) := .lift fun e he =>
    htree.ofGrammar_of_ending (Graph.followsSlots_argument c.graph)
      (Graph.readsGrammar_argument c.graph) he
  apply hdefinition.bind
  intro d _
  split
  · exact .fail trivial
  · refine (Regular.collect hvalues).bind fun values _ => hending.bind fun _ _ => ?_
    exact (regular_serial h hid).bind fun n _ => regular_performCall h hid (by trivial) target

/-! ## Expressions -/

theorem regular_read : Regular (lift (c.graph.expression id)) := by
  obtain ⟨n, hn⟩ := (h.tree id hid).node
  exact .lift fun _ he => Graph.ofGrammar_of_contents hn he

theorem regular_literal {l : Literal}
    (hslots : ∀ x ∈ (Expression.literal l).children, Regular (f x)) :
    Regular (c.literal depth f id l) := by
  cases l with
  | number text =>
      have hnumber : Regular (lift (Emission.number id text)) :=
        .lift fun e he => ofGrammar_of_number he
      exact hnumber.bind fun _ _ => .pure _
  | bool text =>
      simp only [literal]
      cases boolOfText? text with
      | some b => exact .pure _
      | none => exact .fail trivial
  | tone frequency duration =>
      have hfrequency := hslots frequency (by simp [Expression.children])
      have hduration := hslots duration (by simp [Expression.children])
      refine hfrequency.bind fun _ _ => hduration.bind fun _ _ => ?_
      refine (regular_serial h hid).bind fun _ _ => ?_
      have hname : Script.Quiet "_createSound".toList := by decide
      exact .line_bind (by exact hname) depth (.pure _)
  | text _ | lineFeed | emptyList _ | silence => exact .pure _

theorem regular_expressionCode {e : Expression} (hread : c.graph.expression id = .ok e)
    (hslots : ∀ x ∈ e.children, Regular (f x))
    (hvalues : ∀ args, e = .call args → ∀ entry ∈ (c.graph.arguments args).entries,
      Regular (f entry.2.value)) : Regular (c.expressionCode depth f id e) := by
  have hserial := regular_serial h hid
  cases e with
  | binary op left right =>
      have hleft := hslots left (by simp [Expression.children])
      have hright := hslots right (by simp [Expression.children])
      refine hleft.bind fun _ _ => hright.bind fun _ _ => hserial.bind fun _ _ => ?_
      refine .line_bind (by trivial) depth ?_
      split
      · exact .line_bind (by trivial) depth (.line_bind (by trivial) (depth + 1) (.pure _))
      · exact .pure _
  | unary op right =>
      have hright := hslots right (by simp [Expression.children])
      refine hright.bind fun _ _ => hserial.bind fun _ _ => ?_
      exact .line_bind (by trivial) depth (.pure _)
  | read => exact (regular_variableRead h hid).bind fun _ _ => .pure _
  | literal l => exact regular_literal h hid hslots
  | builtin call =>
      simp only [expressionCode]
      split
      · refine hserial.bind fun t _ => ?_
        exact (regular_builtinCall h hid hslots (some t)).bind fun _ _ => .pure _
      · exact .fail trivial
  | call args =>
      have htree : IsTree c.graph args := by
        obtain ⟨n, hn, hkind⟩ := Graph.expression_eq_ok_iff.mp hread
        exact (h.tree id hid).child hn (by simp [hkind, NodeKind.children, Expression.children])
      refine hserial.bind fun t _ => ?_
      exact (regular_userCall h hid htree (hvalues args rfl) (some t)).bind fun _ _ => .pure _

end

theorem regular_operand (h : c.numbering.Covers c.graph nodes) (hid : id ∈ nodes) (depth : Nat) :
    Regular (c.operand depth id) := by
  refine (h.tree id hid).induction (motive := fun id => id ∈ nodes →
    Regular (c.operand depth id)) ?_ hid
  intro id below hl hnodup ih hid
  rw [operand_eq ⟨_, hl, hnodup⟩]
  apply (regular_read h hid).bind
  intro e he
  obtain ⟨hslots, hvalues⟩ := h.operand_mem hid hl he
  refine regular_expressionCode h hid he (fun x hx => ?_) fun args hargs entry hentry => ?_
  · exact ih x (hslots x hx).1 (hslots x hx).2
  · obtain ⟨hbelow, hnodes⟩ := hvalues args hargs entry hentry
    exact ih _ hbelow hnodes

/-! ## Statements -/

section

variable (h : c.numbering.Covers c.graph nodes)
include h

theorem regular_declaration (hid : id ∈ nodes) (d : Declaration) :
    Regular (c.declaration depth id d) :=
  (regular_serial h hid).bind fun _ _ => .line (by trivial) depth

theorem regular_declarations_ending {head : NodeId} (hhead : head ∈ nodes) :
    Regular (lift (c.graph.declarations head).ending) := .lift fun _ he =>
  (h.tree head hhead).ofGrammar_of_ending (Graph.followsSlots_declaration c.graph)
    (Graph.readsGrammar_declaration c.graph) he

theorem declaration_entry_mem {head : NodeId} (hhead : head ∈ nodes)
    {entry : NodeId × Declaration} (hentry : entry ∈ (c.graph.declarations head).entries) :
    entry.1 ∈ nodes :=
  h.entry_mem hhead (Graph.followsSlots_declaration c.graph) hentry

theorem regular_declarations {head : NodeId} (hhead : head ∈ nodes) (depth : Nat) :
    Regular (c.declarations depth head) := by
  have hentries : ∀ entry ∈ (c.graph.declarations head).entries,
      Regular (c.declaration depth entry.1 entry.2) := fun entry hentry =>
    regular_declaration h (declaration_entry_mem h hhead hentry) entry.2
  exact (Regular.each hentries).bind fun _ _ => regular_declarations_ending h hhead

theorem regular_assignment {target value : NodeId} (htarget : target ∈ nodes)
    (hvalue : value ∈ nodes) {code : Nat → Operand → Code} (hcode : ∀ n a, (code n a).Plain) :
    Regular (c.assignment depth target value code) := by
  apply (regular_read h htarget).bind
  intro e _
  cases e with
  | read =>
      refine (regular_variableRead h htarget).bind fun n _ => ?_
      exact (regular_operand h hvalue depth).bind fun a _ => .line (hcode n a) depth
  | binary _ _ _ | unary _ _ | literal _ | builtin _ | call _ => exact .fail trivial

theorem regular_statement (hid : id ∈ nodes) {s : StatementKind}
    (hslots : ∀ x ∈ s.children, x ∈ nodes)
    (hnested : ∀ x ∈ s.children, ∀ depth, Regular (nested depth x)) :
    Regular (c.statement nested depth id s) := by
  have hoperand : ∀ x ∈ s.children, ∀ depth, Regular (c.operand depth x) :=
    fun x hx => regular_operand h (hslots x hx)
  cases s with
  | assign target value | addAssign target value =>
      have htarget := hslots target (by simp [StatementKind.children])
      have hvalue := hslots value (by simp [StatementKind.children])
      exact regular_assignment h htarget hvalue fun _ _ => trivial
  | branch condition onTrue onFalse =>
      have hcondition := hoperand condition (by simp [StatementKind.children]) depth
      have htrue := hnested onTrue (by simp [StatementKind.children]) (depth + 1)
      refine hcondition.bind fun _ _ => .line_bind (by trivial) depth ?_
      refine htrue.bind fun _ _ => .line_bind (by trivial) depth ?_
      cases onFalse with
      | none => exact .pure ()
      | some body =>
          have hfalse := hnested body (by simp [StatementKind.children]) (depth + 1)
          refine .line_bind (by trivial) depth ?_
          exact hfalse.bind fun _ _ => .line (by trivial) depth
  | whileTrue condition body =>
      have hcondition := hoperand condition (by simp [StatementKind.children]) (depth + 1)
      have hbody := hnested body (by simp [StatementKind.children]) (depth + 1)
      refine .line_bind (by trivial) depth (hcondition.bind fun _ _ => ?_)
      refine .line_bind (by trivial) (depth + 1) (.line_bind (by trivial) (depth + 2) ?_)
      refine .line_bind (by trivial) (depth + 1) ?_
      exact hbody.bind fun _ _ => .line (by trivial) depth
  | repeatTimes count body =>
      have hcount := hoperand count (by simp [StatementKind.children]) depth
      have hbody := hnested body (by simp [StatementKind.children]) (depth + 1)
      refine hcount.bind fun _ _ => (regular_serial h hid).bind fun _ _ => ?_
      refine .line_bind (by trivial) depth (.line_bind (by trivial) depth ?_)
      exact hbody.bind fun _ _ => .line (by trivial) depth
  | compound locals body =>
      have hlocals := hslots locals (by simp [StatementKind.children])
      have hbody := hnested body (by simp [StatementKind.children]) (depth + 1)
      refine .line_bind (by trivial) depth ?_
      refine (regular_declarations h hlocals (depth + 1)).bind fun _ _ => ?_
      exact hbody.bind fun _ _ => .line (by trivial) depth
  | breakLoop | continueLoop => exact .line (by trivial) depth
  | returnValue value =>
      cases value with
      | none => exact .line (by trivial) depth
      | some x =>
          have hx := hoperand x (by simp [StatementKind.children]) depth
          exact hx.bind fun _ _ => .line (by trivial) depth
  | builtin call =>
      exact regular_builtinCall h hid (fun x hx => hoperand x hx depth) none
  | call args =>
      have hmem : args ∈ nodes := hslots args (by simp [StatementKind.children])
      obtain ⟨l, hl, hnodup⟩ := h.tree args hmem
      have hsub := h.subset_of_preOrder hl (by simpa using hmem)
      refine regular_userCall h hid ⟨l, hl, hnodup⟩ (fun entry hentry => ?_) none
      exact regular_operand h (hsub (hl.value_mem_of_entry hentry)) depth

theorem regular_statements (hid : id ∈ nodes) (depth : Nat) :
    Regular (c.statements depth id) := by
  refine (h.tree id hid).induction (motive := fun id => id ∈ nodes → ∀ depth,
    Regular (c.statements depth id)) ?_ hid depth
  intro id below hl hnodup ih hid depth
  obtain ⟨n, hn⟩ := (h.tree id hid).node
  rw [statements_eq ⟨_, hl, hnodup⟩]
  have hread : Regular (lift (c.graph.statement id)) := .lift fun e he =>
    Graph.ofGrammar_of_contents hn he
  apply hread.bind
  intro o ho
  cases o with
  | none => exact .pure ()
  | some s =>
      obtain ⟨hslots, hnext, hnodes⟩ := h.statement_mem hid hl ho
      have hstatement : Regular (c.statement c.statements depth id s.kind) :=
        regular_statement h hid (fun x hx => (hslots x hx).2) fun x hx depth =>
          ih x (hslots x hx).1 (hslots x hx).2 depth
      exact hstatement.bind fun _ _ => ih s.next hnext hnodes depth

/-! ## Roots -/

theorem regular_node (hid : id ∈ nodes) : Regular (lift (c.graph.node id)) := by
  obtain ⟨n, hn⟩ := (h.tree id hid).node
  rw [Graph.node_eq_ok_iff.mpr hn]
  exact .pure n

theorem regular_globalEntries {entries : List (NodeId × Declaration)}
    (hentries : ∀ entry ∈ entries, entry.1 ∈ nodes) (declared : List NodeId) :
    Regular (c.globalEntries depth entries declared) := by
  induction entries generalizing declared with
  | nil => exact .pure declared
  | cons entry entries ih =>
      rw [List.forall_mem_cons] at hentries
      unfold globalEntries
      split
      · exact (Regular.event _).bind fun _ _ => ih hentries.2 declared
      · exact (regular_declaration h hentries.1 entry.2).bind fun _ _ => ih hentries.2 _

theorem regular_globals {roots : List NodeId} (hroots : ∀ root ∈ roots, root ∈ nodes)
    (declared : List NodeId) : Regular (c.globals depth roots declared) := by
  induction roots generalizing declared with
  | nil => exact .pure declared
  | cons root roots ih =>
      rw [List.forall_mem_cons] at hroots
      have hrest := ih hroots.2
      unfold globals
      apply (regular_node h hroots.1).bind
      intro n _
      cases n.kind with
      | declaration d =>
          have hentries : ∀ entry ∈ (c.graph.declarations root).entries, entry.1 ∈ nodes :=
            fun _ hentry => declaration_entry_mem h hroots.1 hentry
          refine (regular_globalEntries h hentries declared).bind fun declared' _ => ?_
          exact (regular_declarations_ending h hroots.1).bind fun _ _ => hrest declared'
      | statement _ | declarationEnd | statementEnd | expression _ | argument _ | argumentEnd
        | definition _ | handler _ => exact hrest declared

theorem regular_params {head : NodeId} (hhead : head ∈ nodes) : Regular (c.params head) := by
  have hentries : ∀ entry ∈ (c.graph.declarations head).entries, Regular (do
      let n ← c.serial entry.1
      pure (Script.Param.mk n (c.note entry.2.name))) := fun entry hentry =>
    (regular_serial h (declaration_entry_mem h hhead hentry)).bind fun _ _ => .pure _
  refine (Regular.collect hentries).bind fun params _ => ?_
  exact (regular_declarations_ending h hhead).bind fun _ _ => .pure params

theorem regular_definition {d : Definition} (hid : id ∈ nodes) (hparams : d.params ∈ nodes)
    (hbody : d.body ∈ nodes) : Regular (c.definition depth id d) := by
  refine (regular_serial h hid).bind fun _ _ => (Regular.event _).bind fun _ _ => ?_
  refine (regular_params h hparams).bind fun _ _ => .line_bind (by trivial) depth ?_
  exact (regular_statements h hbody (depth + 1)).bind fun _ _ => .line (by trivial) depth

omit h in
theorem regular_delay (depth : Nat) (id : NodeId) (trigger : Trigger) :
    Regular (delay depth id trigger) := by
  cases trigger with
  | keyPressed key => exact .pure ()
  | delayedStart text =>
      have hnumber : Regular (lift (Emission.number id text)) :=
        .lift fun _ he => ofGrammar_of_number he
      have hname : Script.Quiet "_sleep".toList := by decide
      exact hnumber.bind fun _ _ => .line (by exact hname) depth

omit h in
theorem regular_registration (depth : Nat) (id : NodeId) (n : Nat) (trigger : Trigger) :
    Regular (registration depth id n trigger) := by
  unfold registration
  cases trigger.event? with
  | some event => exact .line (by trivial) depth
  | none => exact .event _

theorem regular_handler {x : Handler} (hid : id ∈ nodes) (hbody : x.body ∈ nodes) :
    Regular (c.handler depth id x) := by
  refine (regular_serial h hid).bind fun n _ => (Regular.event _).bind fun _ _ => ?_
  refine .line_bind (by trivial) depth (.line_bind (by trivial) depth ?_)
  refine .line_bind (by trivial) (depth + 1) (.line_bind (by trivial) (depth + 2) ?_)
  refine (regular_delay (depth + 3) id x.trigger).bind fun _ _ => ?_
  refine (regular_statements h hbody (depth + 3)).bind fun _ _ => ?_
  refine .line_bind (by trivial) (depth + 2) (.line_bind (by trivial) (depth + 2) ?_)
  refine .line_bind (by trivial) (depth + 3) (.line_bind (by trivial) (depth + 2) ?_)
  refine .line_bind (by trivial) (depth + 1) (.line_bind (by trivial) depth ?_)
  exact regular_registration depth id n x.trigger

theorem regular_definitions {roots : List NodeId} (hroots : ∀ root ∈ roots, root ∈ nodes) :
    Regular (c.definitions depth roots) := by
  refine .each fun root hroot => (regular_node h (hroots root hroot)).bind fun n hn => ?_
  have hslots := h.child root (hroots root hroot) n (Graph.node_eq_ok_iff.mp hn)
  cases hkind : n.kind with
  | definition d =>
      rw [hkind] at hslots
      exact regular_definition h (hroots root hroot) (hslots d.params (by simp [NodeKind.children]))
        (hslots d.body (by simp [NodeKind.children]))
  | statement _ | declarationEnd | statementEnd | expression _ | argument _ | argumentEnd
    | declaration _ | handler _ => exact .pure ()

theorem regular_handlers {roots : List NodeId} (hroots : ∀ root ∈ roots, root ∈ nodes) :
    Regular (c.handlers depth roots) := by
  refine .each fun root hroot => (regular_node h (hroots root hroot)).bind fun n hn => ?_
  have hslots := h.child root (hroots root hroot) n (Graph.node_eq_ok_iff.mp hn)
  cases hkind : n.kind with
  | handler x =>
      rw [hkind] at hslots
      exact regular_handler h (hroots root hroot) (hslots x.body (by simp [NodeKind.children]))
  | statement _ | declarationEnd | statementEnd | expression _ | argument _ | argumentEnd
    | declaration _ | definition _ => exact .pure ()

end

end Context

end BlockScript.Emission
