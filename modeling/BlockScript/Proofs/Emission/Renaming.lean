import BlockScript.Proofs.Emission.Equations
import BlockScript.Proofs.Emission.Lines
import BlockScript.Proofs.Numbering.Renaming
/-!
# Code under other ids

Two contexts whose nodes correspond give the same lines.  The proof follows the generators; where
one looks up a node, the other finds the same contents under other ids, and numbers are equal.
-/

namespace BlockScript.Emission.Context

open Script (Operand Call Code)
open BlockScript.Graph (IsTree SameKind)

/-- The listed nodes of one context correspond to nodes of another. -/
structure Renamed (φ : NodeId → NodeId) (c c' : Context) (nodes : List NodeId) : Prop where
  options : c'.options = c.options
  covers : c.numbering.Covers c.graph nodes
  covers' : c'.numbering.Covers c'.graph (nodes.map φ)
  injective : ∀ a ∈ nodes, ∀ b ∈ nodes, φ a = φ b → a = b
  kind : ∀ id ∈ nodes, SameKind φ c.graph c'.graph id
  bearer : ∀ id ∈ nodes, c'.numbering.bearer (φ id) = φ (c.numbering.bearer id)
  bearer_kind : ∀ id ∈ nodes, SameKind φ c.graph c'.graph (c.numbering.bearer id)
  serial : ∀ id ∈ nodes, ∀ k, c.numbering.serial id = .ok k → c'.numbering.serial (φ id) = .ok k

namespace Renamed

variable {φ : NodeId → NodeId} {c c' : Context} {nodes : List NodeId} {id : NodeId} {depth : Nat}
variable {f : NodeId → Emission Operand} {f' : NodeId → Emission Operand}
variable (h : Renamed φ c c' nodes)
include h

theorem tree' (hid : id ∈ nodes) : IsTree c'.graph (φ id) :=
  h.covers'.tree (φ id) (List.mem_map_of_mem hid)

/-! ## Chains -/

/-- A chain that ends in one context is followed to its end in the other. -/
theorem follow_eq {α : Type} {read : (g : Graph) → NodeId → Except GraphFault (Option α)}
    {next : α → NodeId} {F : α → α} (hid : id ∈ nodes)
    (hslots : ∀ g : Graph, g.FollowsSlots (read g) next)
    (hread : ∀ x ∈ nodes, ∀ o, read c.graph x = .ok o → read c'.graph (φ x) = .ok (o.map F))
    (hnext : ∀ a, next (F a) = φ (next a))
    (hending : (Chain.follow (read c.graph) next c.graph.budget id).ending = .ok ()) :
    Chain.follow (read c'.graph) next c'.graph.budget (φ id) =
      ⟨(Chain.follow (read c.graph) next c.graph.budget id).entries.map
        fun entry => (φ entry.1, F entry.2), .ok ()⟩ := by
  have hclosed : ∀ x ∈ nodes, ∀ a, read c.graph x = .ok (some a) → next a ∈ nodes := by
    intro x hx a ha
    obtain ⟨n, hn, hmem⟩ := hslots c.graph x a ha
    exact h.covers.child x hx n hn _ hmem
  have hchain := (Chained.of_follow hending).map hid hclosed hread hnext
  exact hchain.follow_eq (h.tree' hid) (hslots c'.graph)

theorem arguments_eq (hid : id ∈ nodes) (hending : (c.graph.arguments id).ending = .ok ()) :
    c'.graph.arguments (φ id) =
      ⟨(c.graph.arguments id).entries.map fun entry => (φ entry.1, entry.2.map φ), .ok ()⟩ :=
  h.follow_eq hid Graph.followsSlots_argument (fun x hx _ => (h.kind x hx).argument)
    (fun _ => rfl) hending

theorem declarations_eq (hid : id ∈ nodes) (hending : (c.graph.declarations id).ending = .ok ()) :
    c'.graph.declarations (φ id) =
      ⟨(c.graph.declarations id).entries.map fun entry => (φ entry.1, entry.2.map φ), .ok ()⟩ :=
  h.follow_eq hid Graph.followsSlots_declaration (fun x hx _ => (h.kind x hx).declaration)
    (fun _ => rfl) hending

theorem statements_eq (hid : id ∈ nodes) (hending : (c.graph.statements id).ending = .ok ()) :
    c'.graph.statements (φ id) =
      ⟨(c.graph.statements id).entries.map fun entry => (φ entry.1, entry.2.map φ), .ok ()⟩ :=
  h.follow_eq hid Graph.followsSlots_statement (fun x hx _ => (h.kind x hx).statement)
    (fun _ => rfl) hending

/-! ## Expressions -/

omit h in
/-- The node is named only in the fault. -/
theorem agrees_number (id id' : NodeId) (text : String) :
    Agrees Eq (.lift (number id text)) (.lift (number id' text)) := by
  refine .lift fun x hx => ⟨x, ?_, rfl⟩
  unfold number at hx ⊢
  cases hread : Binary64.read? (Text.trim text.toList) <;> simp_all

theorem agrees_serial (hid : id ∈ nodes) : Agrees Eq (c.serial id) (c'.serial (φ id)) :=
  .lift fun k hk => ⟨k, h.serial id hid k hk, rfl⟩

theorem agrees_variableRead (hid : id ∈ nodes) :
    Agrees Eq (c.variableRead id) (c'.variableRead (φ id)) := by
  intro ls n hgives
  obtain ⟨⟨d, hd⟩, hn, rfl⟩ := gives_variableRead.mp hgives
  refine ⟨n, gives_variableRead.mpr ⟨⟨d.map φ, ?_⟩, h.serial id hid n hn, rfl⟩, rfl⟩
  rw [h.bearer id hid]
  exact (h.bearer_kind id hid).declaration hd

theorem agrees_performCall (hid : id ∈ nodes) (call : Call) (target : Option Nat) :
    Agrees Eq (c.performCall depth id call target) (c'.performCall depth (φ id) call target) := by
  intro ls u hgives
  obtain ⟨n, hn, rfl⟩ := gives_performCall.mp hgives
  refine ⟨u, gives_performCall.mpr ⟨n, ?_, by rw [h.options]⟩, rfl⟩
  intro hdebug
  rw [h.options] at hdebug
  exact h.serial id hid n (hn hdebug)

theorem agrees_builtinCall (hid : id ∈ nodes) {call : BuiltinCall} {target : Option Nat}
    (hf : ∀ x ∈ call.args, Agrees Eq (f x) (f' (φ x))) :
    Agrees Eq (c.builtinCall depth f id call target)
      (c'.builtinCall depth f' (φ id) (call.map φ) target) := by
  unfold builtinCall
  simp only [BuiltinCall.map, List.length_map]
  cases call.func.function? call.choice with
  | none => exact .fail
  | some name =>
      by_cases harity : call.args.length = call.func.arity
      · simp only [harity, ne_eq, not_true_eq_false, if_false]
        apply (Agrees.collect hf).bind
        intro args args' hargs
        obtain rfl := hargs
        refine (h.agrees_performCall hid _ _).bind fun _ _ _ => .refl _
      · simp only [ne_eq, harity, not_false_eq_true, if_true]
        exact .fail

theorem agrees_userCall (hid : id ∈ nodes) {args : NodeId} (hargs : args ∈ nodes)
    {target : Option Nat}
    (hf : ∀ entry ∈ (c.graph.arguments args).entries,
      Agrees Eq (f entry.2.value) (f' (φ entry.2.value))) :
    Agrees Eq (c.userCall depth f id args target)
      (c'.userCall depth f' (φ id) (φ args) target) := by
  unfold userCall
  rw [h.bearer id hid]
  refine Agrees.bind (R := fun d d' => d' = d.map φ) ?_ ?_
  · exact .lift fun d hd => ⟨d.map φ, (h.bearer_kind id hid).definition hd, rfl⟩
  · rintro d _ rfl
    by_cases hno : target.isSome ∧ d.returns = none
    · rw [if_pos hno]
      exact .fail
    · rw [if_neg hno, if_neg (by exact hno)]
      refine Agrees.ended (R := Eq) (fun hending => ?_) ?_
      · rw [h.arguments_eq hargs hending]
        exact ⟨rfl, .collect hf⟩
      · rintro values _ rfl
        apply (h.agrees_serial hid).bind
        rintro n _ rfl
        exact h.agrees_performCall hid _ target

theorem agrees_literal (hid : id ∈ nodes) {l : Literal}
    (hf : ∀ x ∈ (Expression.literal l).children, Agrees Eq (f x) (f' (φ x))) :
    Agrees Eq (c.literal depth f id l) (c'.literal depth f' (φ id) (l.map φ)) := by
  cases l with
  | number text =>
      apply (agrees_number id (φ id) text).bind
      rintro x _ rfl
      exact .refl _
  | bool text =>
      unfold literal
      simp only [Literal.map]
      cases boolOfText? text with
      | none => exact .fail
      | some b => exact .refl _
  | tone frequency duration =>
      apply (hf frequency (by simp [Expression.children])).bind
      rintro a _ rfl
      apply (hf duration (by simp [Expression.children])).bind
      rintro b _ rfl
      apply (h.agrees_serial hid).bind
      rintro t _ rfl
      exact .refl _
  | text _ | lineFeed | emptyList _ | silence => exact .refl _

theorem agrees_expressionCode (hid : id ∈ nodes) (depth : Nat) {e : Expression}
    (hread : c.graph.expression id = .ok e)
    (hf : ∀ x ∈ e.children, Agrees Eq (f x) (f' (φ x)))
    (hvalues : ∀ args, e = .call args → ∀ entry ∈ (c.graph.arguments args).entries,
      Agrees Eq (f entry.2.value) (f' (φ entry.2.value))) :
    Agrees Eq (c.expressionCode depth f id e) (c'.expressionCode depth f' (φ id) (e.map φ)) := by
  cases e with
  | binary op left right =>
      apply (hf left (by simp [Expression.children])).bind
      rintro a _ rfl
      apply (hf right (by simp [Expression.children])).bind
      rintro b _ rfl
      apply (h.agrees_serial hid).bind
      rintro t _ rfl
      rw [h.options]
      exact .refl _
  | unary op right =>
      apply (hf right (by simp [Expression.children])).bind
      rintro a _ rfl
      apply (h.agrees_serial hid).bind
      rintro t _ rfl
      exact .refl _
  | read =>
      apply (h.agrees_variableRead hid).bind
      rintro n _ rfl
      exact .refl _
  | literal l => exact h.agrees_literal hid hf
  | builtin call =>
      by_cases hvalue : call.func.hasValue
      · simp only [expressionCode, Expression.map, BuiltinCall.map, hvalue, if_true]
        apply (h.agrees_serial hid).bind
        rintro t _ rfl
        exact (h.agrees_builtinCall hid hf).bind fun _ _ _ => .refl _
      · simp only [expressionCode, hvalue]
        exact .fail
  | call args =>
      obtain ⟨n, hn, hkind⟩ := Graph.expression_eq_ok_iff.mp hread
      have hargs : args ∈ nodes :=
        h.covers.child id hid n hn args (by simp [hkind, NodeKind.children, Expression.children])
      apply (h.agrees_serial hid).bind
      rintro t _ rfl
      exact (h.agrees_userCall hid hargs (hvalues args rfl)).bind fun _ _ _ => .refl _

theorem agrees_operand (hid : id ∈ nodes) (depth : Nat) :
    Agrees Eq (c.operand depth id) (c'.operand depth (φ id)) := by
  refine (h.covers.tree id hid).induction (motive := fun id => id ∈ nodes →
    Agrees Eq (c.operand depth id) (c'.operand depth (φ id))) ?_ hid
  intro id below hl hnodup ih hid
  rw [operand_eq ⟨_, hl, hnodup⟩, operand_eq (h.tree' hid)]
  intro ls a hgives
  obtain ⟨e, he, hcode⟩ := gives_lift_bind.mp hgives
  obtain ⟨hslots, hvalues⟩ := h.covers.operand_mem hid hl he
  have hagrees := h.agrees_expressionCode hid depth he
    (fun x hx => ih x (hslots x hx).1 (hslots x hx).2) fun args hargs entry hentry =>
      ih _ (hvalues args hargs entry hentry).1 (hvalues args hargs entry hentry).2
  obtain ⟨b, hb, hab⟩ := hagrees ls a hcode
  exact ⟨b, gives_lift_bind.mpr ⟨_, (h.kind id hid).expression he, hb⟩, hab⟩

/-! ## Statements -/

theorem agrees_declaration (hid : id ∈ nodes) (d : Declaration) :
    Agrees Eq (c.declaration depth id d) (c'.declaration depth (φ id) (d.map φ)) := by
  apply (h.agrees_serial hid).bind
  rintro n _ rfl
  unfold note
  rw [h.options]
  exact .refl _

theorem agrees_declarations {head : NodeId} (hhead : head ∈ nodes) :
    Agrees Eq (c.declarations depth head) (c'.declarations depth (φ head)) := by
  refine Agrees.ended_last (R := Eq) fun hending => ?_
  rw [h.declarations_eq hhead hending]
  refine ⟨rfl, .each fun entry hentry => ?_⟩
  have hmem := h.covers.entry_mem hhead (Graph.followsSlots_declaration c.graph) hentry
  exact h.agrees_declaration hmem entry.2

theorem agrees_assignment {target value : NodeId} (htarget : target ∈ nodes)
    (hvalue : value ∈ nodes) {code : Nat → Operand → Code} :
    Agrees Eq (c.assignment depth target value code)
      (c'.assignment depth (φ target) (φ value) code) := by
  refine Agrees.bind (R := fun e e' => e' = e.map φ) ?_ ?_
  · exact .lift fun e he => ⟨e.map φ, (h.kind target htarget).expression he, rfl⟩
  · rintro e _ rfl
    cases e with
    | read =>
        apply (h.agrees_variableRead htarget).bind
        rintro n _ rfl
        apply (h.agrees_operand hvalue depth).bind
        rintro a _ rfl
        exact .refl _
    | binary _ _ _ | unary _ _ | literal _ | builtin _ | call _ => exact .fail

theorem agrees_statement (hid : id ∈ nodes) (depth : Nat) {s : StatementKind}
    {nested nested' : Nat → NodeId → Emission Unit} (hslots : ∀ x ∈ s.children, x ∈ nodes)
    (hnested : ∀ x ∈ s.children, ∀ depth, Agrees Eq (nested depth x) (nested' depth (φ x))) :
    Agrees Eq (c.statement nested depth id s) (c'.statement nested' depth (φ id) (s.map φ)) := by
  have hoperand : ∀ x ∈ s.children, ∀ depth,
      Agrees Eq (c.operand depth x) (c'.operand depth (φ x)) :=
    fun x hx => h.agrees_operand (hslots x hx)
  cases s with
  | assign target value =>
      exact h.agrees_assignment (hslots target (by simp [StatementKind.children]))
        (hslots value (by simp [StatementKind.children]))
  | addAssign target value =>
      exact h.agrees_assignment (hslots target (by simp [StatementKind.children]))
        (hslots value (by simp [StatementKind.children]))
  | branch condition onTrue onFalse =>
      apply (hoperand condition (by simp [StatementKind.children]) depth).bind
      rintro a _ rfl
      apply (Agrees.refl _).bind
      intro _ _ _
      apply (hnested onTrue (by simp [StatementKind.children]) (depth + 1)).bind
      intro _ _ _
      apply (Agrees.refl _).bind
      intro _ _ _
      cases onFalse with
      | none => exact .refl _
      | some body =>
          apply (Agrees.refl _).bind
          intro _ _ _
          apply (hnested body (by simp [StatementKind.children]) (depth + 1)).bind
          intro _ _ _
          exact .refl _
  | whileTrue condition body =>
      apply (Agrees.refl _).bind
      intro _ _ _
      apply (hoperand condition (by simp [StatementKind.children]) (depth + 1)).bind
      rintro a _ rfl
      refine (Agrees.refl _).bind fun _ _ _ => (Agrees.refl _).bind fun _ _ _ => ?_
      apply (Agrees.refl _).bind
      intro _ _ _
      apply (hnested body (by simp [StatementKind.children]) (depth + 1)).bind
      intro _ _ _
      exact .refl _
  | repeatTimes count body =>
      apply (hoperand count (by simp [StatementKind.children]) depth).bind
      rintro a _ rfl
      apply (h.agrees_serial hid).bind
      rintro n _ rfl
      refine (Agrees.refl _).bind fun _ _ _ => (Agrees.refl _).bind fun _ _ _ => ?_
      apply (hnested body (by simp [StatementKind.children]) (depth + 1)).bind
      intro _ _ _
      exact .refl _
  | compound locals body =>
      apply (Agrees.refl _).bind
      intro _ _ _
      refine (h.agrees_declarations (hslots locals (by simp [StatementKind.children]))).bind
        fun _ _ _ => ?_
      apply (hnested body (by simp [StatementKind.children]) (depth + 1)).bind
      intro _ _ _
      exact .refl _
  | breakLoop | continueLoop => exact .refl _
  | returnValue value =>
      cases value with
      | none => exact .refl _
      | some x =>
          apply (hoperand x (by simp [StatementKind.children]) depth).bind
          rintro a _ rfl
          exact .refl _
  | builtin call => exact h.agrees_builtinCall hid fun x hx => hoperand x hx depth
  | call args =>
      have hargs : args ∈ nodes := hslots args (by simp [StatementKind.children])
      apply h.agrees_userCall hid hargs
      intro entry hentry
      obtain ⟨l, hl, _⟩ := h.covers.tree args hargs
      have hsub := h.covers.subset_of_preOrder hl (by simpa using hargs)
      exact h.agrees_operand (hsub (hl.value_mem_of_entry hentry)) depth

theorem agrees_statements (hid : id ∈ nodes) (depth : Nat) :
    Agrees Eq (c.statements depth id) (c'.statements depth (φ id)) := by
  refine (h.covers.tree id hid).induction (motive := fun id => id ∈ nodes → ∀ depth,
    Agrees Eq (c.statements depth id) (c'.statements depth (φ id))) ?_ hid depth
  intro id below hl hnodup ih hid depth
  rw [Context.statements_eq ⟨_, hl, hnodup⟩, Context.statements_eq (h.tree' hid)]
  intro ls u hgives
  obtain ⟨o, ho, hcode⟩ := gives_lift_bind.mp hgives
  have ho' := (h.kind id hid).statement ho
  cases o with
  | none => exact ⟨u, gives_lift_bind.mpr ⟨none, ho', hcode⟩, rfl⟩
  | some s =>
      obtain ⟨hslots, hnext, hnodes⟩ := h.covers.statement_mem hid hl ho
      have hagrees := (h.agrees_statement hid depth (s := s.kind)
        (fun x hx => (hslots x hx).2) fun x hx => ih x (hslots x hx).1 (hslots x hx).2).bind
          (S := Eq) fun _ _ _ => ih s.next hnext hnodes depth
      obtain ⟨u', hu', hrel⟩ := hagrees ls u hcode
      exact ⟨u', gives_lift_bind.mpr ⟨_, ho', hu'⟩, hrel⟩

/-! ## Roots -/

theorem agrees_globalEntries {entries : List (NodeId × Declaration)} {declared : List NodeId}
    (hentries : ∀ entry ∈ entries, entry.1 ∈ nodes) (hdeclared : ∀ x ∈ declared, x ∈ nodes) :
    Agrees (fun d d' => d' = d.map φ ∧ ∀ x ∈ d, x ∈ nodes)
      (c.globalEntries depth entries declared)
      (c'.globalEntries depth (entries.map fun entry => (φ entry.1, entry.2.map φ))
        (declared.map φ)) := by
  induction entries generalizing declared with
  | nil => exact .pure ⟨rfl, hdeclared⟩
  | cons entry entries ih =>
      rw [List.forall_mem_cons] at hentries
      have hcontains : (declared.map φ).contains (φ entry.1) = declared.contains entry.1 := by
        rw [Bool.eq_iff_iff, List.contains_iff_mem, List.contains_iff_mem]
        constructor
        · intro hmem
          obtain ⟨x, hx, heq⟩ := List.mem_map.mp hmem
          exact h.injective x (hdeclared x hx) entry.1 hentries.1 heq ▸ hx
        · exact List.mem_map_of_mem
      unfold globalEntries
      simp only [List.map_cons]
      rw [hcontains]
      by_cases hmem : declared.contains entry.1
      · rw [if_pos hmem, if_pos hmem]
        exact (Agrees.event _ _).bind fun _ _ _ => ih hentries.2 hdeclared
      · rw [if_neg hmem, if_neg hmem]
        apply (h.agrees_declaration hentries.1 entry.2).bind
        intro _ _ _
        exact ih hentries.2 (List.forall_mem_cons.mpr ⟨hentries.1, hdeclared⟩)

theorem agrees_globals {roots declared : List NodeId} (hroots : ∀ x ∈ roots, x ∈ nodes)
    (hdeclared : ∀ x ∈ declared, x ∈ nodes) :
    Agrees (fun d d' => d' = d.map φ ∧ ∀ x ∈ d, x ∈ nodes) (c.globals depth roots declared)
      (c'.globals depth (roots.map φ) (declared.map φ)) := by
  induction roots generalizing declared with
  | nil => exact .pure ⟨rfl, hdeclared⟩
  | cons root roots ih =>
      rw [List.forall_mem_cons] at hroots
      obtain ⟨n, hn⟩ := (h.covers.tree root hroots.1).node
      obtain ⟨n', hn', hkind⟩ := h.kind root hroots.1 n hn
      rw [List.map_cons]
      unfold globals
      rw [Graph.node_eq_ok_iff.mpr hn, Graph.node_eq_ok_iff.mpr hn', lift_ok, lift_ok, pure_bind,
        pure_bind, hkind]
      cases n.kind with
      | declaration d =>
          refine Agrees.ended
            (R := fun d d' => d' = d.map φ ∧ ∀ x ∈ d, x ∈ nodes) (fun hending => ?_) ?_
          · rw [h.declarations_eq hroots.1 hending]
            refine ⟨rfl, h.agrees_globalEntries (fun entry hentry => ?_) hdeclared⟩
            exact h.covers.entry_mem hroots.1 (Graph.followsSlots_declaration c.graph) hentry
          · rintro declared' _ ⟨rfl, hdeclared'⟩
            exact ih hroots.2 hdeclared'
      | statement _ | declarationEnd | statementEnd | expression _ | argument _ | argumentEnd
        | definition _ | handler _ => exact ih hroots.2 hdeclared

theorem agrees_params {head : NodeId} (hhead : head ∈ nodes) :
    Agrees Eq (c.params head) (c'.params (φ head)) := by
  refine Agrees.ended (R := Eq) (fun hending => ?_) ?_
  · rw [h.declarations_eq hhead hending]
    refine ⟨rfl, .collect fun entry hentry => ?_⟩
    have hmem := h.covers.entry_mem hhead (Graph.followsSlots_declaration c.graph) hentry
    apply (h.agrees_serial hmem).bind
    rintro n _ rfl
    unfold note
    rw [h.options]
    exact .refl _
  · rintro params _ rfl
    exact .refl _

theorem agrees_definition {d : Definition} (hid : id ∈ nodes) (hparams : d.params ∈ nodes)
    (hbody : d.body ∈ nodes) :
    Agrees Eq (c.definition depth id d) (c'.definition depth (φ id) (d.map φ)) := by
  apply (h.agrees_serial hid).bind
  rintro n _ rfl
  apply (Agrees.event _ _).bind
  intro _ _ _
  apply (h.agrees_params hparams).bind
  rintro params _ rfl
  unfold note
  rw [h.options]
  apply (Agrees.refl _).bind
  intro _ _ _
  exact (h.agrees_statements hbody (depth + 1)).bind fun _ _ _ => .refl _

omit h in
theorem agrees_delay (id id' : NodeId) (trigger : Trigger) :
    Agrees Eq (delay depth id trigger) (delay depth id' trigger) := by
  cases trigger with
  | keyPressed key => exact .refl _
  | delayedStart text =>
      apply (agrees_number id id' text).bind
      rintro x _ rfl
      exact .refl _

omit h in
theorem agrees_registration (id id' : NodeId) (n : Nat) (trigger : Trigger) :
    Agrees Eq (registration depth id n trigger) (registration depth id' n trigger) := by
  unfold registration
  cases trigger.event? with
  | none => exact .event _ _
  | some event => exact .refl _

theorem agrees_handler {x : Handler} (hid : id ∈ nodes) (hbody : x.body ∈ nodes) :
    Agrees Eq (c.handler depth id x) (c'.handler depth (φ id) (x.map φ)) := by
  apply (h.agrees_serial hid).bind
  rintro n _ rfl
  apply (Agrees.event _ _).bind
  intro _ _ _
  refine (Agrees.refl _).bind fun _ _ _ => (Agrees.refl _).bind fun _ _ _ => ?_
  refine (Agrees.refl _).bind fun _ _ _ => (Agrees.refl _).bind fun _ _ _ => ?_
  apply (agrees_delay id (φ id) x.trigger).bind
  intro _ _ _
  apply (h.agrees_statements hbody (depth + 3)).bind
  intro _ _ _
  refine (Agrees.refl _).bind fun _ _ _ => (Agrees.refl _).bind fun _ _ _ => ?_
  refine (Agrees.refl _).bind fun _ _ _ => (Agrees.refl _).bind fun _ _ _ => ?_
  refine (Agrees.refl _).bind fun _ _ _ => (Agrees.refl _).bind fun _ _ _ => ?_
  exact agrees_registration id (φ id) n x.trigger

theorem agrees_definitions {roots : List NodeId} (hroots : ∀ x ∈ roots, x ∈ nodes) :
    Agrees Eq (c.definitions depth roots) (c'.definitions depth (roots.map φ)) := by
  refine .each fun root hroot => ?_
  have hid := hroots root hroot
  obtain ⟨n, hn⟩ := (h.covers.tree root hid).node
  obtain ⟨n', hn', hkind⟩ := h.kind root hid n hn
  rw [Graph.node_eq_ok_iff.mpr hn, Graph.node_eq_ok_iff.mpr hn', lift_ok, lift_ok, pure_bind,
    pure_bind, hkind]
  cases hdefinition : n.kind with
  | definition d =>
      have hslots : ∀ x ∈ [d.params, d.body], x ∈ nodes := fun x hx =>
        h.covers.child root hid n hn x (by rw [hdefinition]; exact hx)
      exact h.agrees_definition hid (hslots _ (by simp)) (hslots _ (by simp))
  | statement _ | declarationEnd | statementEnd | expression _ | argument _ | argumentEnd
    | declaration _ | handler _ => exact .refl _

theorem agrees_handlers {roots : List NodeId} (hroots : ∀ x ∈ roots, x ∈ nodes) :
    Agrees Eq (c.handlers depth roots) (c'.handlers depth (roots.map φ)) := by
  refine .each fun root hroot => ?_
  have hid := hroots root hroot
  obtain ⟨n, hn⟩ := (h.covers.tree root hid).node
  obtain ⟨n', hn', hkind⟩ := h.kind root hid n hn
  rw [Graph.node_eq_ok_iff.mpr hn, Graph.node_eq_ok_iff.mpr hn', lift_ok, lift_ok, pure_bind,
    pure_bind, hkind]
  cases hhandler : n.kind with
  | handler x =>
      have hbody : x.body ∈ nodes := h.covers.child root hid n hn x.body (by
        rw [hhandler]
        exact List.mem_singleton_self _)
      exact h.agrees_handler hid hbody
  | statement _ | declarationEnd | statementEnd | expression _ | argument _ | argumentEnd
    | declaration _ | definition _ => exact .refl _

end Renamed

end BlockScript.Emission.Context
