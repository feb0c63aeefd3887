import BlockScript.Proofs.Emission.Sites
/-!
# The sites of generated code

Where only reads and calls have referents, the code of an expression binds sites for distinct nodes
of its tree (`lays_operand`), and so does the code of a chain of statements (`lays_statements`).
-/

namespace BlockScript

/-- Reads and calls, which refer to another node. -/
def NodeKind.isUse : NodeKind → Bool
  | .expression .read => true
  | .expression (.call _) => true
  | .statement ⟨.call _, _⟩ => true
  | _ => false

def Graph.RefersOnlyByUse (g : Graph) : Prop :=
  ∀ id n, g.node? id = some n → n.referent ≠ none → n.kind.isUse = true

theorem Graph.refersOnlyByUse_iff {g : Graph} :
    g.RefersOnlyByUse ↔
      ∀ id ∈ g.ids, ∀ n ∈ g.node? id, n.referent ≠ none → n.kind.isUse = true := by
  constructor
  · intro h id _ n hn
    exact h id n hn
  · intro h id n hn
    exact h id (mem_ids hn) n hn

instance (g : Graph) : Decidable g.RefersOnlyByUse :=
  decidable_of_iff' _ Graph.refersOnlyByUse_iff

namespace Emission.Context

open BlockScript.Graph (PreOrder IsTree)
open Script (Line Code Block Operand Call)

variable {c : Context} {depth : Nat} {id : NodeId} {nodes l : List NodeId} {ls : List Line}
variable {f : NodeId → Emission Operand}

structure Plain (c : Context) (nodes : List NodeId) : Prop where
  covers : c.numbering.Covers c.graph nodes
  refersOnlyByUse : c.graph.RefersOnlyByUse

theorem Plain.proper (h : c.Plain nodes) {n : Node} {role : Role} (hid : id ∈ nodes)
    (hn : c.graph.node? id = some n) (huse : n.kind.isUse = false)
    (hdefinition : role = .var → ∀ d, n.kind ≠ .definition d) : c.Proper ⟨role, id⟩ := by
  have hreferent : n.referent = none := by
    by_contra hsome
    rw [h.refersOnlyByUse id n hn hsome] at huse
    cases huse
  have hself : c.numbering.bearer id = id :=
    (h.covers.leadsTo id hid).eq_of_referent_none hn hreferent
  refine ⟨h.covers.serial id hid, fun hcall => ?_, fun _ => ⟨hself, fun hvar d hd => ?_⟩⟩
  · exfalso
    simp only [Graph.isCall, hn] at hcall
    split at hcall
    · next heq =>
        obtain rfl := Option.some.inj heq
        cases huse
    · cases hcall
  · obtain ⟨m, hm, hkind⟩ := Graph.definition_eq_ok_iff.mp hd
    obtain rfl := Option.some.inj (hn.symm.trans hm)
    exact hdefinition hvar d hkind

theorem isCall_eq_true_iff {g : Graph} :
    g.isCall id = true ↔ ∃ n args, g.node? id = some n ∧ n.kind = .expression (.call args) := by
  unfold Graph.isCall
  split
  · next heq => simp [heq]
  · next hnot =>
      simp only [Bool.false_eq_true, false_iff, not_exists, not_and]
      rintro ⟨kind, state, referent⟩ args hn rfl
      exact hnot _ _ _ hn

theorem isCall_eq_false {n : Node} (hn : c.graph.node? id = some n) (huse : n.kind.isUse = false) :
    c.graph.isCall id = false := by
  rw [← Bool.not_eq_true, isCall_eq_true_iff]
  rintro ⟨m, args, hm, hkind⟩
  obtain rfl := Option.some.inj (hn.symm.trans hm)
  rw [hkind] at huse
  cases huse

/-- What is bound, in a role, for a node that is no call. -/
theorem siteBlock_of_isCall_eq_false {k : Nat} {role : Role} (hcall : c.graph.isCall id = false)
    (hk : c.numbering.serial id = .ok k) : c.siteBlock [⟨role, id⟩] = ⟨[role.name k], []⟩ := by
  simp [siteBlock, siteName, hcall, number_eq hk]

theorem siteBlock_of_call {n : Node} {k : Nat} {args : NodeId} (hn : c.graph.node? id = some n)
    (hkind : n.kind = .expression (.call args)) (hk : c.numbering.serial id = .ok k) :
    c.siteBlock [⟨.var, id⟩] = ⟨[.var k], [k]⟩ := by
  have hcall : c.graph.isCall id = true := isCall_eq_true_iff.mpr ⟨n, args, hn, hkind⟩
  simp [siteBlock, siteName, hcall, number_eq hk, Role.name]

/-- A temporary, a counter or a limit: what the code of expressions and statements binds outside of
nested blocks. -/
structure Temporary (c : Context) (s : Site) : Prop where
  role : s.role = .var ∨ s.role = .limit
  node : ∀ o, c.graph.declaration s.node ≠ .ok o

theorem declaration_ne_of_kind {n : Node} (hn : c.graph.node? id = some n)
    (hkind : (∃ e, n.kind = .expression e) ∨ ∃ s, n.kind = .statement s) :
    ∀ o, c.graph.declaration id ≠ .ok o := by
  intro o ho
  cases o with
  | none =>
      obtain ⟨m, hm, hm'⟩ := Graph.declaration_eq_none_iff.mp ho
      obtain rfl := Option.some.inj (hn.symm.trans hm)
      rcases hkind with ⟨e, he⟩ | ⟨s, hs⟩ <;> simp_all
  | some d =>
      obtain ⟨m, hm, hm'⟩ := Graph.declaration_eq_some_iff.mp ho
      obtain rfl := Option.some.inj (hn.symm.trans hm)
      rcases hkind with ⟨e, he⟩ | ⟨s, hs⟩ <;> simp_all

/-- The code that `f` gives for a node binds names for distinct nodes of its tree. -/
def LaysTree (c : Context) {α : Type} (f : NodeId → Emission α) (id : NodeId) : Prop :=
  ∀ l ls a, PreOrder c.graph [id] l → Gives (f id) ls a → c.Lays c.Temporary l ls

/-! ## Calls -/

theorem lays_performCall {call : Call} {target : Option Nat} {u : Unit}
    (hcode : c.Lays c.Temporary l [⟨depth, callCode call target⟩])
    (h : Gives (c.performCall depth id call target) ls u) : c.Lays c.Temporary l ls := by
  obtain ⟨n, _, rfl⟩ := gives_performCall.mp h
  have hrecord : ∀ code : Code, code.nesting = .within → code.block = .empty →
      c.Lays c.Temporary [] (if c.options.isDebug then [⟨depth, code⟩] else []) := by
    intro code hnesting hblock
    split
    · exact .line hnesting hblock
    · exact .nil c _ _
  have hlays := (hrecord (.enterCall n) rfl rfl).append
    (hcode.append (hrecord .leaveCall rfl rfl))
  simpa using hlays

theorem lays_collect {as l : List NodeId} {bs : List Operand}
    (hf : ∀ x ∈ as, c.LaysTree f x) (hl : PreOrder c.graph as l)
    (h : Gives (collect f as) ls bs) : c.Lays c.Temporary l ls := by
  induction as generalizing l ls bs with
  | nil =>
      obtain ⟨_, rfl⟩ := gives_pure.mp h
      cases hl
      exact .nil c _ _
  | cons a as ih =>
      obtain ⟨la, las, hla, hlas, rfl⟩ := PreOrder.exists_of_cons hl
      obtain ⟨b, l₁, l₂, hb, hrest, rfl⟩ := gives_bind.mp h
      obtain ⟨bs', l₃, l₄, hbs, hpure, rfl⟩ := gives_bind.mp hrest
      obtain ⟨_, rfl⟩ := gives_pure.mp hpure
      rw [List.append_nil]
      apply (hf a List.mem_cons_self la l₁ b hla hb).append
      exact ih (fun x hx => hf x (List.mem_cons_of_mem a hx)) hlas hbs

theorem lays_builtinCall {call : BuiltinCall} {target : Option Nat} {la : List NodeId} {u : Unit}
    (hf : ∀ x ∈ call.args, c.LaysTree f x) (hargs : PreOrder c.graph call.args la)
    (hcode : ∀ name args, c.Lays c.Temporary l [⟨depth, callCode ⟨.library name, args⟩ target⟩])
    (h : Gives (c.builtinCall depth f id call target) ls u) : c.Lays c.Temporary (la ++ l) ls := by
  unfold builtinCall at h
  cases hname : call.func.function? call.choice with
  | none =>
      simp only [hname] at h
      exact absurd h gives_fail.mp
  | some name =>
      simp only [hname] at h
      split at h
      · exact absurd h gives_fail.mp
      · obtain ⟨args, l₁, l₂, hcollect, hrest, rfl⟩ := gives_bind.mp h
        obtain ⟨_, l₃, l₄, hcall, hlast, rfl⟩ := gives_bind.mp hrest
        have hsubstitute : c.Lays c.Temporary [] l₄ := by
          cases target with
          | none =>
              obtain ⟨_, rfl⟩ := gives_pure.mp hlast
              exact .nil c _ _
          | some t =>
              cases hvalue : call.func.substitute? with
              | none =>
                  simp only [hvalue] at hlast
                  obtain ⟨_, rfl⟩ := gives_pure.mp hlast
                  exact .nil c _ _
              | some value =>
                  simp only [hvalue] at hlast
                  obtain ⟨_, hline, rfl⟩ := gives_line_bind.mp hlast
                  obtain rfl := gives_line.mp hline
                  exact (Lays.line rfl rfl).append (Lays.line rfl rfl)
        apply (lays_collect hf hargs hcollect).append
        have hlays := (lays_performCall (hcode name args) hcall).append hsubstitute
        simpa using hlays

theorem lays_userCall {args : NodeId} {target : Option Nat} {la : List NodeId} {u : Unit}
    (hf : ∀ entry ∈ (c.graph.arguments args).entries, c.LaysTree f entry.2.value)
    (hargs : PreOrder c.graph [args] la)
    (hcode : ∀ d n values, c.graph.definition (c.numbering.bearer id) = .ok d →
      c.numbering.serial id = .ok n →
        c.Lays c.Temporary l [⟨depth, callCode ⟨.user n, values⟩ target⟩])
    (h : Gives (c.userCall depth f id args target) ls u) : c.Lays c.Temporary (la ++ l) ls := by
  obtain ⟨d, hd, hbody⟩ := gives_lift_bind.mp h
  split at hbody
  · exact absurd hbody gives_fail.mp
  · obtain ⟨values, l₁, l₂, hcollect, hrest, rfl⟩ := gives_bind.mp hbody
    obtain ⟨_, _, hnumber⟩ := gives_lift_bind.mp hrest
    obtain ⟨n, hserial, hcall⟩ := gives_serial_bind.mp hnumber
    obtain ⟨lv, hlv, hsub⟩ := hargs.exists_values c.graph.budget
    have hvalues : Gives (collect f
        ((c.graph.arguments args).entries.map fun entry => entry.2.value)) l₁ values := by
      rw [collect_map]
      exact hcollect
    refine ((lays_collect (fun x hx => ?_) hlv hvalues).mono hsub.subperm).append
      (lays_performCall (hcode d n values hd hserial) hcall)
    obtain ⟨entry, hentry, rfl⟩ := List.mem_map.mp hx
    exact hf entry hentry

/-! ## Expressions -/

theorem Plain.lays_bind (h : c.Plain nodes) (depth : Nat) (value : Script.Value) {e : Expression}
    {t : Nat} (hid : id ∈ nodes) (hread : c.graph.expression id = .ok e)
    (huse : (NodeKind.expression e).isUse = false) (ht : c.numbering.serial id = .ok t)
    (hvalue : (Code.bind t value).block = ⟨[.var t], []⟩) :
    c.Lays c.Temporary [id] [⟨depth, .bind t value⟩] := by
  obtain ⟨n, hn, hkind⟩ := Graph.expression_eq_ok_iff.mp hread
  rw [← hkind] at huse
  refine Lays.site (s := ⟨.var, id⟩) rfl ?_ ?_ ?_
  · rw [siteBlock_of_isCall_eq_false (isCall_eq_false hn huse) ht, hvalue]
    rfl
  · exact h.proper hid hn huse fun _ => by simp [hkind]
  · exact ⟨.inl rfl, declaration_ne_of_kind hn (.inl ⟨e, hkind⟩)⟩

section

variable (h : c.Plain nodes) (hid : id ∈ nodes)
include h hid

theorem lays_literal {e : Literal} {below : List NodeId} {a : Operand}
    (hread : c.graph.expression id = .ok (.literal e))
    (hbelow : PreOrder c.graph (Expression.literal e).children below)
    (hf : ∀ x ∈ (Expression.literal e).children, c.LaysTree f x)
    (hgives : Gives (c.literal depth f id e) ls a) : c.Lays c.Temporary (below ++ [id]) ls := by
  cases e with
  | tone frequency duration =>
      obtain ⟨lf, ld, hlf, hld, rfl⟩ := PreOrder.exists_of_cons hbelow
      obtain ⟨x, l₁, l₂, hx, hrest, rfl⟩ := gives_bind.mp hgives
      obtain ⟨y, l₃, l₄, hy, hnumber, rfl⟩ := gives_bind.mp hrest
      obtain ⟨t, ht, hline⟩ := gives_serial_bind.mp hnumber
      obtain ⟨r, hpure, rfl⟩ := gives_line_bind.mp hline
      obtain ⟨_, rfl⟩ := gives_pure.mp hpure
      have hbind := h.lays_bind depth (.call ⟨.library "_createSound", [x, y]⟩) hid hread rfl
        ht rfl
      have hx' := hf frequency (by simp [Expression.children]) lf l₁ x hlf hx
      have hy' := hf duration (by simp [Expression.children]) ld l₃ y hld hy
      have hlays := hx'.append (hy'.append hbind)
      rwa [← List.append_assoc] at hlays
  | number text =>
      obtain ⟨x, _, hpure⟩ := gives_lift_bind.mp hgives
      obtain ⟨_, rfl⟩ := gives_pure.mp hpure
      exact Lays.nil c _ _
  | bool text =>
      unfold literal at hgives
      cases hb : boolOfText? text with
      | none =>
          simp only [hb] at hgives
          exact absurd hgives gives_fail.mp
      | some b =>
          simp only [hb] at hgives
          obtain ⟨_, rfl⟩ := gives_pure.mp hgives
          exact Lays.nil c _ _
  | text _ | lineFeed | emptyList _ | silence =>
      obtain ⟨_, rfl⟩ := gives_pure.mp hgives
      exact Lays.nil c _ _

theorem lays_expressionCode {e : Expression} {below : List NodeId} {a : Operand}
    (hread : c.graph.expression id = .ok e) (hbelow : PreOrder c.graph e.children below)
    (hf : ∀ x ∈ e.children, c.LaysTree f x)
    (hvalues : ∀ args, e = .call args →
      ∀ entry ∈ (c.graph.arguments args).entries, c.LaysTree f entry.2.value)
    (hgives : Gives (c.expressionCode depth f id e) ls a) :
    c.Lays c.Temporary (below ++ [id]) ls := by
  cases e with
  | binary op left right =>
      obtain ⟨lleft, lright, hlleft, hlright, rfl⟩ := PreOrder.exists_of_cons hbelow
      obtain ⟨x, l₁, l₂, hx, hrest, rfl⟩ := gives_bind.mp hgives
      obtain ⟨y, l₃, l₄, hy, hnumber, rfl⟩ := gives_bind.mp hrest
      obtain ⟨t, ht, hline⟩ := gives_serial_bind.mp hnumber
      obtain ⟨r, hguard, rfl⟩ := gives_line_bind.mp hline
      have hr : c.Lays c.Temporary [] r := by
        split at hguard
        · obtain ⟨_, hassign, rfl⟩ := gives_line_bind.mp hguard
          obtain ⟨_, hpure, rfl⟩ := gives_line_bind.mp hassign
          obtain ⟨_, rfl⟩ := gives_pure.mp hpure
          exact (Lays.line rfl rfl).append (Lays.line rfl rfl)
        · obtain ⟨_, rfl⟩ := gives_pure.mp hguard
          exact .nil c _ _
      have hbind := h.lays_bind depth (.binary op x y) hid hread rfl ht rfl
      have hx' := hf left (by simp [Expression.children]) lleft l₁ x hlleft hx
      have hy' := hf right (by simp [Expression.children]) lright l₃ y hlright hy
      have hlays := hx'.append (hy'.append (hbind.append hr))
      simpa using hlays
  | unary op right =>
      obtain ⟨x, l₁, l₂, hx, hrest, rfl⟩ := gives_bind.mp hgives
      obtain ⟨t, ht, hline⟩ := gives_serial_bind.mp hrest
      obtain ⟨r, hpure, rfl⟩ := gives_line_bind.mp hline
      obtain ⟨_, rfl⟩ := gives_pure.mp hpure
      have hbind := h.lays_bind depth (.unary op x) hid hread rfl ht rfl
      exact (hf right (by simp [Expression.children]) below l₁ x hbelow hx).append hbind
  | read =>
      obtain ⟨t, l₁, l₂, ht, hpure, rfl⟩ := gives_bind.mp hgives
      obtain ⟨_, _, rfl⟩ := gives_variableRead.mp ht
      obtain ⟨_, rfl⟩ := gives_pure.mp hpure
      exact Lays.nil c _ _
  | literal l => exact lays_literal h hid hread hbelow hf hgives
  | builtin call =>
      by_cases hvalue : call.func.hasValue
      · simp only [expressionCode, hvalue, if_true] at hgives
        obtain ⟨t, ht, hvalued⟩ := gives_serial_bind.mp hgives
        obtain ⟨_, l₁, l₂, hcall, hpure, rfl⟩ := gives_bind.mp hvalued
        obtain ⟨_, rfl⟩ := gives_pure.mp hpure
        rw [List.append_nil]
        refine lays_builtinCall hf hbelow (fun name args => ?_) hcall
        exact h.lays_bind depth _ hid hread rfl ht rfl
      · simp only [expressionCode, hvalue] at hgives
        exact absurd hgives gives_fail.mp
  | call args =>
      obtain ⟨t, ht, hvalued⟩ := gives_serial_bind.mp hgives
      obtain ⟨_, l₁, l₂, hcall, hpure, rfl⟩ := gives_bind.mp hvalued
      obtain ⟨_, rfl⟩ := gives_pure.mp hpure
      rw [List.append_nil]
      refine lays_userCall (hvalues args rfl) hbelow (fun d k values hd hk => ?_) hcall
      obtain rfl : t = k := Except.ok.inj (ht.symm.trans hk)
      obtain ⟨n, hn, hkind⟩ := Graph.expression_eq_ok_iff.mp hread
      have hcalled : c.graph.isCall id = true := isCall_eq_true_iff.mpr ⟨n, args, hn, hkind⟩
      refine Lays.site (s := ⟨.var, id⟩) rfl (siteBlock_of_call hn hkind ht).symm ?_ ?_
      · refine ⟨⟨t, ht⟩, fun _ => ⟨rfl, d, hd⟩, fun hnot => ?_⟩
        rw [hcalled] at hnot
        cases hnot
      · exact ⟨.inl rfl, declaration_ne_of_kind hn (.inl ⟨_, hkind⟩)⟩

end

/-- The code of an expression binds names for distinct nodes of its tree. -/
theorem lays_operand (h : c.Plain nodes) (hid : id ∈ nodes) : c.LaysTree (c.operand depth) id := by
  refine (h.covers.tree id hid).induction
    (motive := fun id => id ∈ nodes → c.LaysTree (c.operand depth) id) ?_ hid
  intro id below hbelow hnodup ih hid l ls a hl hgives
  obtain rfl := hl.unique hbelow
  rw [operand_eq ⟨_, hl, hnodup⟩] at hgives
  obtain ⟨e, he, hcode⟩ := gives_lift_bind.mp hgives
  obtain ⟨hslots, hvalues⟩ := h.covers.operand_mem hid hl he
  obtain ⟨n, hn, hkind⟩ := Graph.expression_eq_ok_iff.mp he
  obtain ⟨below', htrees, hcons⟩ := hl.slots hn
  obtain rfl := (List.cons.inj hcons).2
  rw [hkind] at htrees
  have hlays := lays_expressionCode h hid he htrees
    (fun x hx => ih x (hslots x hx).1 (hslots x hx).2) (fun args hargs entry hentry =>
      ih _ (hvalues args hargs entry hentry).1 (hvalues args hargs entry hentry).2) hcode
  exact hlays.mono (List.perm_append_singleton id below).subperm

/-! ## Statements -/

structure Declared (c : Context) (s : Site) : Prop where
  role : s.role = .var
  node : ∃ d, c.graph.declaration s.node = .ok (some d)

theorem Plain.proper_declared (h : c.Plain nodes) (hid : id ∈ nodes) {d : Declaration}
    (hread : c.graph.declaration id = .ok (some d)) :
    c.Proper ⟨.var, id⟩ ∧ c.graph.isCall id = false := by
  obtain ⟨n, hn, hkind⟩ := Graph.declaration_eq_some_iff.mp hread
  have huse : n.kind.isUse = false := by
    rw [hkind]
    rfl
  exact ⟨h.proper hid hn huse fun _ => by simp [hkind], isCall_eq_false hn huse⟩

theorem Plain.lays_declare (h : c.Plain nodes) (hid : id ∈ nodes) {d : Declaration} {u : Unit}
    (hread : c.graph.declaration id = .ok (some d))
    (hgives : Gives (c.declaration depth id d) ls u) : c.Lays c.Declared [id] ls := by
  obtain ⟨hproper, hcall⟩ := h.proper_declared hid hread
  obtain ⟨k, hk, rfl⟩ := gives_declaration.mp hgives
  refine Lays.site (s := ⟨.var, id⟩) rfl ?_ hproper ⟨rfl, d, hread⟩
  rw [siteBlock_of_isCall_eq_false hcall hk]
  rfl

theorem lays_each {α : Type} {P : Site → Prop} {f : α → Emission Unit} {k : α → List NodeId}
    {as : List α} {u : Unit}
    (hf : ∀ a ∈ as, ∀ ls u, Gives (f a) ls u → c.Lays P (k a) ls)
    (h : Gives (each f as) ls u) : c.Lays P (as.flatMap k) ls := by
  induction as generalizing ls u with
  | nil =>
      obtain ⟨_, rfl⟩ := gives_pure.mp h
      exact .nil c _ _
  | cons a as ih =>
      obtain ⟨_, l₁, l₂, ha, hrest, rfl⟩ := gives_bind.mp h
      rw [List.flatMap_cons]
      apply (hf a List.mem_cons_self l₁ _ ha).append
      exact ih (fun x hx => hf x (List.mem_cons_of_mem a hx)) hrest

theorem lays_declarations (h : c.Plain nodes) {head : NodeId} (hhead : head ∈ nodes) {u : Unit}
    (hl : PreOrder c.graph [head] l) (hgives : Gives (c.declarations depth head) ls u) :
    c.Lays c.Declared l ls := by
  obtain ⟨_, l₁, l₂, heach, hending, rfl⟩ := gives_bind.mp hgives
  obtain ⟨_, rfl⟩ := gives_lift.mp hending
  rw [List.append_nil]
  have hslots := Graph.followsSlots_declaration c.graph
  have hlays : c.Lays c.Declared
      ((c.graph.declarations head).entries.flatMap fun entry => [entry.1]) l₁ := by
    refine lays_each (fun entry hentry ls u hline => ?_) heach
    obtain ⟨_, hread⟩ := hl.mem_of_entry hslots hentry
    exact h.lays_declare (h.covers.entry_mem hhead hslots hentry) hread hline
  apply hlays.mono
  rw [← List.map_eq_flatMap]
  exact (hl.entries_sublist hslots c.graph.budget).subperm

theorem exists_of_gives_block {x : Emission Unit} {code : Code} {β : Type}
    {k : Unit → Emission β} {b : β}
    (h : Gives (line depth code >>= fun _ => x >>= fun _ => line depth .close >>= k) ls b) :
    ∃ lx r, Gives x lx () ∧ Gives (k ()) r b ∧
      ls = (⟨depth, code⟩ :: (lx ++ [⟨depth, .close⟩])) ++ r := by
  obtain ⟨_, hrest, rfl⟩ := gives_line_bind.mp h
  obtain ⟨_, lx, _, hx, hclose, rfl⟩ := gives_bind.mp hrest
  obtain ⟨r, hk, rfl⟩ := gives_line_bind.mp hclose
  exact ⟨lx, r, hx, hk, by simp⟩

theorem exists_of_gives_last_block {x : Emission Unit} {code : Code} {u : Unit}
    (h : Gives (line depth code >>= fun _ => x >>= fun _ => line depth .close) ls u) :
    ∃ lx, Gives x lx () ∧ ls = ⟨depth, code⟩ :: (lx ++ [⟨depth, .close⟩]) := by
  obtain ⟨_, hrest, rfl⟩ := gives_line_bind.mp h
  obtain ⟨_, lx, _, hx, hclose, rfl⟩ := gives_bind.mp hrest
  obtain rfl := gives_line.mp hclose
  exact ⟨lx, hx, rfl⟩

theorem lays_branch {nested : Nat → NodeId → Emission Unit} {condition onTrue : NodeId}
    {onFalse : Option NodeId} {u : Unit} (hcondition : c.LaysTree (c.operand depth) condition)
    (htrue : c.LaysTree (nested (depth + 1)) onTrue)
    (hfalse : ∀ body ∈ onFalse, c.LaysTree (nested (depth + 1)) body)
    (hl : PreOrder c.graph (condition :: onTrue :: onFalse.toList) l) (hnodup : l.Nodup)
    (hgives : Gives (c.statement nested depth id (.branch condition onTrue onFalse)) ls u) :
    c.Lays c.Temporary l ls := by
  obtain ⟨lc, lbs, hlc, hlbs, rfl⟩ := PreOrder.exists_of_cons hl
  obtain ⟨lt, lf, hlt, hlf, rfl⟩ := PreOrder.exists_of_cons hlbs
  have hbranches := hnodup.of_append_right
  obtain ⟨a, l₁, l₂, ha, hrest, rfl⟩ := gives_bind.mp hgives
  obtain ⟨lx, r, hx, halternative, rfl⟩ := exists_of_gives_block hrest
  have hblock : c.Lays c.Temporary [] _ :=
    (htrue lt lx () hlt hx).block depth (.openIf a) hbranches.of_append_left rfl rfl
  have hr : c.Lays c.Temporary [] r := by
    cases onFalse with
    | none =>
        obtain ⟨_, rfl⟩ := gives_pure.mp halternative
        exact .nil c _ _
    | some body =>
        obtain ⟨ly, hy, rfl⟩ := exists_of_gives_last_block halternative
        have hbody := hfalse body rfl lf ly () hlf hy
        exact hbody.block depth .openElse hbranches.of_append_right rfl rfl
  have hlays := (hcondition lc l₁ a hlc ha).append (hblock.append hr)
  rw [List.append_nil, List.append_nil] at hlays
  apply hlays.mono
  exact (List.sublist_append_left lc _).subperm

/-- The condition is generated inside the loop, and so binds nothing in the block around it. -/
theorem lays_while {nested : Nat → NodeId → Emission Unit} {condition body : NodeId} {u : Unit}
    (hcondition : c.LaysTree (c.operand (depth + 1)) condition)
    (hbody : c.LaysTree (nested (depth + 1)) body)
    (hl : PreOrder c.graph [condition, body] l) (hnodup : l.Nodup)
    (hgives : Gives (c.statement nested depth id (.whileTrue condition body)) ls u) :
    c.Lays c.Temporary [] ls := by
  obtain ⟨lc, lb, hlc, hlb, rfl⟩ := PreOrder.exists_of_cons hl
  obtain ⟨r, hrest, rfl⟩ := gives_line_bind.mp hgives
  obtain ⟨a, l₁, l₂, ha, hexit, rfl⟩ := gives_bind.mp hrest
  obtain ⟨lexit, l₃, hbreak, hlast, rfl⟩ := exists_of_gives_block hexit
  obtain ⟨_, lx, l₄, hx, hclose, rfl⟩ := gives_bind.mp hlast
  obtain rfl := gives_line.mp hbreak
  obtain rfl := gives_line.mp hclose
  have hbreak : c.Lays c.Temporary [] [⟨depth + 2, .breakLoop⟩] := Lays.line rfl rfl
  have hexit : c.Lays c.Temporary [] _ :=
    hbreak.block (depth + 1) (.openUnless a) List.nodup_nil rfl rfl
  have hinside := (hcondition lc l₁ a hlc ha).append (hexit.append (hbody lb lx () hlb hx))
  have hloop : c.Lays c.Temporary [] _ := hinside.block depth .openWhile hnodup rfl rfl
  simpa using hloop

section

variable (h : c.Plain nodes) (hid : id ∈ nodes)
include h

theorem lays_assignment {target value : NodeId} {code : Nat → Operand → Code} {lt lv : List NodeId}
    {u : Unit} (hvalue : value ∈ nodes) (hlv : PreOrder c.graph [value] lv)
    (hcode : ∀ n a, (code n a).nesting = .within ∧ (code n a).block = .empty)
    (hgives : Gives (c.assignment depth target value code) ls u) :
    c.Lays c.Temporary (id :: (lt ++ lv)) ls := by
  obtain ⟨e, _, hbody⟩ := gives_lift_bind.mp hgives
  cases e with
  | read =>
      obtain ⟨n, l₁, l₂, hread, hrest, rfl⟩ := gives_bind.mp hbody
      obtain ⟨_, _, rfl⟩ := gives_variableRead.mp hread
      obtain ⟨a, l₃, l₄, ha, hline, rfl⟩ := gives_bind.mp hrest
      obtain rfl := gives_line.mp hline
      have hassign : c.Lays c.Temporary [] [⟨depth, code n a⟩] :=
        Lays.line (hcode n a).1 (hcode n a).2
      have hlays := (lays_operand h hvalue lv l₃ a hlv ha).append hassign
      rw [List.append_nil] at hlays
      apply hlays.mono
      exact ((List.sublist_append_right lt lv).cons id).subperm
  | binary _ _ _ | unary _ _ | literal _ | builtin _ | call _ => exact absurd hbody gives_fail.mp

theorem lays_compound {nested : Nat → NodeId → Emission Unit} {locals body : NodeId} {u : Unit}
    (hlocals : locals ∈ nodes) (hbody : c.LaysTree (nested (depth + 1)) body)
    (hl : PreOrder c.graph [locals, body] l) (hnodup : l.Nodup)
    (hgives : Gives (c.statement nested depth id (.compound locals body)) ls u) :
    c.Lays c.Temporary [] ls := by
  obtain ⟨ll, lb, hll, hlb, rfl⟩ := PreOrder.exists_of_cons hl
  obtain ⟨r, hrest, rfl⟩ := gives_line_bind.mp hgives
  obtain ⟨_, l₁, l₂, hdeclarations, hlast, rfl⟩ := gives_bind.mp hrest
  obtain ⟨_, lx, l₃, hx, hclose, rfl⟩ := gives_bind.mp hlast
  obtain rfl := gives_line.mp hclose
  have hdeclared := lays_declarations h hlocals hll hdeclarations
  -- Inside the block declarations and temporaries are told apart by their nodes.
  have hinside := (hdeclared.imp fun _ _ => trivial).append
    ((hbody lb lx () hlb hx).imp (Q := fun _ => True) fun _ _ => trivial)
  have hblock : c.Lays c.Temporary [] _ := hinside.block depth .openBlock hnodup rfl rfl
  rwa [List.append_assoc] at hblock

include hid

/-- The limit is bound in front of the loop, the counter inside. -/
theorem lays_repeat {nested : Nat → NodeId → Emission Unit} {count body next : NodeId} {u : Unit}
    (hread : c.graph.statement id = .ok (some ⟨.repeatTimes count body, next⟩))
    (hcount : c.LaysTree (c.operand depth) count) (hbody : c.LaysTree (nested (depth + 1)) body)
    (hl : PreOrder c.graph [count, body] l) (hnodup : (id :: l).Nodup)
    (hgives : Gives (c.statement nested depth id (.repeatTimes count body)) ls u) :
    c.Lays c.Temporary (id :: l) ls := by
  obtain ⟨lc, lb, hlc, hlb, rfl⟩ := PreOrder.exists_of_cons hl
  obtain ⟨n, hn, hkind⟩ := Graph.statement_eq_some_iff.mp hread
  have huse : n.kind.isUse = false := by
    rw [hkind]
    rfl
  have hproper : ∀ role, c.Proper ⟨role, id⟩ := fun role =>
    h.proper hid hn huse fun _ => by simp [hkind]
  obtain ⟨a, l₁, l₂, ha, hrest, rfl⟩ := gives_bind.mp hgives
  obtain ⟨k, hk, hlimit⟩ := gives_serial_bind.mp hrest
  obtain ⟨l₃, hblock, rfl⟩ := gives_line_bind.mp hlimit
  obtain ⟨lx, hx, rfl⟩ := exists_of_gives_last_block hblock
  have hlimit : c.Lays c.Temporary [id] [⟨depth, .bindLimit k a⟩] := by
    refine Lays.site (s := ⟨.limit, id⟩) rfl ?_ (hproper .limit)
      ⟨.inr rfl, declaration_ne_of_kind hn (.inr ⟨_, hkind⟩)⟩
    rw [siteBlock_of_isCall_eq_false (isCall_eq_false hn huse) hk]
    rfl
  have hloop : c.Lays c.Temporary [] (⟨depth, .openRepeat k⟩ :: (lx ++ [⟨depth, .close⟩])) := by
    refine Lays.nested [⟨.var, id⟩] [] ?_ rfl (hbody lb lx () hlb hx) ?_ ?_ (by simp)
    · simp [Code.nesting, siteName, number_eq hk, Role.name]
    · exact hnodup.sublist ((List.sublist_append_right lc lb).cons_cons id)
    · simpa using ⟨hproper .var, isCall_eq_false hn huse⟩
  have hlays : c.Lays c.Temporary (lc ++ [id]) _ :=
    (hcount lc l₁ a hlc ha).append (hlimit.append hloop)
  have hsubperm : (lc ++ [id]).Subperm (id :: (lc ++ lb)) :=
    (List.perm_append_singleton id lc).subperm.trans
      ((List.sublist_append_left lc lb).cons_cons id).subperm
  simpa using hlays.mono hsubperm

theorem lays_statement {s : Statement} {nested : Nat → NodeId → Emission Unit} {u : Unit}
    (hread : c.graph.statement id = .ok (some s)) (hl : PreOrder c.graph s.kind.children l)
    (hnodup : (id :: l).Nodup) (hslots : ∀ x ∈ s.kind.children, x ∈ nodes)
    (hnested : ∀ x ∈ s.kind.children, ∀ depth, c.LaysTree (nested depth) x)
    (hgives : Gives (c.statement nested depth id s.kind) ls u) :
    c.Lays c.Temporary (id :: l) ls := by
  have hoperand : ∀ x ∈ s.kind.children, ∀ depth, c.LaysTree (c.operand depth) x :=
    fun x hx depth => lays_operand h (hslots x hx)
  have hl' := hnodup.of_cons
  obtain ⟨kind, next⟩ := s
  cases kind with
  | assign target value =>
      obtain ⟨lt, lv, _, hlv, rfl⟩ := PreOrder.exists_of_cons hl
      exact lays_assignment h (hslots value (by simp [StatementKind.children])) hlv
        (fun _ _ => ⟨rfl, rfl⟩) hgives
  | addAssign target value =>
      obtain ⟨lt, lv, _, hlv, rfl⟩ := PreOrder.exists_of_cons hl
      exact lays_assignment h (hslots value (by simp [StatementKind.children])) hlv
        (fun _ _ => ⟨rfl, rfl⟩) hgives
  | branch condition onTrue onFalse =>
      have hcondition := hoperand condition (by simp [StatementKind.children]) depth
      have htrue := hnested onTrue (by simp [StatementKind.children]) (depth + 1)
      have hfalse : ∀ body ∈ onFalse, c.LaysTree (nested (depth + 1)) body := fun body hbody =>
        hnested body (by simpa [StatementKind.children] using .inr (.inr hbody)) (depth + 1)
      have hlays := lays_branch hcondition htrue hfalse hl hl' hgives
      exact hlays.mono (List.sublist_cons_self id l).subperm
  | whileTrue condition body =>
      have hcondition := hoperand condition (by simp [StatementKind.children]) (depth + 1)
      have hbody := hnested body (by simp [StatementKind.children]) (depth + 1)
      exact (lays_while hcondition hbody hl hl' hgives).mono List.nil_subperm
  | repeatTimes count body =>
      have hcount := hoperand count (by simp [StatementKind.children]) depth
      have hbody := hnested body (by simp [StatementKind.children]) (depth + 1)
      exact lays_repeat h hid hread hcount hbody hl hnodup hgives
  | compound locals body =>
      have hlocals := hslots locals (by simp [StatementKind.children])
      have hbody := hnested body (by simp [StatementKind.children]) (depth + 1)
      exact (lays_compound h hlocals hbody hl hl' hgives).mono List.nil_subperm
  | breakLoop | continueLoop =>
      obtain rfl := gives_line.mp hgives
      exact (Lays.line rfl rfl).mono (List.nil_subperm)
  | returnValue value =>
      cases value with
      | none =>
          obtain rfl := gives_line.mp hgives
          exact (Lays.line rfl rfl).mono (List.nil_subperm)
      | some x =>
          obtain ⟨a, l₁, l₂, ha, hline, rfl⟩ := gives_bind.mp hgives
          obtain rfl := gives_line.mp hline
          have hx := hoperand x (by simp [StatementKind.children]) depth l l₁ a hl ha
          have hreturn : c.Lays c.Temporary [] [⟨depth, .returnValue (some a)⟩] := Lays.line rfl rfl
          have hlays := hx.append hreturn
          rw [List.append_nil] at hlays
          exact hlays.mono (List.sublist_cons_self id l).subperm
  | builtin call =>
      have hlays := lays_builtinCall (l := []) (fun x hx => hoperand x hx depth) hl
        (fun _ _ => Lays.line rfl rfl) hgives
      rw [List.append_nil] at hlays
      exact hlays.mono (List.sublist_cons_self id l).subperm
  | call args =>
      have hargs : args ∈ nodes := hslots args (by simp [StatementKind.children])
      have hsub := h.covers.subset_of_preOrder hl (by simpa [StatementKind.children] using hargs)
      have hlays := lays_userCall (l := []) (fun entry hentry =>
        lays_operand h (hsub (PreOrder.value_mem_of_entry hl hentry))) hl
        (fun _ _ _ _ _ => Lays.line rfl rfl) hgives
      rw [List.append_nil] at hlays
      exact hlays.mono (List.sublist_cons_self id l).subperm

end

/-- The code of a chain of statements binds names for distinct nodes of its tree. -/
theorem lays_statements (h : c.Plain nodes) (hid : id ∈ nodes) :
    c.LaysTree (c.statements depth) id := by
  refine (h.covers.tree id hid).induction
    (motive := fun id => id ∈ nodes → ∀ depth, c.LaysTree (c.statements depth) id) ?_ hid depth
  intro id below hbelow hnodup ih hid depth l ls u hl hgives
  obtain rfl := hl.unique hbelow
  rw [statements_eq ⟨_, hl, hnodup⟩] at hgives
  obtain ⟨o, ho, hcode⟩ := gives_lift_bind.mp hgives
  cases o with
  | none =>
      obtain ⟨_, rfl⟩ := gives_pure.mp hcode
      exact .nil c _ _
  | some s =>
      obtain ⟨hslots, hnext, hnodes⟩ := h.covers.statement_mem hid hl ho
      obtain ⟨n, hn, hkind⟩ := Graph.statement_eq_some_iff.mp ho
      obtain ⟨below', htrees, hcons⟩ := hl.slots hn
      obtain rfl := (List.cons.inj hcons).2
      rw [hkind] at htrees
      obtain ⟨lslots, lnext, hlslots, hlnext, rfl⟩ := PreOrder.exists_of_append htrees
      obtain ⟨_, l₁, l₂, hstatement, hrest, rfl⟩ := gives_bind.mp hcode
      have hfirst : c.Lays c.Temporary (id :: lslots) l₁ := by
        refine lays_statement h hid ho hlslots ?_ (fun x hx => (hslots x hx).2) (fun x hx => ?_)
          hstatement
        · exact hnodup.sublist ((List.sublist_append_left lslots lnext).cons_cons id)
        · exact ih x (hslots x hx).1 (hslots x hx).2
      exact hfirst.append (ih s.next hnext hnodes depth lnext l₂ u hlnext hrest)

end Emission.Context

end BlockScript
