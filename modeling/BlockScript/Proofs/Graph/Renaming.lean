import BlockScript.Proofs.Graph.Chain
import BlockScript.Proofs.Graph.Referent
import BlockScript.Proofs.Numbering.Walk
/-!
# Graphs of one shape

`Renames φ g g' P`: on the nodes `P`, which are closed under slots and referents, the graph `g'` has
at `φ id` the node that `g` has at `id`, with `φ` applied to every id in it.  Trees, referents,
traversals and chains are then mapped by `φ`.  States are not compared.
-/

namespace BlockScript

/-! ## Ids replaced -/

section

variable (φ : NodeId → NodeId)

def Literal.map : Literal → Literal
  | .tone frequency duration => .tone (φ frequency) (φ duration)
  | l => l

def BuiltinCall.map (call : BuiltinCall) : BuiltinCall :=
  { call with args := call.args.map φ }

def Declaration.map (d : Declaration) : Declaration :=
  { d with next := φ d.next }

def StatementKind.map : StatementKind → StatementKind
  | assign target value => .assign (φ target) (φ value)
  | addAssign target value => .addAssign (φ target) (φ value)
  | branch condition onTrue onFalse => .branch (φ condition) (φ onTrue) (onFalse.map φ)
  | whileTrue condition body => .whileTrue (φ condition) (φ body)
  | repeatTimes count body => .repeatTimes (φ count) (φ body)
  | compound locals body => .compound (φ locals) (φ body)
  | breakLoop => .breakLoop
  | continueLoop => .continueLoop
  | returnValue value => .returnValue (value.map φ)
  | builtin c => .builtin (c.map φ)
  | call args => .call (φ args)

def Statement.map (s : Statement) : Statement :=
  ⟨s.kind.map φ, φ s.next⟩

def Expression.map : Expression → Expression
  | binary op left right => .binary op (φ left) (φ right)
  | unary op operand => .unary op (φ operand)
  | read => .read
  | literal l => .literal (l.map φ)
  | builtin c => .builtin (c.map φ)
  | call args => .call (φ args)

def Argument.map (a : Argument) : Argument :=
  ⟨φ a.value, φ a.next⟩

def Definition.map (d : Definition) : Definition :=
  { d with params := φ d.params, body := φ d.body }

def Handler.map (h : Handler) : Handler :=
  { h with body := φ h.body }

def NodeKind.map : NodeKind → NodeKind
  | declaration d => .declaration (d.map φ)
  | declarationEnd => .declarationEnd
  | statement s => .statement (s.map φ)
  | statementEnd => .statementEnd
  | expression e => .expression (e.map φ)
  | argument a => .argument (a.map φ)
  | argumentEnd => .argumentEnd
  | definition d => .definition (d.map φ)
  | handler h => .handler (h.map φ)

theorem StatementKind.children_map (s : StatementKind) :
    (s.map φ).children = s.children.map φ := by
  cases s with
  | branch condition onTrue onFalse => cases onFalse <;> rfl
  | returnValue value => cases value <;> rfl
  | _ => rfl

theorem Expression.children_map (e : Expression) : (e.map φ).children = e.children.map φ := by
  cases e with
  | literal l => cases l <;> rfl
  | _ => rfl

theorem NodeKind.children_map (k : NodeKind) : (k.map φ).children = k.children.map φ := by
  cases k with
  | statement s =>
      show (s.kind.map φ).children ++ [φ s.next] = _
      rw [StatementKind.children_map]
      simp [children]
  | expression e => exact e.children_map φ
  | _ => rfl

end

namespace Graph

inductive Reached (g : Graph) (starts : List NodeId) : NodeId → Prop where
  | start {id : NodeId} (h : id ∈ starts) : Reached g starts id
  | slot {id x : NodeId} {n : Node} (h : Reached g starts id) (hn : g.node? id = some n)
      (hx : x ∈ n.kind.children) : Reached g starts x
  | referent {id next : NodeId} {n : Node} (h : Reached g starts id) (hn : g.node? id = some n)
      (hr : n.referent = some next) : Reached g starts next

/-- What is reached in one graph has the same shape in another, under other ids. -/
structure Renames (φ : NodeId → NodeId) (g g' : Graph) (starts : List NodeId) : Prop where
  injective : ∀ a b, Reached g starts a → Reached g starts b → φ a = φ b → a = b
  node : ∀ id n, Reached g starts id → g.node? id = some n →
    ∃ n', g'.node? (φ id) = some n' ∧ n'.kind = n.kind.map φ ∧ n'.referent = n.referent.map φ

namespace Renames

variable {φ : NodeId → NodeId} {g g' : Graph} {starts ids l met roots all : List NodeId}
variable {id last : NodeId} (h : Renames φ g g' starts)
include h

theorem mem_map_iff (hid : Reached g starts id) (hids : ∀ x ∈ ids, Reached g starts x) :
    φ id ∈ ids.map φ ↔ id ∈ ids := by
  constructor
  · intro hmem
    obtain ⟨x, hx, heq⟩ := List.mem_map.mp hmem
    exact h.injective x id (hids x hx) hid heq ▸ hx
  · exact List.mem_map_of_mem

theorem nodup_map (hl : l.Nodup) (hreached : ∀ x ∈ l, Reached g starts x) : (l.map φ).Nodup :=
  hl.map_on fun x hx y hy => h.injective x y (hreached x hx) (hreached y hy)

theorem preOrder (hl : PreOrder g ids l) (hids : ∀ x ∈ ids, Reached g starts x) :
    PreOrder g' (ids.map φ) (l.map φ) ∧ ∀ x ∈ l, Reached g starts x := by
  induction hl with
  | nil => exact ⟨.nil, by simp⟩
  | @cons id n ids below beside hn _ _ ihbelow ihbeside =>
      rw [List.forall_mem_cons] at hids
      obtain ⟨n', hn', hkind, _⟩ := h.node id n hids.1 hn
      obtain ⟨hbelow, hreached⟩ := ihbelow fun x hx => .slot hids.1 hn hx
      obtain ⟨hbeside, hreached'⟩ := ihbeside hids.2
      rw [← NodeKind.children_map, ← hkind] at hbelow
      constructor
      · have hcons := PreOrder.cons hn' hbelow hbeside
        simpa using hcons
      · intro x hx
        simp only [List.mem_cons, List.mem_append] at hx
        rcases hx with rfl | hx | hx
        · exact hids.1
        · exact hreached x hx
        · exact hreached' x hx

theorem leadsTo (hlast : LeadsTo g id last) (hid : Reached g starts id) :
    LeadsTo g' (φ id) (φ last) ∧ Reached g starts last := by
  induction hlast with
  | last hn hr =>
      obtain ⟨n', hn', _, hreferent⟩ := h.node _ _ hid hn
      exact ⟨.last hn' (by rw [hreferent, hr]; rfl), hid⟩
  | step hn hr _ ih =>
      obtain ⟨n', hn', _, hreferent⟩ := h.node _ _ hid hn
      obtain ⟨hnext, hreached⟩ := ih (.referent hid hn hr)
      exact ⟨.step hn' (by rw [hreferent, hr]; rfl) hnext, hreached⟩

theorem traversal (hall : Traversal g met roots all) (hmet : ∀ x ∈ met, Reached g starts x)
    (hroots : ∀ x ∈ roots, Reached g starts x) :
    Traversal g' (met.map φ) (roots.map φ) (all.map φ) ∧ ∀ x ∈ all, Reached g starts x := by
  induction hall with
  | nil => exact ⟨.nil, hmet⟩
  | skip hmem _ ih =>
      rw [List.forall_mem_cons] at hroots
      obtain ⟨hrest, hreached⟩ := ih hmet hroots.2
      exact ⟨.skip (List.mem_map_of_mem hmem) hrest, hreached⟩
  | @tree met roots all l root hmem htree hnodup _ ih =>
      rw [List.forall_mem_cons] at hroots
      obtain ⟨htree', hl⟩ := h.preOrder htree (by simpa using hroots.1)
      have hmet' : ∀ x ∈ met ++ l, Reached g starts x := by
        intro x hx
        rcases List.mem_append.mp hx with hx | hx
        · exact hmet x hx
        · exact hl x hx
      obtain ⟨hrest, hreached⟩ := ih hmet' hroots.2
      have hnodup' := h.nodup_map hnodup hmet'
      rw [List.map_append] at hrest hnodup'
      have hfresh : φ root ∉ met.map φ := fun hin => hmem ((h.mem_map_iff hroots.1 hmet).mp hin)
      exact ⟨.tree hfresh htree' hnodup' hrest, hreached⟩

end Renames

/-! ## Slots and chains -/

def SameKind (φ : NodeId → NodeId) (g g' : Graph) (id : NodeId) : Prop :=
  ∀ n, g.node? id = some n → ∃ n', g'.node? (φ id) = some n' ∧ n'.kind = n.kind.map φ

namespace SameKind

variable {φ : NodeId → NodeId} {g g' : Graph} {id : NodeId} (h : SameKind φ g g' id)
include h

theorem contents {α : Type} {F : α → α} {expected : NodeSort} {ofKind : NodeKind → Option α}
    {a : α} (hF : ∀ k, ofKind (NodeKind.map φ k) = (ofKind k).map F)
    (ha : g.contents id expected ofKind = .ok a) :
    g'.contents (φ id) expected ofKind = .ok (F a) := by
  obtain ⟨n, hn, hkind⟩ := contents_eq_ok_iff.mp ha
  obtain ⟨n', hn', hkind'⟩ := h n hn
  exact contents_eq_ok_iff.mpr ⟨n', hn', by rw [hkind', hF, hkind]; rfl⟩

theorem statement {o : Option Statement} (ho : g.statement id = .ok o) :
    g'.statement (φ id) = .ok (o.map (Statement.map φ)) :=
  h.contents (fun k => by cases k <;> rfl) ho

theorem expression {e : Expression} (he : g.expression id = .ok e) :
    g'.expression (φ id) = .ok (e.map φ) :=
  h.contents (fun k => by cases k <;> rfl) he

theorem declaration {o : Option Declaration} (ho : g.declaration id = .ok o) :
    g'.declaration (φ id) = .ok (o.map (Declaration.map φ)) :=
  h.contents (fun k => by cases k <;> rfl) ho

theorem argument {o : Option Argument} (ho : g.argument id = .ok o) :
    g'.argument (φ id) = .ok (o.map (Argument.map φ)) :=
  h.contents (fun k => by cases k <;> rfl) ho

theorem definition {d : Definition} (hd : g.definition id = .ok d) :
    g'.definition (φ id) = .ok (d.map φ) :=
  h.contents (fun k => by cases k <;> rfl) hd

end SameKind

end Graph

/-- A chain under other ids.  `F` replaces the ids in an entry. -/
theorem Chained.map {α : Type} {read read' : NodeId → Except GraphFault (Option α)}
    {next : α → NodeId} {φ : NodeId → NodeId} {F : α → α} {nodes : List NodeId} {id : NodeId}
    {entries : List (NodeId × α)} (h : Chained read next id entries) (hid : id ∈ nodes)
    (hclosed : ∀ x ∈ nodes, ∀ a, read x = .ok (some a) → next a ∈ nodes)
    (hread : ∀ x ∈ nodes, ∀ o, read x = .ok o → read' (φ x) = .ok (o.map F))
    (hnext : ∀ a, next (F a) = φ (next a)) :
    Chained read' next (φ id) (entries.map fun entry => (φ entry.1, F entry.2)) := by
  induction h with
  | nil hend => exact .nil (hread _ hid _ hend)
  | cons hentry _ ih =>
      refine .cons (hread _ hid _ hentry) ?_
      rw [hnext]
      exact ih (hclosed _ hid _ hentry)

end BlockScript
