import BlockScript.Graph.Construction
import BlockScript.Proofs.Graph.Chain
/-!
# Graphs built by helpers

Each helper that builds a part of a graph appends nodes, whose slots and referents name nodes that
stand before them.  `Build.Keeps` says so of an operation and the ids given to it, with one rule for
adding a node and one for sequences; it holds of every helper (`Helper.keeps`) and so of every run of
helpers that are given ids handed out before (`Builds.grows`).  The chain that `Build.arguments` adds
holds its values in order (`Builds.arguments_eq`).

Ids are words, so they last for `UInt32.size` nodes.  After that a helper may change the referent or
the state of an earlier node, and only the kinds of the nodes stay (`Graph.KeepsKinds`).
-/

namespace BlockScript

structure Node.Below (n : Node) (position : Nat) : Prop where
  children : ∀ c ∈ n.kind.children, c.index < position
  referent : ∀ r ∈ n.referent, r.index < position

namespace Graph

/-- The slots and the referent of each node name nodes before it. -/
def Descends (g : Graph) : Prop :=
  ∀ i (n : Node), g.nodes[i]? = some n → n.Below i

theorem descends_empty : empty.Descends := by
  intro i n h
  simp [empty] at h

/-- The second graph has the nodes of the first at its front. -/
def Extends (g g' : Graph) : Prop :=
  g.nodes.toList <+: g'.nodes.toList

theorem Extends.refl (g : Graph) : g.Extends g := List.prefix_rfl

theorem Extends.trans {g g' g'' : Graph} (h : g.Extends g') (h' : g'.Extends g'') : g.Extends g'' :=
  List.IsPrefix.trans h h'

def kinds (g : Graph) : List NodeKind :=
  g.nodes.toList.map Node.kind

theorem length_kinds (g : Graph) : g.kinds.length = g.size := by
  simp [kinds, size]

theorem kinds_adjust (g : Graph) (id : NodeId) {change : Node → Node}
    (h : ∀ n, (change n).kind = n.kind) : (g.adjust id change).kinds = g.kinds := by
  refine List.ext_getElem? fun i => ?_
  simp only [kinds, adjust, List.getElem?_map, Array.getElem?_toList, Array.getElem?_modify]
  split
  · cases g.nodes[i]? <;> simp [h]
  · rfl

/-- The second graph has nodes of the kinds of the first at its front. -/
def KeepsKinds (g g' : Graph) : Prop :=
  g.kinds <+: g'.kinds

theorem Extends.keepsKinds {g g' : Graph} (h : g.Extends g') : g.KeepsKinds g' :=
  List.IsPrefix.map Node.kind h

namespace KeepsKinds

variable {g g' g'' : Graph}

theorem refl (g : Graph) : g.KeepsKinds g := List.prefix_rfl

theorem trans (h : g.KeepsKinds g') (h' : g'.KeepsKinds g'') : g.KeepsKinds g'' :=
  List.IsPrefix.trans h h'

theorem size_le (h : g.KeepsKinds g') : g.size ≤ g'.size := by
  rw [← length_kinds, ← length_kinds]
  exact List.IsPrefix.length_le h

theorem exists_node (h : g.KeepsKinds g') {id : NodeId} {n : Node} (hn : g.node? id = some n) :
    ∃ n', g'.node? id = some n' ∧ n'.kind = n.kind := by
  obtain ⟨added, hadded⟩ := h
  have hkind : g.kinds[id.index]? = some n.kind := by
    rw [kinds, List.getElem?_map, Array.getElem?_toList]
    exact congrArg (Option.map Node.kind) hn
  have hkind' : g'.kinds[id.index]? = some n.kind := by
    rw [← hadded, List.getElem?_append_left (List.getElem?_eq_some_iff.mp hkind).1, hkind]
  rw [kinds, List.getElem?_map, Array.getElem?_toList] at hkind'
  exact Option.map_eq_some_iff.mp hkind'

theorem chained (h : g.KeepsKinds g') {id : NodeId} {entries : List (NodeId × Argument)}
    (hchain : Chained g.argument Argument.next id entries) :
    Chained g'.argument Argument.next id entries := by
  induction hchain with
  | nil hread =>
      obtain ⟨n, hn, hkind⟩ := argument_eq_none_iff.mp hread
      obtain ⟨n', hn', hsame⟩ := h.exists_node hn
      exact .nil (argument_eq_none_iff.mpr ⟨n', hn', hsame.trans hkind⟩)
  | cons hread _ ih =>
      obtain ⟨n, hn, hkind⟩ := argument_eq_some_iff.mp hread
      obtain ⟨n', hn', hsame⟩ := h.exists_node hn
      exact .cons (argument_eq_some_iff.mpr ⟨n', hn', hsame.trans hkind⟩) ih

end KeepsKinds

end Graph

/-- More steps than entries are enough to follow a chain to its end. -/
theorem Chained.follow_of_length_lt {α : Type} {read : NodeId → Except GraphFault (Option α)}
    {next : α → NodeId} {id : NodeId} {entries : List (NodeId × α)}
    (h : Chained read next id entries) {fuel : Nat} (hfuel : entries.length < fuel) :
    Chain.follow read next fuel id = ⟨entries, .ok ()⟩ := by
  induction h generalizing fuel with
  | nil hread =>
      obtain ⟨fuel, rfl⟩ : ∃ k, fuel = k + 1 := ⟨fuel - 1, by omega⟩
      simp only [Chain.follow, hread]
  | cons hread _ ih =>
      rw [List.length_cons] at hfuel
      obtain ⟨fuel, rfl⟩ : ∃ k, fuel = k + 1 := ⟨fuel - 1, by omega⟩
      have hrest := @ih fuel (by omega)
      simp only [Chain.follow, hread, hrest]

/-- What building keeps that starts from a graph with some ids given and comes to another with some
ids at hand.  The ids stay those of nodes; as long as ids last, nodes are only appended, and they
descend. -/
structure Grows (given : List NodeId) (g : Graph) (ids : List NodeId) (g' : Graph) : Prop where
  kinds : g.KeepsKinds g'
  index_lt : (∀ id ∈ given, id.index < g.size) → ∀ id ∈ ids, id.index < g'.size
  appends : g'.size ≤ UInt32.size → g.Extends g'
  descends : g.Descends → (∀ id ∈ given, id.index < g.size) → g'.size ≤ UInt32.size → g'.Descends

namespace Grows

variable {given given' ids ids' : List NodeId} {g g' g'' : Graph} {id : NodeId}

theorem refl (given : List NodeId) (g : Graph) : Grows given g given g :=
  ⟨.refl g, fun hgiven => hgiven, fun _ => .refl g, fun hg _ _ => hg⟩

theorem trans (h : Grows given g ids g') (h' : Grows ids g' ids' g'') :
    Grows given g ids' g'' where
  kinds := h.kinds.trans h'.kinds
  index_lt hgiven := h'.index_lt (h.index_lt hgiven)
  appends hsize := (h.appends (Nat.le_trans h'.kinds.size_le hsize)).trans (h'.appends hsize)
  descends hg hgiven hsize := by
    have hdescends := h.descends hg hgiven (Nat.le_trans h'.kinds.size_le hsize)
    exact h'.descends hdescends (h.index_lt hgiven) hsize

theorem subset (h : Grows given g ids g') (hsub : ids' ⊆ ids) : Grows given g ids' g' :=
  { h with index_lt := fun hgiven id hid => h.index_lt hgiven id (hsub hid) }

/-- More ids may be given; they stay at hand. -/
theorem weaken (h : Grows given g (id :: given) g') (hsub : given ⊆ given') :
    Grows given' g (id :: given') g' where
  kinds := h.kinds
  index_lt hgiven := by
    have hid := h.index_lt (fun x hx => hgiven x (hsub hx)) id List.mem_cons_self
    rw [List.forall_mem_cons]
    exact ⟨hid, fun x hx => Nat.lt_of_lt_of_le (hgiven x hx) h.kinds.size_le⟩
  appends := h.appends
  descends hg hgiven := h.descends hg fun x hx => hgiven x (hsub hx)

end Grows

namespace Build

variable {given : List NodeId} {b : Build NodeId}

/-- An operation that is given some ids of nodes and hands out one. -/
def Keeps (given : List NodeId) (b : Build NodeId) : Prop :=
  ∀ g : Graph, Grows given g ((b g).1 :: given) (b g).2

theorem keeps_pure {id : NodeId} (h : id ∈ given) : Keeps given (pure id) :=
  fun g => (Grows.refl given g).subset (List.cons_subset.mpr ⟨h, List.Subset.refl given⟩)

theorem Keeps.bind {f : NodeId → Build NodeId} (h : Keeps given b)
    (hf : ∀ id, Keeps (id :: given) (f id)) : Keeps given (b >>= f) := fun g =>
  ((h g).trans (hf (b g).1 (b g).2)).subset
    (List.cons_subset_cons _ (List.subset_cons_self _ _))

theorem extends_pushNode (n : Node) (g : Graph) : g.Extends (pushNode n g).2 :=
  ⟨[n], by simp [pushNode]⟩

/-- The id handed out for the next node is its position, or less where ids have come to their
end. -/
theorem index_ofNat_lt_succ (position : Nat) : (NodeId.ofNat position).index < position + 1 :=
  Nat.lt_succ_of_le (Nat.mod_le _ _)

theorem forall_index_lt_succ {g : Graph} (hgiven : ∀ id ∈ given, id.index < g.size) :
    ∀ id ∈ NodeId.ofNat g.size :: given, id.index < g.size + 1 := by
  rw [List.forall_mem_cons]
  exact ⟨index_ofNat_lt_succ g.size, fun id hid => Nat.lt_succ_of_lt (hgiven id hid)⟩

theorem keeps_pushNode {n : Node} (hchildren : n.kind.children ⊆ given)
    (hreferent : n.referent.toList ⊆ given) : Keeps given (pushNode n) := fun g =>
  { kinds := (extends_pushNode n g).keepsKinds
    index_lt := fun hgiven => by
      rw [size_pushNode]
      exact forall_index_lt_succ hgiven
    appends := fun _ => extends_pushNode n g
    descends := fun hg hgiven _ i m hm => by
      simp only [pushNode, Array.getElem?_push] at hm
      split at hm
      · obtain rfl := Option.some.inj hm
        subst i
        exact ⟨fun c hc => hgiven c (hchildren hc),
          fun r hr => hgiven r (hreferent (Option.mem_toList.mpr hr))⟩
      · exact hg i m hm }

/-- As long as ids last, the two steps are one. -/
theorem keeps_pushWith {kind : NodeKind} {change : Node → Node}
    (hkind : ∀ n, (change n).kind = n.kind) (hchildren : kind.children ⊆ given)
    (hreferent : (change (.ofKind kind)).referent.toList ⊆ given) :
    Keeps given (pushWith kind change) := by
  intro g
  have hnode : Keeps given (pushNode (change (.ofKind kind))) :=
    keeps_pushNode (by rw [hkind]; exact hchildren) hreferent
  have heq : (pushWith kind change g).2.size ≤ UInt32.size →
      pushWith kind change g = pushNode (change (.ofKind kind)) g := fun hsize => by
    rw [size_pushWith] at hsize
    exact pushWith_eq_pushNode hsize kind change
  refine ⟨?_, fun hgiven => ?_, fun hsize => ?_, fun hg hgiven hsize => ?_⟩
  · -- No kind is changed, whichever node the id names.
    have hkinds := Graph.kinds_adjust (push kind g).2 (push kind g).1 hkind
    change g.kinds <+: ((push kind g).2.adjust (push kind g).1 change).kinds
    rw [hkinds]
    exact (extends_pushNode _ g).keepsKinds
  · rw [size_pushWith]
    exact forall_index_lt_succ hgiven
  · rw [heq hsize]
    exact extends_pushNode _ g
  · have hsame := heq hsize
    rw [hsame] at hsize ⊢
    exact (hnode g).descends hg hgiven hsize

theorem keeps_push {kind : NodeKind} (h : kind.children ⊆ given) : Keeps given (push kind) :=
  keeps_pushNode h (List.nil_subset given)

theorem keeps_pushRoot {kind : NodeKind} (h : kind.children ⊆ given) :
    Keeps given (pushRoot kind) :=
  keeps_pushWith (fun _ => rfl) h (List.nil_subset given)

theorem keeps_pushReference {kind : NodeKind} {referent : NodeId} (h : kind.children ⊆ given)
    (hreferent : referent ∈ given) : Keeps given (pushReference kind referent) :=
  keeps_pushWith (fun _ => rfl) h (by simpa using hreferent)

theorem keeps_statementEnd (given : List NodeId) : Keeps given statementEnd :=
  keeps_push (List.nil_subset given)

theorem keeps_statement {kind : StatementKind} (h : kind.children ⊆ given) :
    Keeps given (statement kind) := by
  refine (keeps_statementEnd given).bind fun next => keeps_push ?_
  intro c hc
  rcases List.mem_append.mp hc with hc | hc
  · exact List.mem_cons_of_mem _ (h hc)
  · exact List.mem_singleton.mp hc ▸ List.mem_cons_self

theorem keeps_argumentsBefore {next : NodeId} {values : List NodeId} (hnext : next ∈ given)
    (h : values ⊆ given) : Keeps given (argumentsBefore next values) := by
  induction values with
  | nil => exact keeps_pure hnext
  | cons value values ih =>
      rw [List.cons_subset] at h
      refine (ih h.2).bind fun rest => keeps_push ?_
      simp [NodeKind.children, h.1]

theorem keeps_arguments {values : List NodeId} (h : values ⊆ given) :
    Keeps given (arguments values) := by
  have hend : Keeps given (push .argumentEnd) := keeps_push (List.nil_subset given)
  refine hend.bind fun last => keeps_argumentsBefore List.mem_cons_self ?_
  exact fun value hvalue => List.mem_cons_of_mem _ (h hvalue)

theorem keeps_callStatement {definition : NodeId} {args : List NodeId} (h : args ⊆ given)
    (hdefinition : definition ∈ given) : Keeps given (callStatement definition args) := by
  refine (keeps_arguments h).bind fun head => (keeps_statementEnd _).bind fun next => ?_
  refine keeps_pushReference ?_ ?_
  · simp [NodeKind.children, StatementKind.children]
  · simp [hdefinition]

theorem keeps_declaration (type : VarType) (name : String) :
    Keeps given (declaration type name) := by
  have hend : Keeps given (push .declarationEnd) := keeps_push (List.nil_subset given)
  refine hend.bind fun next => keeps_push ?_
  simp [NodeKind.children]

theorem keeps_call {definition : NodeId} {args : List NodeId} (h : args ⊆ given)
    (hdefinition : definition ∈ given) : Keeps given (call definition args) := by
  refine (keeps_arguments h).bind fun head => keeps_pushReference ?_ ?_
  · simp [NodeKind.children, Expression.children]
  · simp [hdefinition]

/-! ## Chains of arguments -/

/-- The argument of a value is added when the arguments of the values behind it stand. -/
theorem argumentsBefore_cons (next value : NodeId) (values : List NodeId) (g : Graph) :
    argumentsBefore next (value :: values) g =
      pushNode (.ofKind (.argument ⟨value, (argumentsBefore next values g).1⟩))
        (argumentsBefore next values g).2 :=
  rfl

theorem size_argumentsBefore (next : NodeId) (values : List NodeId) (g : Graph) :
    (argumentsBefore next values g).2.size = g.size + values.length := by
  induction values with
  | nil => rfl
  | cons value values ih =>
      rw [argumentsBefore_cons, size_pushNode, ih, List.length_cons, Nat.add_assoc]

/-- Arguments added before the end of a chain hold their values in order, as long as ids last. -/
theorem chained_argumentsBefore {g : Graph} {next : NodeId} (hnext : g.argument next = .ok none)
    (values : List NodeId) (hsize : g.size + values.length ≤ UInt32.size) :
    ∃ entries, Chained (argumentsBefore next values g).2.argument Argument.next
        (argumentsBefore next values g).1 entries ∧
      entries.map (fun entry => entry.2.value) = values := by
  induction values with
  | nil => exact ⟨[], .nil hnext, rfl⟩
  | cons value values ih =>
      rw [List.length_cons] at hsize
      obtain ⟨entries, hchain, hvalues⟩ := ih (by omega)
      have hlength := size_argumentsBefore next values g
      rw [argumentsBefore_cons]
      generalize argumentsBefore next values g = rest at hchain hlength
      have hnew := node?_pushNode (g := rest.2) (by omega) (.ofKind (.argument ⟨value, rest.1⟩))
      have hread := Graph.argument_eq_some_iff.mpr ⟨_, hnew, rfl⟩
      refine ⟨_, .cons hread ((extends_pushNode _ rest.2).keepsKinds.chained hchain), ?_⟩
      rw [List.map_cons, hvalues]

theorem chained_arguments (values : List NodeId) {g : Graph}
    (hsize : (arguments values g).2.size ≤ UInt32.size) :
    ∃ entries, Chained (arguments values g).2.argument Argument.next (arguments values g).1
        entries ∧ entries.map (fun entry => entry.2.value) = values ∧
      entries.length < (arguments values g).2.size := by
  have hlength : (arguments values g).2.size = g.size + 1 + values.length := by
    have hfirst : (push .argumentEnd g).2.size = g.size + 1 := size_pushNode _ g
    rw [← hfirst]
    exact size_argumentsBefore _ values _
  have hnew := node?_pushNode (g := g) (by omega) (.ofKind .argumentEnd)
  have hend := Graph.argument_eq_none_iff.mpr ⟨_, hnew, rfl⟩
  obtain ⟨entries, hchain, hvalues⟩ := chained_argumentsBefore hend values (by
    rw [size_pushNode]
    omega)
  refine ⟨entries, hchain, hvalues, ?_⟩
  have hentries := congrArg List.length hvalues
  rw [List.length_map] at hentries
  omega

end Build

/-! ## Runs of helpers -/

inductive Helper where
  | statementEnd
  | statement (kind : StatementKind)
  | callStatement (definition : NodeId) (args : List NodeId)
  | declaration (type : VarType) (name : String)
  | arguments (values : List NodeId)
  | expression (e : Expression)
  | variableAt (declaration : NodeId)
  | number (text : String)
  | text (text : String)
  | bool (b : Bool)
  | binary (op : BinaryOp) (left right : NodeId)
  | unary (op : UnaryOp) (operand : NodeId)
  | builtin (func : Builtin) (choice : Option Choice) (args : List NodeId)
  | builtinStatement (func : Builtin) (choice : Option Choice) (args : List NodeId)
  | call (definition : NodeId) (args : List NodeId)
  | definition (name : String) (params body : NodeId) (returns : Option VarType)
  | handler (trigger : Trigger) (body : NodeId)

namespace Helper

def run : Helper → Build NodeId
  | statementEnd => Build.statementEnd
  | statement kind => Build.statement kind
  | callStatement function args => Build.callStatement function args
  | declaration type name => Build.declaration type name
  | arguments values => Build.arguments values
  | expression e => Build.expression e
  | variableAt target => Build.variableAt target
  | number s => Build.number s
  | text s => Build.text s
  | bool b => Build.bool b
  | binary op left right => Build.binary op left right
  | unary op operand => Build.unary op operand
  | builtin func choice args => Build.builtin func choice args
  | builtinStatement func choice args => Build.builtinStatement func choice args
  | call function args => Build.call function args
  | definition name params body returns => Build.definition name params body returns
  | handler trigger body => Build.handler trigger body

def given : Helper → List NodeId
  | statementEnd | declaration _ _ | number _ | text _ | bool _ => []
  | statement kind => kind.children
  | callStatement function args | call function args => function :: args
  | arguments values => values
  | expression e => e.children
  | variableAt target => [target]
  | binary _ left right => [left, right]
  | unary _ operand => [operand]
  | builtin _ _ args | builtinStatement _ _ args => args
  | definition _ params body _ => [params, body]
  | handler _ body => [body]

theorem keeps (helper : Helper) : Build.Keeps helper.given helper.run := by
  cases helper with
  | statementEnd => exact Build.keeps_statementEnd _
  | statement kind => exact Build.keeps_statement (List.Subset.refl _)
  | callStatement function args =>
      exact Build.keeps_callStatement (List.subset_cons_self _ _) List.mem_cons_self
  | declaration type name => exact Build.keeps_declaration type name
  | arguments values => exact Build.keeps_arguments (List.Subset.refl _)
  | call function args =>
      exact Build.keeps_call (List.subset_cons_self _ _) List.mem_cons_self
  | variableAt target =>
      exact Build.keeps_pushReference (List.nil_subset _) List.mem_cons_self
  | builtinStatement func choice args => exact Build.keeps_statement (List.Subset.refl _)
  | expression _ | number _ | text _ | bool _ | binary _ _ _ | unary _ _ | builtin _ _ _ =>
      exact Build.keeps_push (List.Subset.refl _)
  | definition _ _ _ _ | handler _ _ => exact Build.keeps_pushRoot (List.Subset.refl _)

end Helper

/-- A run of helpers from a graph in which some ids were handed out: each helper is given ids handed
out before it. -/
inductive Builds (ids : List NodeId) (g : Graph) : List NodeId → Graph → Prop where
  | refl : Builds ids g ids g
  | step {ids' : List NodeId} {g' : Graph} (h : Builds ids g ids' g') (helper : Helper)
      (hgiven : helper.given ⊆ ids') :
      Builds ids g ((helper.run g').1 :: ids') (helper.run g').2

namespace Builds

variable {ids ids' : List NodeId} {g g' : Graph}

theorem grows (h : Builds ids g ids' g') : Grows ids g ids' g' := by
  induction h with
  | refl => exact .refl ids g
  | step _ helper hgiven ih => exact ih.trans ((helper.keeps _).weaken hgiven)

/-- However the building goes on, a walk from what `Build.arguments` handed out passes the values
in order and comes to the end of the chain. -/
theorem arguments_eq {values : List NodeId}
    (hsize : (Build.arguments values g).2.size ≤ UInt32.size)
    (h : Builds ((Build.arguments values g).1 :: ids) (Build.arguments values g).2 ids' g') :
    (g'.arguments (Build.arguments values g).1).entries.map (fun entry => entry.2.value) = values ∧
      (g'.arguments (Build.arguments values g).1).ending = .ok () := by
  obtain ⟨entries, hchain, hentries, hlength⟩ := Build.chained_arguments values hsize
  have hkinds := h.grows.kinds
  have hbudget : entries.length < g'.budget := by
    have hle := hkinds.size_le
    unfold Graph.budget
    omega
  rw [Graph.arguments, (hkinds.chained hchain).follow_of_length_lt hbudget]
  exact ⟨hentries, rfl⟩

end Builds

end BlockScript
