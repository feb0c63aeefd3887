import BlockScript.Proofs.Graph.PostOrder
import BlockScript.Proofs.Numbering.Names
/-!
# How expressions are evaluated

The code of an expression binds one temporary for each node of its tree that computes something, in
post-order and at one depth (`Evaluates`).  Every operand in a line is a constant, a variable of the
user's or a temporary that a line before it binds (`Scoped`), so no operator meets another inside
one line.  This holds of every expression's code in a program with a numbering
(`evaluates_of_ofProgram`).
-/

namespace BlockScript

/-! ## Operands in lines -/

namespace Script

/-- The written forms of values that need no evaluation. -/
inductive IsAtom : String → Prop where
  | var (n : Nat) : IsAtom ("_v" ++ toString n)
  | number (x : Binary64) : IsAtom (String.ofList x.plain)
  | literal (s : List Char) : IsAtom (String.ofList (Text.Quoted.encode s))
  | true : IsAtom "true"
  | false : IsAtom "false"
  | emptyList : IsAtom "[]"
  | silence : IsAtom "_nilSound"

def Value.operands : Value → List Operand
  | binary _ left right => [left, right]
  | unary _ operand => [operand]
  | call c => c.args

/-- What a line uses: its operands and the names in it, apart from a name that it binds. -/
def Code.uses : Code → List Operand
  | declare _ initial _ => [initial]
  | bind _ value => value.operands
  | bindLimit _ count => [count]
  | assign n value => [.name (.var n), value]
  | addAssign n value => [.name (.var n), value]
  | perform c => c.args
  | ifNotFinite n => [.name (.var n)]
  | ifUndefined n => [.name (.var n)]
  | returnValue value => value.toList
  | unlock n => [.name (.lock n)]
  | register n _ => [.name (.func n)]
  | openIf condition => [condition]
  | openUnless condition => [condition]
  | openRepeat n => [.name (.limit n)]
  | openTryLock n => [.name (.lock n)]
  | _ => []

def Line.isLet (l : Line) : Bool :=
  "let ".toList.isPrefixOf l.code.render.toList

theorem prefix_concat {start : List Char} {a : String} (h : start <+: a.toList) (b : String) :
    start <+: (a ++ b).toList := by
  rw [String.toList_append]
  exact h.trans (List.prefix_append _ _)

theorem isLet_of_prefix {l : Line} {x : Char} (h : [x] <+: l.code.render.toList) (hx : x ≠ 'l') :
    l.isLet = false := by
  rw [← Bool.not_eq_true, Line.isLet, List.isPrefixOf_iff_prefix]
  rintro ⟨r, hr⟩
  obtain ⟨r', hr'⟩ := h
  rw [← hr] at hr'
  exact hx (List.cons.inj hr').1

theorem isLet_bind (depth n : Nat) (v : Value) : Line.isLet ⟨depth, .bind n v⟩ = true := by
  rw [Line.isLet, List.isPrefixOf_iff_prefix]
  exact prefix_concat (prefix_concat (prefix_concat (prefix_concat List.prefix_rfl _) _) _) _

theorem isLet_assign (depth n : Nat) (a : Operand) : Line.isLet ⟨depth, .assign n a⟩ = false := by
  have hname : ['_'] <+: (Name.var n).render.toList := prefix_concat ⟨['v'], rfl⟩ _
  exact isLet_of_prefix (prefix_concat (prefix_concat (prefix_concat hname _) _) _) (by decide)

theorem isLet_ifNotFinite (depth n : Nat) : Line.isLet ⟨depth, .ifNotFinite n⟩ = false := by
  have hif : ['i'] <+: "if (!isFinite(".toList := ⟨_, rfl⟩
  exact isLet_of_prefix (prefix_concat (prefix_concat hif _) _) (by decide)

theorem isLet_ifUndefined (depth n : Nat) : Line.isLet ⟨depth, .ifUndefined n⟩ = false := by
  have hif : ['i'] <+: "if (".toList := ⟨_, rfl⟩
  exact isLet_of_prefix (prefix_concat (prefix_concat hif _) _) (by decide)

theorem isLet_enterCall (depth n : Nat) : Line.isLet ⟨depth, .enterCall n⟩ = false := by
  have hpush : ['_'] <+: "_callStack.push(".toList := ⟨_, rfl⟩
  exact isLet_of_prefix (prefix_concat (prefix_concat hpush _) _) (by decide)

theorem isLet_leaveCall (depth : Nat) : Line.isLet ⟨depth, .leaveCall⟩ = false := by
  have hpop : ['_'] <+: "_callStack.pop();".toList := ⟨_, rfl⟩
  exact isLet_of_prefix hpop (by decide)

end Script

/-! ## Nodes that compute -/

/-- Operators, calls and sounds, whose values are computed. -/
def Expression.isComputed : Expression → Bool
  | binary _ _ _ => true
  | unary _ _ => true
  | literal (.tone _ _) => true
  | builtin _ => true
  | call _ => true
  | _ => false

def NodeKind.isComputed : NodeKind → Bool
  | expression e => e.isComputed
  | _ => false

def Graph.isComputed (g : Graph) (id : NodeId) : Bool :=
  (g.node? id).any fun n => n.kind.isComputed

theorem Graph.isComputed_eq {g : Graph} {id : NodeId} {n : Node} (h : g.node? id = some n) :
    g.isComputed id = n.kind.isComputed := by
  rw [isComputed, h, Option.any_some]

theorem Graph.isComputed_of_expression {g : Graph} {id : NodeId} {e : Expression}
    (h : g.expression id = .ok e) : g.isComputed id = e.isComputed := by
  obtain ⟨n, hn, hkind⟩ := Graph.expression_eq_ok_iff.mp h
  rw [isComputed_eq hn, hkind, NodeKind.isComputed]

def Literal.operand? : Literal → Option Script.Operand
  | number s => (Binary64.read? (Text.trim s.toList)).map .number
  | text s => some (.text s)
  | bool s => (boolOfText? s).map .bool
  | lineFeed => some .lineFeed
  | emptyList _ => some .emptyList
  | tone _ _ => none
  | silence => some .silence

theorem Literal.ne_name_of_operand? {l : Literal} {a : Script.Operand} (h : l.operand? = some a)
    (n : Script.Name) : a ≠ .name n := by
  rintro rfl
  cases l <;> simp [operand?] at h

theorem Builtin.ne_name_of_substitute? {func : Builtin} {value : Script.Operand}
    (h : func.substitute? = some value) (n : Script.Name) : value ≠ .name n := by
  have hinitial : ∀ elem : ElemType, elem.initial ≠ .name n := fun elem => by
    cases elem <;> exact fun h => nomatch h
  unfold substitute? at h
  split at h
  · exact Option.some.inj h ▸ hinitial _
  · exact Option.some.inj h ▸ hinitial _
  · cases h

namespace Emission.Context

open Script (Line Code Call Operand Value IsAtom)
open BlockScript.Graph (PostOrder)

variable {c : Context} {depth : Nat} {id : NodeId} {ids ids' post post' : List NodeId}
variable {ls ls' prior : List Line} {as as' : List Operand} {a : Operand}

/-! ## Scopes -/

/-- An operand that can be used after some lines: a constant, a variable that is declared somewhere,
or a temporary that one of the lines binds. -/
inductive Ready (c : Context) (prior : List Line) : Operand → Prop where
  | constant {a : Operand} (h : ∀ n, a ≠ .name n) : Ready c prior a
  | declared {id : NodeId} {d : Declaration} {n : Nat}
      (hd : c.graph.declaration id = .ok (some d)) (hn : c.numbering.serial id = .ok n) :
      Ready c prior (.name (.var n))
  | bound {depth n : Nat} {v : Value} (hl : ⟨depth, .bind n v⟩ ∈ prior) :
      Ready c prior (.name (.var n))

/-- Each line uses only what can be used after the lines before it. -/
def Scoped (c : Context) : List Line → List Line → Prop
  | _, [] => True
  | prior, l :: ls => (∀ a ∈ l.code.uses, c.Ready prior a) ∧ Scoped c (prior ++ [l]) ls

theorem Ready.mono {prior' : List Line} (h : c.Ready prior a) (hsub : prior ⊆ prior') :
    c.Ready prior' a := by
  cases h with
  | constant h => exact .constant h
  | declared hd hn => exact .declared hd hn
  | bound hl => exact .bound (hsub hl)

theorem Ready.isAtom (h : c.Ready prior a) : IsAtom a.render := by
  cases h with
  | declared _ _ => exact .var _
  | bound _ => exact .var _
  | constant h =>
      cases a with
      | name n => exact absurd rfl (h n)
      | number x => exact .number x
      | text s => exact .literal s.toList
      | lineFeed => exact .literal ['\n']
      | bool b =>
          cases b
          · exact .false
          · exact .true
      | emptyList => exact .emptyList
      | silence => exact .silence

theorem Scoped.mono {prior' : List Line} (h : c.Scoped prior ls) (hsub : prior ⊆ prior') :
    c.Scoped prior' ls := by
  induction ls generalizing prior prior' with
  | nil => trivial
  | cons l ls ih =>
      refine ⟨fun a ha => (h.1 a ha).mono hsub, ih h.2 ?_⟩
      exact List.append_subset.mpr ⟨List.Subset.trans hsub (List.subset_append_left _ _),
        List.subset_append_right _ _⟩

theorem Scoped.append (h : c.Scoped prior ls) (h' : c.Scoped (prior ++ ls) ls') :
    c.Scoped prior (ls ++ ls') := by
  induction ls generalizing prior with
  | nil => simpa using h'
  | cons l ls ih => exact ⟨h.1, ih h.2 (by simpa using h')⟩

/-! ## Lines of a node's own -/

/-- Lines that bind a value to a temporary, once, and use only the value's operands and the
temporary. -/
structure BindsOnce (c : Context) (depth t : Nat) (v : Value) (own : List Line) : Prop where
  lets : own.filter Line.isLet = [⟨depth, .bind t v⟩]
  inScope : ∀ prior, (∀ a ∈ v.operands, c.Ready prior a) → c.Scoped prior own

namespace BindsOnce

variable {t : Nat} {v : Value} {own : List Line}

theorem mem (h : c.BindsOnce depth t v own) : ⟨depth, .bind t v⟩ ∈ own := by
  have hfilter : (⟨depth, .bind t v⟩ : Line) ∈ own.filter Line.isLet := by simp [h.lets]
  exact (List.mem_filter.mp hfilter).1

theorem line (c : Context) (depth t : Nat) (v : Value) :
    c.BindsOnce depth t v [⟨depth, .bind t v⟩] := by
  refine ⟨?_, fun prior hargs => ⟨hargs, trivial⟩⟩
  rw [List.filter_singleton, Script.isLet_bind]
  rfl

theorem recorded (c : Context) (depth t n : Nat) (v : Value) :
    c.BindsOnce depth t v [⟨depth, .enterCall n⟩, ⟨depth, .bind t v⟩, ⟨depth, .leaveCall⟩] := by
  refine ⟨?_, fun prior hargs => ?_⟩
  · simp [Script.isLet_enterCall, Script.isLet_bind, Script.isLet_leaveCall]
  · have hbind : ∀ a ∈ v.operands, c.Ready (prior ++ [⟨depth, .enterCall n⟩]) a := fun a ha =>
      (hargs a ha).mono (List.subset_append_left _ _)
    exact ⟨List.forall_mem_nil _, hbind, List.forall_mem_nil _, trivial⟩

theorem replace {code : Script.Code} {value : Operand} (h : c.BindsOnce depth t v own)
    (hlet : Line.isLet ⟨depth, code⟩ = false) (huses : code.uses = [.name (.var t)])
    (hvalue : ∀ prior, (∀ a ∈ v.operands, c.Ready prior a) → c.Ready prior value) :
    c.BindsOnce depth t v (own ++ [⟨depth, code⟩, ⟨depth + 1, .assign t value⟩]) := by
  refine ⟨?_, fun prior hargs => (h.inScope prior hargs).append ?_⟩
  · rw [List.filter_append, h.lets]
    simp [hlet, Script.isLet_assign]
  · have hbound : ∀ later, c.Ready (prior ++ own ++ later) (.name (.var t)) := fun later =>
      .bound (List.mem_append_left _ (List.mem_append_right _ h.mem))
    refine ⟨?_, fun a ha => ?_, trivial⟩
    · rw [huses, List.forall_mem_singleton]
      simpa using hbound []
    · rcases List.mem_pair.mp ha with rfl | rfl
      · exact hbound _
      · refine (hvalue prior hargs).mono ?_
        rw [List.append_assoc]
        exact List.subset_append_left _ _

end BindsOnce

theorem bindsOnce_performCall {call : Call} {t : Nat} {u : Unit}
    (h : Gives (c.performCall depth id call (some t)) ls u) :
    c.BindsOnce depth t (.call call) ls := by
  obtain ⟨n, _, rfl⟩ := gives_performCall.mp h
  by_cases hdebug : c.options.isDebug
  · rw [if_pos hdebug, if_pos hdebug]
    exact .recorded c depth t n _
  · rw [if_neg hdebug, if_neg hdebug]
    exact .line c depth t _

/-! ## Evaluation -/

/-- The operand for a node's value: a constant, the variable of a use, or a temporary. -/
inductive Denotes (c : Context) (id : NodeId) : Operand → Prop where
  | constant {l : Literal} {a : Operand} (he : c.graph.expression id = .ok (.literal l))
      (ha : l.operand? = some a) : Denotes c id a
  | read {d : Declaration} {n : Nat} (he : c.graph.expression id = .ok .read)
      (hd : c.graph.declaration (c.numbering.bearer id) = .ok (some d))
      (hn : c.numbering.serial id = .ok n) : Denotes c id (.name (.var n))
  | temporary {n : Nat} (hid : c.graph.isComputed id = true)
      (hn : c.numbering.serial id = .ok n) : Denotes c id (.name (.var n))

/-- What a node computes from the operands for the nodes in its slots. -/
inductive Computes (c : Context) (id : NodeId) : Value → Prop where
  | binary {op : BinaryOp} {left right : NodeId} {a b : Operand}
      (he : c.graph.expression id = .ok (.binary op left right))
      (ha : c.Denotes left a) (hb : c.Denotes right b) : Computes c id (.binary op a b)
  | unary {op : UnaryOp} {right : NodeId} {a : Operand}
      (he : c.graph.expression id = .ok (.unary op right)) (ha : c.Denotes right a) :
      Computes c id (.unary op a)
  | tone {frequency duration : NodeId} {a b : Operand}
      (he : c.graph.expression id = .ok (.literal (.tone frequency duration)))
      (ha : c.Denotes frequency a) (hb : c.Denotes duration b) :
      Computes c id (.call ⟨.library "_createSound", [a, b]⟩)
  | builtin {call : BuiltinCall} {name : String} {args : List Operand}
      (he : c.graph.expression id = .ok (.builtin call))
      (hname : call.func.function? call.choice = some name)
      (hargs : List.Forall₂ c.Denotes call.args args) :
      Computes c id (.call ⟨.library name, args⟩)
  | call {head : NodeId} {n : Nat} {args : List Operand}
      (he : c.graph.expression id = .ok (.call head)) (hn : c.numbering.serial id = .ok n)
      (hargs : List.Forall₂ (fun entry a => c.Denotes entry.2.value a)
        (c.graph.arguments head).entries args) :
      Computes c id (.call ⟨.user n, args⟩)

/-- The line that binds a node's temporary to what the node computes. -/
inductive BindsValueOf (c : Context) (depth : Nat) (id : NodeId) : Line → Prop where
  | intro {n : Nat} {v : Value} (hn : c.numbering.serial id = .ok n) (hv : c.Computes id v) :
      BindsValueOf c depth id ⟨depth, .bind n v⟩

/-- The lines evaluate the trees of some nodes, one after the other, and then some operands are
ready. -/
structure Evaluates (c : Context) (depth : Nat) (ids post : List NodeId) (ls : List Line)
    (as : List Operand) : Prop where
  postOrder : PostOrder c.graph ids post
  lets : List.Forall₂ (c.BindsValueOf depth) (post.filter c.graph.isComputed)
    (ls.filter Line.isLet)
  inScope : c.Scoped [] ls
  ready : ∀ a ∈ as, c.Ready ls a

namespace Evaluates

theorem nil : c.Evaluates depth [] [] [] [] :=
  ⟨.nil, .nil, trivial, List.forall_mem_nil _⟩

theorem append (h : c.Evaluates depth ids post ls as) (h' : c.Evaluates depth ids' post' ls' as') :
    c.Evaluates depth (ids ++ ids') (post ++ post') (ls ++ ls') (as ++ as') := by
  refine ⟨h.postOrder.append h'.postOrder, ?_, ?_, fun a ha => ?_⟩
  · rw [List.filter_append, List.filter_append]
    exact List.rel_append h.lets h'.lets
  · exact h.inScope.append (h'.inScope.mono (List.nil_subset _))
  · rcases List.mem_append.mp ha with ha | ha
    · exact (h.ready a ha).mono (List.subset_append_left _ _)
    · exact (h'.ready a ha).mono (List.subset_append_right _ _)

/-- A node that computes nothing, after the nodes in its slots. -/
theorem pass {n : Node} (hn : c.graph.node? id = some n)
    (h : c.Evaluates depth n.kind.children post ls as) (hid : n.kind.isComputed = false) :
    c.Evaluates depth [id] (post ++ [id]) ls as := by
  refine ⟨.singleton hn h.postOrder, ?_, h.inScope, h.ready⟩
  rw [List.filter_append, List.filter_singleton, Graph.isComputed_eq hn, hid]
  simpa using h.lets

end Evaluates

def EvaluatesTo (c : Context) (depth : Nat) (id : NodeId) (ls : List Line) (a : Operand) : Prop :=
  c.Denotes id a ∧ ∃ post, c.Evaluates depth [id] post ls [a]

namespace EvaluatesTo

/-- A node whose operand needs no line. -/
theorem leaf {e : Expression} (he : c.graph.expression id = .ok e) (hchildren : e.children = [])
    (hid : e.isComputed = false) (hdenotes : c.Denotes id a) (hready : c.Ready [] a) :
    c.EvaluatesTo depth id [] a := by
  obtain ⟨n, hn, hkind⟩ := Graph.expression_eq_ok_iff.mp he
  have hnone : c.Evaluates depth n.kind.children [] [] [a] := by
    rw [hkind, NodeKind.children, hchildren]
    exact ⟨.nil, .nil, trivial, List.forall_mem_singleton.mpr hready⟩
  exact ⟨hdenotes, _, hnone.pass hn (by rw [hkind]; exact hid)⟩

theorem constant {l : Literal} (he : c.graph.expression id = .ok (.literal l))
    (ha : l.operand? = some a) : c.EvaluatesTo depth id [] a := by
  have hready : c.Ready [] a := .constant (Literal.ne_name_of_operand? ha)
  cases l with
  | tone frequency duration => cases ha
  | number _ | text _ | bool _ | lineFeed | emptyList _ | silence =>
      exact .leaf he rfl rfl (.constant he ha) hready

/-- A node that computes something: the lines for its operands and those of its own. -/
theorem compute {e : Expression} {own : List Line} {t : Nat} {v : Value}
    (he : c.graph.expression id = .ok e) (hid : e.isComputed = true)
    (h : c.Evaluates depth e.children post ls as) (ht : c.numbering.serial id = .ok t)
    (hv : c.Computes id v) (hown : c.BindsOnce depth t v own)
    (has : ∀ a ∈ v.operands, a ∈ as) : c.EvaluatesTo depth id (ls ++ own) (.name (.var t)) := by
  obtain ⟨n, hn, hkind⟩ := Graph.expression_eq_ok_iff.mp he
  have hcomputed : c.graph.isComputed id = true := by
    rw [Graph.isComputed_of_expression he, hid]
  have hbelow : PostOrder c.graph n.kind.children post := by
    rw [hkind]
    exact h.postOrder
  have hscope : c.Scoped ls own := hown.inScope ls fun a ha => h.ready a (has a ha)
  refine ⟨.temporary hcomputed ht, post ++ [id], .singleton hn hbelow, ?_,
    h.inScope.append (by simpa using hscope), ?_⟩
  · rw [List.filter_append, List.filter_append, hown.lets, List.filter_singleton, hcomputed]
    exact List.rel_append h.lets (.cons (.intro ht hv) .nil)
  · rw [List.forall_mem_singleton]
    exact .bound (List.mem_append_right ls hown.mem)

end EvaluatesTo

/-- Whatever the emission gives for a node evaluates the node's tree. -/
def Evaluator (c : Context) (depth : Nat) (f : NodeId → Emission Operand) : Prop :=
  ∀ id ls a, Gives (f id) ls a → c.EvaluatesTo depth id ls a

namespace Evaluator

variable {f : NodeId → Emission Operand} (hf : c.Evaluator depth f)
include hf

theorem collect (h : Gives (collect f ids) ls as) :
    List.Forall₂ c.Denotes ids as ∧ ∃ post, c.Evaluates depth ids post ls as := by
  induction ids generalizing ls as with
  | nil =>
      obtain ⟨rfl, rfl⟩ := gives_pure.mp h
      exact ⟨.nil, [], .nil⟩
  | cons x ids ih =>
      obtain ⟨a, l₁, _, ha, hrest, rfl⟩ := gives_bind.mp h
      obtain ⟨as', l₂, _, has, hpure, rfl⟩ := gives_bind.mp hrest
      obtain ⟨rfl, rfl⟩ := gives_pure.mp hpure
      obtain ⟨hdenotes, post, hx⟩ := hf x l₁ a ha
      obtain ⟨hdenote, post', hids⟩ := ih has
      exact ⟨.cons hdenotes hdenote, post ++ post', by simpa using hx.append hids⟩

theorem arguments {head : NodeId} {entries : List (NodeId × Argument)}
    (hchain : Chained c.graph.argument Argument.next head entries)
    (h : Gives (Emission.collect (fun entry : NodeId × Argument => f entry.2.value) entries)
      ls as) :
    List.Forall₂ (fun entry a => c.Denotes entry.2.value a) entries as ∧
      ∃ post, c.Evaluates depth [head] post ls as := by
  induction hchain generalizing ls as with
  | @nil id hread =>
      obtain ⟨rfl, rfl⟩ := gives_pure.mp h
      obtain ⟨n, hn, hkind⟩ := Graph.argument_eq_none_iff.mp hread
      have hbelow : c.Evaluates depth n.kind.children [] [] [] := by
        rw [hkind]
        exact .nil
      exact ⟨.nil, [id], hbelow.pass hn (by rw [hkind]; rfl)⟩
  | @cons id x entries hread _ ih =>
      obtain ⟨a, l₁, _, ha, hrest, rfl⟩ := gives_bind.mp h
      obtain ⟨as', l₂, _, has, hpure, rfl⟩ := gives_bind.mp hrest
      obtain ⟨rfl, rfl⟩ := gives_pure.mp hpure
      obtain ⟨hdenotes, post, hx⟩ := hf x.value l₁ a ha
      obtain ⟨hdenote, post', hnext⟩ := ih has
      obtain ⟨n, hn, hkind⟩ := Graph.argument_eq_some_iff.mp hread
      have hbelow : c.Evaluates depth n.kind.children (post ++ post') (l₁ ++ l₂) (a :: as') := by
        rw [hkind]
        exact hx.append hnext
      rw [List.append_nil]
      exact ⟨.cons hdenotes hdenote, post ++ post' ++ [id], hbelow.pass hn (by rw [hkind]; rfl)⟩

theorem pair {left right : NodeId} {x y : Operand} (hx : Gives (f left) ls x)
    (hy : Gives (f right) ls' y) :
    c.Denotes left x ∧ c.Denotes right y ∧
      ∃ post, c.Evaluates depth [left, right] post (ls ++ ls') [x, y] := by
  obtain ⟨hdx, post, hleft⟩ := hf left ls x hx
  obtain ⟨hdy, post', hright⟩ := hf right ls' y hy
  exact ⟨hdx, hdy, post ++ post', hleft.append hright⟩

theorem binary {op : BinaryOp} {left right : NodeId}
    (he : c.graph.expression id = .ok (.binary op left right))
    (h : Gives (c.expressionCode depth f id (.binary op left right)) ls a) :
    c.EvaluatesTo depth id ls a := by
  obtain ⟨x, l₁, _, hx, hafter, rfl⟩ := gives_bind.mp h
  obtain ⟨y, l₂, _, hy, hnumber, rfl⟩ := gives_bind.mp hafter
  obtain ⟨t, ht, hbind⟩ := gives_serial_bind.mp hnumber
  obtain ⟨guard, hguard, rfl⟩ := gives_line_bind.mp hbind
  obtain ⟨hdx, hdy, post, hbelow⟩ := hf.pair hx hy
  have hown : a = .name (.var t) ∧
      c.BindsOnce depth t (.binary op x y) (⟨depth, .bind t (.binary op x y)⟩ :: guard) := by
    split at hguard
    · obtain ⟨_, hassign, rfl⟩ := gives_line_bind.mp hguard
      obtain ⟨_, hpure, rfl⟩ := gives_line_bind.mp hassign
      obtain ⟨rfl, rfl⟩ := gives_pure.mp hpure
      refine ⟨rfl, (BindsOnce.line c depth t _).replace (Script.isLet_ifNotFinite depth t) rfl ?_⟩
      exact fun prior hargs => hargs x List.mem_cons_self
    · obtain ⟨rfl, rfl⟩ := gives_pure.mp hguard
      exact ⟨rfl, .line c depth t _⟩
  obtain ⟨rfl, hown⟩ := hown
  rw [← List.append_assoc]
  exact .compute he rfl hbelow ht (.binary he hdx hdy) hown fun _ ha => ha

theorem unary {op : UnaryOp} {right : NodeId}
    (he : c.graph.expression id = .ok (.unary op right))
    (h : Gives (c.expressionCode depth f id (.unary op right)) ls a) :
    c.EvaluatesTo depth id ls a := by
  obtain ⟨x, l₁, _, hx, hnumber, rfl⟩ := gives_bind.mp h
  obtain ⟨t, ht, hbind⟩ := gives_serial_bind.mp hnumber
  obtain ⟨_, hpure, rfl⟩ := gives_line_bind.mp hbind
  obtain ⟨rfl, rfl⟩ := gives_pure.mp hpure
  obtain ⟨hdx, p, hright⟩ := hf right l₁ x hx
  exact .compute he rfl hright ht (.unary he hdx) (.line c depth t _) fun _ ha => ha

theorem literal {l : Literal} (he : c.graph.expression id = .ok (.literal l))
    (h : Gives (c.literal depth f id l) ls a) : c.EvaluatesTo depth id ls a := by
  cases l with
  | number s =>
      obtain ⟨x, hx, hpure⟩ := gives_lift_bind.mp h
      obtain ⟨rfl, rfl⟩ := gives_pure.mp hpure
      refine .constant he ?_
      unfold Emission.number at hx
      cases hread : Binary64.read? (Text.trim s.toList) with
      | none => simp [hread] at hx
      | some y =>
          obtain rfl : y = x := by simpa [hread] using hx
          rw [Literal.operand?, hread, Option.map_some]
  | bool s =>
      cases hread : boolOfText? s with
      | none => simp [Context.literal, hread] at h
      | some b =>
          simp only [Context.literal, hread] at h
          obtain ⟨rfl, rfl⟩ := gives_pure.mp h
          exact .constant he (by rw [Literal.operand?, hread, Option.map_some])
  | text _ | lineFeed | emptyList _ | silence =>
      obtain ⟨rfl, rfl⟩ := gives_pure.mp h
      exact .constant he rfl
  | tone frequency duration =>
      obtain ⟨x, l₁, _, hx, hafter, rfl⟩ := gives_bind.mp h
      obtain ⟨y, l₂, _, hy, hnumber, rfl⟩ := gives_bind.mp hafter
      obtain ⟨t, ht, hbind⟩ := gives_serial_bind.mp hnumber
      obtain ⟨_, hpure, rfl⟩ := gives_line_bind.mp hbind
      obtain ⟨rfl, rfl⟩ := gives_pure.mp hpure
      obtain ⟨hdx, hdy, post, hbelow⟩ := hf.pair hx hy
      rw [← List.append_assoc]
      exact .compute he rfl hbelow ht (.tone he hdx hdy) (.line c depth t _) fun _ ha => ha

theorem builtinCall {call : BuiltinCall} {t : Nat} {u : Unit}
    (he : c.graph.expression id = .ok (.builtin call)) (ht : c.numbering.serial id = .ok t)
    (h : Gives (c.builtinCall depth f id call (some t)) ls u) :
    c.EvaluatesTo depth id ls (.name (.var t)) := by
  unfold Context.builtinCall at h
  split at h
  · exact absurd h gives_fail.mp
  · rename_i name hname
    split at h
    · exact absurd h gives_fail.mp
    · obtain ⟨args, l₁, _, hargs, hafter, rfl⟩ := gives_bind.mp h
      obtain ⟨_, own, rest, hperform, hsubstitute, rfl⟩ := gives_bind.mp hafter
      obtain ⟨hdenote, post, hbelow⟩ := hf.collect hargs
      have hcall := bindsOnce_performCall hperform
      have hown : c.BindsOnce depth t (.call ⟨.library name, args⟩) (own ++ rest) := by
        cases hvalue : call.func.substitute? with
        | none =>
            rw [hvalue] at hsubstitute
            obtain ⟨_, rfl⟩ := gives_pure.mp hsubstitute
            simpa using hcall
        | some value =>
            rw [hvalue] at hsubstitute
            obtain ⟨_, hassign, rfl⟩ := gives_line_bind.mp hsubstitute
            obtain rfl := gives_line.mp hassign
            refine hcall.replace (Script.isLet_ifUndefined depth t) rfl fun prior _ => ?_
            exact .constant (Builtin.ne_name_of_substitute? hvalue)
      exact .compute he rfl hbelow ht (.builtin he hname hdenote) hown fun _ ha => ha

theorem userCall {head : NodeId} {t : Nat} {u : Unit}
    (he : c.graph.expression id = .ok (.call head)) (ht : c.numbering.serial id = .ok t)
    (h : Gives (c.userCall depth f id head (some t)) ls u) :
    c.EvaluatesTo depth id ls (.name (.var t)) := by
  obtain ⟨d, _, hcheck⟩ := gives_lift_bind.mp h
  split at hcheck
  · exact absurd hcheck gives_fail.mp
  · obtain ⟨args, l₁, _, hargs, hafter, rfl⟩ := gives_bind.mp hcheck
    obtain ⟨_, hending, hnumber⟩ := gives_lift_bind.mp hafter
    obtain ⟨n, hn, hperform⟩ := gives_serial_bind.mp hnumber
    obtain ⟨hdenote, post, hbelow⟩ := hf.arguments (Chained.of_follow hending) hargs
    exact .compute he rfl hbelow ht (.call he hn hdenote) (bindsOnce_performCall hperform)
      fun _ ha => ha

/-- The code of one expression, if uses lead to what has the same number. -/
theorem expressionCode {e : Expression}
    (hbearer : ∀ x k, c.numbering.serial x = .ok k →
      c.numbering.serial (c.numbering.bearer x) = .ok k)
    (he : c.graph.expression id = .ok e) (h : Gives (c.expressionCode depth f id e) ls a) :
    c.EvaluatesTo depth id ls a := by
  cases e with
  | binary op left right => exact hf.binary he h
  | unary op right => exact hf.unary he h
  | read =>
      obtain ⟨n, _, _, hread, hpure, rfl⟩ := gives_bind.mp h
      obtain ⟨rfl, rfl⟩ := gives_pure.mp hpure
      obtain ⟨⟨d, hd⟩, hn, rfl⟩ := gives_variableRead.mp hread
      exact .leaf he rfl rfl (.read he hd hn) (.declared hd (hbearer id n hn))
  | literal l => exact hf.literal he h
  | builtin call =>
      simp only [Context.expressionCode] at h
      split at h
      · obtain ⟨t, ht, hafter⟩ := gives_serial_bind.mp h
        obtain ⟨_, l₁, _, hcall, hpure, rfl⟩ := gives_bind.mp hafter
        obtain ⟨rfl, rfl⟩ := gives_pure.mp hpure
        rw [List.append_nil]
        exact hf.builtinCall he ht hcall
      · exact absurd h gives_fail.mp
  | call head =>
      obtain ⟨t, ht, hafter⟩ := gives_serial_bind.mp h
      obtain ⟨_, l₁, _, hcall, hpure, rfl⟩ := gives_bind.mp hafter
      obtain ⟨rfl, rfl⟩ := gives_pure.mp hpure
      rw [List.append_nil]
      exact hf.userCall he ht hcall

end Evaluator

theorem evaluator_expression
    (hbearer : ∀ x k, c.numbering.serial x = .ok k →
      c.numbering.serial (c.numbering.bearer x) = .ok k) (depth fuel : Nat) :
    c.Evaluator depth (c.expression depth fuel) := by
  induction fuel with
  | zero => exact fun _ _ _ h => absurd h gives_fail.mp
  | succ fuel ih =>
      intro id ls a h
      obtain ⟨e, he, hcode⟩ := gives_lift_bind.mp h
      exact ih.expressionCode hbearer he hcode

theorem Scoped.isAtom (h : c.Scoped prior ls) : ∀ l ∈ ls, ∀ a ∈ l.code.uses, IsAtom a.render := by
  induction ls generalizing prior with
  | nil => exact List.forall_mem_nil _
  | cons l ls ih => exact List.forall_mem_cons.mpr ⟨fun a ha => (h.1 a ha).isAtom, ih h.2⟩

end Emission.Context

open Emission (Context Gives)
open Script (Operand IsAtom)

/-- The code of an expression, whenever it is generated, evaluates the expression's tree to an atom,
and every operand in its lines is an atom. -/
theorem evaluates_of_ofProgram {g : Graph} {run id : NodeId} {roots : List NodeId} {ns : Numbering}
    {options : Options} {depth : Nat} {ls : List Script.Line} {a : Operand}
    (hns : Numbering.ofProgram g run roots = .ok ns)
    (h : Gives (Context.operand ⟨g, ns, options⟩ depth id) ls a) :
    IsAtom a.render ∧ (∀ l ∈ ls, ∀ x ∈ l.code.uses, IsAtom x.render) ∧
      Context.Denotes ⟨g, ns, options⟩ id a ∧
      ∃ post, Context.Evaluates ⟨g, ns, options⟩ depth [id] post ls [a] ∧
        (g.Entered (run :: roots) id → post.Nodup) := by
  obtain ⟨nodes, htraversal, _, hnoted⟩ := Numbering.exists_noted hns
  have hcovers := Numbering.covers_of_noted htraversal hnoted
  obtain ⟨hdenotes, post, hpost⟩ :=
    Context.evaluator_expression (c := ⟨g, ns, options⟩) (fun x _ => hnoted.serial_bearer x)
      depth g.budget id ls a h
  have hready := hpost.ready a (List.mem_singleton_self a)
  refine ⟨hready.isAtom, hpost.inScope.isAtom, hdenotes, post, hpost, fun hid => ?_⟩
  have hmem := hcovers.mem_of_entered (fun _ hx => htraversal.root_mem hx) hid
  exact (hcovers.tree id hmem).nodup_postOrder hpost.postOrder

def sumOfLengths : Graph :=
  ⟨#[.ofKind (.expression (.literal (.emptyList .number))),
    .ofKind (.expression (.builtin ⟨.list .number .length, none, [⟨0⟩]⟩)),
    .ofKind (.expression (.literal (.emptyList .text))),
    .ofKind (.expression (.builtin ⟨.list .text .length, none, [⟨2⟩]⟩)),
    .ofKind (.expression (.binary (.arith .add) ⟨1⟩ ⟨3⟩)),
    ⟨.statement ⟨.returnValue (some ⟨4⟩), ⟨6⟩⟩, .onWorkspace, none⟩,
    .ofKind .statementEnd]⟩

def linesOfSum : List Script.Line :=
  [⟨0, .bind 3 (.call ⟨.library "_aryLength", [.emptyList]⟩)⟩,
    ⟨0, .bind 5 (.call ⟨.library "_aryLength", [.emptyList]⟩)⟩,
    ⟨0, .bind 2 (.binary (.arith .add) (.name (.var 3)) (.name (.var 5)))⟩,
    ⟨0, .ifNotFinite 2⟩,
    ⟨1, .assign 2 (.name (.var 3))⟩]

theorem evaluates_sumOfLengths :
    ∃ ns, Numbering.ofProgram sumOfLengths ⟨5⟩ [] = .ok ns ∧
      Gives (Context.operand ⟨sumOfLengths, ns, .standard⟩ 0 ⟨4⟩) linesOfSum (.name (.var 2)) ∧
      ∃ post, Context.Evaluates ⟨sumOfLengths, ns, .standard⟩ 0 [⟨4⟩] post linesOfSum
        [.name (.var 2)] ∧ post.Nodup := by
  refine ⟨_, rfl, ⟨rfl, rfl⟩, ?_⟩
  obtain ⟨_, _, _, post, hpost, hnodup⟩ := evaluates_of_ofProgram
    (show Numbering.ofProgram sumOfLengths ⟨5⟩ [] = .ok _ from rfl)
    (show Gives (Context.operand ⟨sumOfLengths, _, .standard⟩ 0 ⟨4⟩) linesOfSum (.name (.var 2))
      from ⟨rfl, rfl⟩)
  refine ⟨post, hpost, hnodup ⟨⟨5⟩, List.mem_singleton_self _, ?_⟩⟩
  exact .single (.statement (s := ⟨.returnValue (some ⟨4⟩), ⟨6⟩⟩) rfl .returnValue)

end BlockScript
