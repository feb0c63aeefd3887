import BlockScript.Proofs.Emission.Options
import BlockScript.Proofs.Graph.Chain
import BlockScript.Proofs.Graph.Turn
import BlockScript.Proofs.Script.Indentation
/-!
# Nodes that show in the code under other options

`Traces R g ids own x y`: whatever the emission `y` gives is given by `x`, and the lines of the two
are related by `R` for the marked nodes among those met from `ids`, in turn, and then for `own`.
What options change is in the lines of operations and calls and in notes.  If `R` relates those
lines, for the nodes whose lines they are, and all others to themselves (`Suits`), it relates what
is generated under the two sets of options (`traces_operand`, `traces_statements`).
-/

namespace BlockScript

open Script (Line Code Call Operand)

/-- Code that is the same under all options and one line of text. -/
def Script.Code.Uniform : Code → Prop
  | .declare _ _ _ | .enterCall _ | .leaveCall | .ifNotFinite _ | .ifUndefined _
  | .bind _ (.binary _ _ _) => False
  | .bind _ (.call c) | .perform c => c.callee.Proper
  | .openFunction _ params note => params = [] ∧ note = none
  | _ => True

/-- Whether the code of a node has an operation or a call as a line of its own. -/
def NodeKind.operatesOrCalls : NodeKind → Bool
  | expression (.binary _ _ _) => true
  | kind => kind.performsCall

def Graph.marked (g : Graph) (marks : NodeKind → Bool) (id : NodeId) : Bool :=
  (g.node? id).any fun n => marks n.kind

theorem Graph.marked_of_expression {g : Graph} {id : NodeId} {e : Expression}
    (he : g.expression id = .ok e) (marks : NodeKind → Bool) :
    g.marked marks id = marks (.expression e) := by
  obtain ⟨n, hn, hkind⟩ := expression_eq_ok_iff.mp he
  rw [marked, hn, Option.any_some, hkind]

namespace Emission

variable {α β : Type}

def lines (ls : List Line) : Emission Unit := ⟨⟨ls, []⟩, .ok ()⟩

theorem bind_lines_nil (x : Emission Unit) : (x >>= fun _ => lines []) = x :=
  bind_pure x

/-- A relation between the lines that some nodes give under two sets of options, for those of the
nodes that are marked.  It holds of all lines as soon as it holds of their pieces. -/
structure NodeRelation where
  marks : NodeKind → Bool
  operatesOrCalls : ∀ kind, marks kind = true → kind.operatesOrCalls = true
  rel : List NodeId → List Line → List Line → Prop
  nil : rel [] [] []
  append : ∀ {ids ids' : List NodeId} {a b a' b' : List Line}, rel ids a b → rel ids' a' b' →
    rel (ids ++ ids') (a ++ a') (b ++ b')

namespace NodeRelation

def own (R : NodeRelation) (id : NodeId) (kind : NodeKind) : List NodeId :=
  bif R.marks kind then [id] else []

variable {R : NodeRelation} {g : Graph} {id : NodeId} {kind : NodeKind}

theorem own_eq_nil (h : kind.operatesOrCalls = false) : R.own id kind = [] := by
  have hmarks : R.marks kind = false := by
    rw [Bool.eq_false_iff]
    intro hmarked
    rw [R.operatesOrCalls kind hmarked] at h
    cases h
  rw [own, hmarks, cond_false]

theorem filter_marked_singleton {n : Node} (hn : g.node? id = some n) :
    [id].filter (g.marked R.marks) = R.own id n.kind := by
  rw [List.filter_singleton, Graph.marked, hn, Option.any_some, own]

end NodeRelation

/-- What the second emission gives the first gives, with related lines.  The nodes are the marked
ones among those met from `ids`, in turn, and then `own`. -/
def Traces (R : NodeRelation) (g : Graph) (ids own : List NodeId) (x y : Emission α) : Prop :=
  ∀ ls' a, Gives y ls' a → ∃ ls turn, Gives x ls a ∧ g.InTurn ids turn ∧
    R.rel (turn.filter (g.marked R.marks) ++ own) ls ls'

namespace Traces

variable {R : NodeRelation} {g : Graph} {ids ids' own : List NodeId} {x y : Emission α}
  {f k : α → Emission β} {id : NodeId}

theorem bind (h : Traces R g ids [] x y) (hf : ∀ a, Traces R g ids' own (f a) (k a)) :
    Traces R g (ids ++ ids') own (x >>= f) (y >>= k) := by
  intro ls' b hb
  obtain ⟨a, l₁, l₂, hy, hk, rfl⟩ := gives_bind.mp hb
  obtain ⟨m₁, t₁, hx, hturn₁, hrel₁⟩ := h l₁ a hy
  obtain ⟨m₂, t₂, hfa, hturn₂, hrel₂⟩ := hf a l₂ b hk
  refine ⟨m₁ ++ m₂, t₁ ++ t₂, gives_bind.mpr ⟨a, m₁, m₂, hx, hfa, rfl⟩,
    hturn₁.append hturn₂, ?_⟩
  rw [List.append_nil] at hrel₁
  rw [List.filter_append, List.append_assoc]
  exact R.append hrel₁ hrel₂

/-- Nothing is met before the node's own lines. -/
theorem bind_own (h : Traces R g ids [] x y) (hf : ∀ a, Traces R g [] own (f a) (k a)) :
    Traces R g ids own (x >>= f) (y >>= k) := by
  have hbind := h.bind hf
  rwa [List.append_nil] at hbind

/-- Nothing is met after the node's own lines. -/
theorem bind_last (h : Traces R g ids own x y) (hf : ∀ a, Traces R g [] [] (f a) (k a)) :
    Traces R g ids own (x >>= f) (y >>= k) := by
  intro ls' b hb
  obtain ⟨a, l₁, l₂, hy, hk, rfl⟩ := gives_bind.mp hb
  obtain ⟨m₁, turn, hx, hturn, hrel⟩ := h l₁ a hy
  obtain ⟨m₂, _, hfa, hnone, hrel'⟩ := hf a l₂ b hk
  cases hnone
  refine ⟨m₁ ++ m₂, turn, gives_bind.mpr ⟨a, m₁, m₂, hx, hfa, rfl⟩, hturn, ?_⟩
  have happend := R.append hrel hrel'
  simpa using happend

theorem pure (a : α) : Traces R g [] [] (Pure.pure a) (Pure.pure a) := by
  intro ls' b h
  obtain ⟨rfl, rfl⟩ := gives_pure.mp h
  exact ⟨[], [], h, .nil, R.nil⟩

theorem fail (x : Emission α) (e : GraphFault) : Traces R g ids own x (fail e) :=
  fun _ _ h => absurd h gives_fail.mp

theorem lift_bind {v : Except GraphFault α} (h : ∀ a, v = .ok a → Traces R g ids own (f a) (k a)) :
    Traces R g ids own (lift v >>= f) (lift v >>= k) := by
  intro ls' b hb
  obtain ⟨a, hv, hk⟩ := gives_lift_bind.mp hb
  obtain ⟨ls, turn, hfa, hturn, hrel⟩ := h a hv ls' b hk
  exact ⟨ls, turn, gives_lift_bind.mpr ⟨a, hv, hfa⟩, hturn, hrel⟩

theorem lift (v : Except GraphFault α) : Traces R g [] [] (lift v) (lift v) := by
  intro ls' b h
  obtain ⟨_, rfl⟩ := gives_lift.mp h
  exact ⟨[], [], h, .nil, R.nil⟩

theorem lines {ls ls' : List Line} (a : α) (h : R.rel own ls ls') :
    Traces R g [] own ⟨⟨ls, []⟩, .ok a⟩ ⟨⟨ls', []⟩, .ok a⟩ := by
  rintro _ _ ⟨hresult, rfl⟩
  exact ⟨ls, [], ⟨hresult, rfl⟩, .nil, h⟩

theorem line {depth : Nat} {code code' : Code} (h : R.rel own [⟨depth, code⟩] [⟨depth, code'⟩]) :
    Traces R g [] own (line depth code) (line depth code') :=
  lines () h

theorem line_bind {f k : Unit → Emission β} {depth : Nat} {code code' : Code}
    (h : R.rel [] [⟨depth, code⟩] [⟨depth, code'⟩]) (hf : Traces R g ids own (f ()) (k ())) :
    Traces R g ids own (Emission.line depth code >>= f) (Emission.line depth code' >>= k) :=
  bind (line h) fun _ => hf

theorem event (e : Event) : Traces R g [] [] (event e) (event e) := by
  intro ls' u hgives
  obtain rfl := gives_event.mp hgives
  exact ⟨_, [], hgives, .nil, R.nil⟩

/-- The code of a node that stands in no chain of statements. -/
theorem node {kind : NodeKind} (hid : ∃ n, g.node? id = some n ∧ n.kind = kind)
    (hafter : kind.after = []) (h : Traces R g kind.inside (R.own id kind) x y) :
    Traces R g [id] [] x y := by
  intro ls' a hgives
  obtain ⟨n, hn, rfl⟩ := hid
  obtain ⟨ls, turn, hx, hturn, hrel⟩ := h ls' a hgives
  have hnone : g.InTurn n.kind.after [] := by
    rw [hafter]
    exact .nil
  refine ⟨ls, turn ++ [id], hx, .cons hn hturn hnone .nil, ?_⟩
  rw [List.append_nil, List.filter_append, NodeRelation.filter_marked_singleton hn]
  exact hrel

theorem node_end {kind : NodeKind} (hid : ∃ n, g.node? id = some n ∧ n.kind = kind)
    (hinside : kind.inside = []) (hafter : kind.after = []) (hkind : kind.operatesOrCalls = false)
    (a : α) : Traces R g [id] [] (Pure.pure a) (Pure.pure a) := by
  refine node hid hafter ?_
  rw [hinside, NodeRelation.own_eq_nil hkind]
  exact .pure a

theorem statement {s : Statement} (hs : g.statement id = .ok (some s))
    (h : Traces R g s.kind.children (R.own id (.statement s)) x y)
    (hf : ∀ a, Traces R g [s.next] [] (f a) (k a)) :
    Traces R g [id] [] (x >>= f) (y >>= k) := by
  intro ls' b hb
  obtain ⟨n, hn, hkind⟩ := Graph.statement_eq_some_iff.mp hs
  obtain ⟨a, l₁, l₂, hy, hk, rfl⟩ := gives_bind.mp hb
  obtain ⟨m₁, t₁, hx, hturn₁, hrel₁⟩ := h l₁ a hy
  obtain ⟨m₂, t₂, hfa, hturn₂, hrel₂⟩ := hf a l₂ b hk
  have hinside : g.InTurn n.kind.inside t₁ := by rw [hkind]; exact hturn₁
  have hafter : g.InTurn n.kind.after t₂ := by rw [hkind]; exact hturn₂
  refine ⟨m₁ ++ m₂, t₁ ++ id :: (t₂ ++ []), gives_bind.mpr ⟨a, m₁, m₂, hx, hfa, rfl⟩,
    .cons hn hinside hafter .nil, ?_⟩
  -- The nodes inside the statement come first, then it, then those after it.
  have hsplit : t₁ ++ id :: (t₂ ++ []) = (t₁ ++ [id]) ++ t₂ := by simp
  rw [List.append_nil] at hrel₂
  rw [hsplit, List.append_nil, List.filter_append, List.filter_append,
    NodeRelation.filter_marked_singleton hn, hkind]
  exact R.append hrel₁ hrel₂

/-- A chain is followed, and ends as it should. -/
theorem ended {ending : Except GraphFault Unit} (h : ending = .ok () → Traces R g ids [] x y)
    (hf : ∀ a, Traces R g [] own (f a) (k a)) :
    Traces R g ids own (x >>= fun a => Emission.lift ending >>= fun _ => f a)
      (y >>= fun a => Emission.lift ending >>= fun _ => k a) := by
  cases ending with
  | ok u => exact (h rfl).bind_own hf
  | error e =>
      intro ls' b hb
      obtain ⟨_, _, _, _, hfail, _⟩ := gives_bind.mp hb
      exact absurd hfail gives_fail.mp

theorem ended_last {ending : Except GraphFault Unit}
    (h : ending = .ok () → Traces R g ids [] x y) :
    Traces R g ids [] (x >>= fun _ => Emission.lift ending)
      (y >>= fun _ => Emission.lift ending) := by
  have hended := ended (f := fun _ => Pure.pure ()) (k := fun _ => Pure.pure ()) h
    fun _ => .pure ()
  simpa using hended

theorem collect {f k : NodeId → Emission β} (h : ∀ x, Traces R g [x] [] (f x) (k x))
    (xs : List NodeId) : Traces R g xs [] (collect f xs) (collect k xs) := by
  induction xs with
  | nil => exact .pure []
  | cons x xs ih => exact (h x).bind fun b => ih.bind_last fun bs => .pure _

/-- Entries of which some hold the head of a chain. -/
theorem each {f k : α → Emission Unit} {F : α → Option NodeId}
    (h : ∀ a, Traces R g (F a).toList [] (f a) (k a)) (as : List α) :
    Traces R g (as.filterMap F) [] (each f as) (each k as) := by
  induction as with
  | nil => exact .pure ()
  | cons a as ih =>
      have hfilter : (a :: as).filterMap F = (F a).toList ++ as.filterMap F := by
        cases hF : F a <;> simp [hF]
      rw [hfilter]
      exact (h a).bind fun _ => ih

end Traces

namespace Context

def substituteLines (depth : Nat) (call : BuiltinCall) (target : Option Nat) : List Line :=
  match target, call.func.substitute? with
  | some t, some value => [⟨depth, .ifUndefined t⟩, ⟨depth + 1, .assign t value⟩]
  | _, _ => []

theorem substituteLines_none (depth : Nat) (call : BuiltinCall) :
    substituteLines depth call none = [] := rfl

/-- What the options of a context and some others change in the code is related for the nodes that
it is the code of. -/
structure Suits (R : NodeRelation) (c : Context) (o : Options) : Prop where
  /-- If only one of the two records calls, it is the second. -/
  isDebug : c.options.isDebug → o.isDebug
  uniform : ∀ l : Line, l.code.Uniform → R.rel [] [l] [l]
  declaration : ∀ depth n initial name,
    R.rel [] [⟨depth, .declare n initial (c.note name)⟩]
      [⟨depth, .declare n initial ((c.under o).note name)⟩]
  function : ∀ depth n entries serials name,
    R.rel [] [⟨depth, .openFunction n (List.zipWith c.param entries serials) (c.note name)⟩]
      [⟨depth, .openFunction n (List.zipWith (c.under o).param entries serials)
        ((c.under o).note name)⟩]
  operation : ∀ {id t op left right} depth a b,
    c.graph.expression id = .ok (.binary op left right) → c.numbering.serial id = .ok t →
    R.rel (R.own id (.expression (.binary op left right))) (c.operationLines depth t op a b)
      ((c.under o).operationLines depth t op a b)
  builtin : ∀ {id s call name n} depth args, c.graph.statement id = .ok (some s) →
    s.kind = .builtin call → call.func.function? call.choice = some name →
    (o.isDebug → c.numbering.serial id = .ok n) →
    R.rel (R.own id (.statement s)) (c.callLines depth n (.perform ⟨.library name, args⟩))
      ((c.under o).callLines depth n (.perform ⟨.library name, args⟩))
  builtinValue : ∀ {id call name t} depth args,
    c.graph.expression id = .ok (.builtin call) → call.func.function? call.choice = some name →
    c.numbering.serial id = .ok t →
    R.rel (R.own id (.expression (.builtin call)))
      (c.callLines depth t (.bind t (.call ⟨.library name, args⟩)) ++
        substituteLines depth call (some t))
      ((c.under o).callLines depth t (.bind t (.call ⟨.library name, args⟩)) ++
        substituteLines depth call (some t))
  user : ∀ {id s head n} depth args, c.graph.statement id = .ok (some s) → s.kind = .call head →
    c.numbering.serial id = .ok n →
    R.rel (R.own id (.statement s)) (c.callLines depth n (.perform ⟨.user n, args⟩))
      ((c.under o).callLines depth n (.perform ⟨.user n, args⟩))
  userValue : ∀ {id head n} depth args, c.graph.expression id = .ok (.call head) →
    c.numbering.serial id = .ok n →
    R.rel (R.own id (.expression (.call head)))
      (c.callLines depth n (.bind n (.call ⟨.user n, args⟩)))
      ((c.under o).callLines depth n (.bind n (.call ⟨.user n, args⟩)))

variable {R : NodeRelation} {c : Context} {o : Options} {depth : Nat} {id : NodeId}
  {own : List NodeId}

theorem traces_variableRead (R : NodeRelation) (c : Context) (o : Options) (id : NodeId) :
    Traces R c.graph [] [] (c.variableRead id) ((c.under o).variableRead id) := by
  refine .lift_bind fun d _ => ?_
  cases d with
  | some d => exact .lift _
  | none => exact .fail _ _

theorem traces_serials (R : NodeRelation) (c : Context) (o : Options)
    (entries : List (NodeId × Declaration)) :
    Traces R c.graph [] [] (collect (fun entry => c.serial entry.1) entries)
      (collect (fun entry => (c.under o).serial entry.1) entries) := by
  induction entries with
  | nil => exact .pure []
  | cons entry entries ih => exact (Traces.lift _).bind fun _ => ih.bind fun _ => .pure _

theorem traces_arguments {f k : NodeId → Emission Operand}
    (hf : ∀ x, Traces R c.graph [x] [] (f x) (k x)) {head : NodeId}
    {entries : List (NodeId × Argument)}
    (hchain : Chained c.graph.argument Argument.next head entries) :
    Traces R c.graph [head] [] (collect (fun entry => f entry.2.value) entries)
      (collect (fun entry => k entry.2.value) entries) := by
  induction hchain with
  | nil hread => exact .node_end (Graph.argument_eq_none_iff.mp hread) rfl rfl rfl []
  | @cons id a entries hread _ ih =>
      refine .node (Graph.argument_eq_some_iff.mp hread) rfl ?_
      rw [NodeRelation.own_eq_nil rfl]
      exact (hf a.value).bind fun _ => ih.bind_last fun _ => .pure _

theorem builtinCall_eq (c : Context) (depth : Nat) (f : NodeId → Emission Operand) (id : NodeId)
    (call : BuiltinCall) (target : Option Nat) :
    c.builtinCall depth f id call target =
      match call.func.function? call.choice with
      | none => .fail (.noFunction call.func call.choice id)
      | some name =>
        if call.args.length ≠ call.func.arity then
          .fail (.wrongArity call.func id call.func.arity call.args.length)
        else collect f call.args >>= fun args =>
          c.performCall depth id ⟨.library name, args⟩ target >>= fun _ =>
            lines (substituteLines depth call target) := by
  unfold builtinCall substituteLines
  cases target <;> cases call.func.substitute? <;> rfl

/-- Without records the number of a call does not matter. -/
theorem callLines_congr {n m : Nat} (h : c.options.isDebug → n = m) (depth : Nat) (code : Code) :
    c.callLines depth n code = c.callLines depth m code := by
  unfold callLines
  cases hdebug : c.options.isDebug with
  | false => rfl
  | true => rw [h hdebug]

section

variable (h : Suits R c o)
include h

theorem traces_performCall (depth : Nat) (id : NodeId) (call : Call) (target : Option Nat)
    (rest : List Line)
    (hrel : ∀ n, (o.isDebug → c.numbering.serial id = .ok n) →
      R.rel own (c.callLines depth n (callCode call target) ++ rest)
        ((c.under o).callLines depth n (callCode call target) ++ rest)) :
    Traces R c.graph [] own
      (c.performCall depth id call target >>= fun _ => lines rest)
      ((c.under o).performCall depth id call target >>= fun _ => lines rest) := by
  intro ls' u hgives
  obtain ⟨_, l₁, l₂, hcall, ⟨hresult, rfl⟩, rfl⟩ := gives_bind.mp hgives
  obtain ⟨n, hn, rfl⟩ := gives_performCall.mp hcall
  have hplain : Gives (c.performCall depth id call target)
      (c.callLines depth n (callCode call target)) () :=
    gives_performCall.mpr ⟨n, fun hdebug => hn (h.isDebug hdebug), rfl⟩
  exact ⟨_, [], gives_bind.mpr ⟨(), _, rest, hplain, ⟨hresult, rfl⟩, rfl⟩, .nil, hrel n hn⟩

theorem callLines_of_serial {n t : Nat} (hn : o.isDebug → c.numbering.serial id = .ok n)
    (ht : c.numbering.serial id = .ok t) (depth : Nat) (code : Code) :
    c.callLines depth n code = c.callLines depth t code ∧
      (c.under o).callLines depth n code = (c.under o).callLines depth t code := by
  have hsame (hdebug : o.isDebug) : n = t := Except.ok.inj ((hn hdebug).symm.trans ht)
  exact ⟨callLines_congr (fun hdebug => hsame (h.isDebug hdebug)) depth code,
    callLines_congr (c := c.under o) hsame depth code⟩

section

variable {f k : NodeId → Emission Operand} (hf : ∀ x, Traces R c.graph [x] [] (f x) (k x))
include hf

theorem traces_builtinCall (depth : Nat) (call : BuiltinCall) (target : Option Nat)
    (hrel : ∀ name args n, call.func.function? call.choice = some name →
      (o.isDebug → c.numbering.serial id = .ok n) →
      R.rel own
        (c.callLines depth n (callCode ⟨.library name, args⟩ target) ++
          substituteLines depth call target)
        ((c.under o).callLines depth n (callCode ⟨.library name, args⟩ target) ++
          substituteLines depth call target)) :
    Traces R c.graph call.args own (c.builtinCall depth f id call target)
      ((c.under o).builtinCall depth k id call target) := by
  rw [builtinCall_eq, builtinCall_eq]
  cases hname : call.func.function? call.choice with
  | none => exact .fail _ _
  | some name =>
      simp only
      split
      · exact .fail _ _
      · refine (Traces.collect hf call.args).bind_own fun args => ?_
        exact traces_performCall h depth id _ target _ fun n hn => hrel name args n hname hn

theorem traces_userCall (depth : Nat) (head : NodeId) (target : Option Nat)
    (hrel : ∀ n args, c.numbering.serial id = .ok n →
      R.rel own (c.callLines depth n (callCode ⟨.user n, args⟩ target))
        ((c.under o).callLines depth n (callCode ⟨.user n, args⟩ target))) :
    Traces R c.graph [head] own (c.userCall depth f id head target)
      ((c.under o).userCall depth k id head target) := by
  refine .lift_bind fun d _ => ?_
  split
  · exact .fail _ _
  · refine .ended (fun hending => traces_arguments hf (Chained.of_follow hending)) fun args => ?_
    refine .lift_bind fun t ht => ?_
    have hcall := traces_performCall h depth id ⟨.user t, args⟩ target [] fun n hn => by
      obtain ⟨hlines, hlines'⟩ := callLines_of_serial h hn ht depth
        (callCode ⟨.user t, args⟩ target)
      rw [hlines, hlines', List.append_nil, List.append_nil]
      exact hrel t args ht
    rwa [bind_lines_nil, bind_lines_nil] at hcall

theorem traces_literal (depth : Nat) (id : NodeId) (l : Literal) :
    Traces R c.graph (Expression.literal l).children [] (c.literal depth f id l)
      ((c.under o).literal depth k id l) := by
  cases l with
  | number text => exact .lift_bind fun _ _ => .pure _
  | bool text =>
      simp only [literal]
      cases boolOfText? text with
      | some b => exact .pure _
      | none => exact .fail _ _
  | tone frequency duration =>
      refine (hf frequency).bind fun _ => (hf duration).bind_last fun _ => ?_
      have hproper : (Script.Callee.library "_createSound").Proper := by decide
      exact .lift_bind fun _ _ => .line_bind (h.uniform _ hproper) (.pure _)
  | text _ | lineFeed | emptyList _ | silence => exact .pure _

theorem traces_expressionCode (depth : Nat) {e : Expression}
    (he : c.graph.expression id = .ok e) :
    Traces R c.graph e.children (R.own id (.expression e)) (c.expressionCode depth f id e)
      ((c.under o).expressionCode depth k id e) := by
  cases e with
  | binary op left right =>
      refine (hf left).bind fun a => (hf right).bind_own fun b => .lift_bind fun t ht => ?_
      rw [operation_eq, operation_eq]
      exact .lines _ (h.operation depth a b he ht)
  | unary op right =>
      rw [NodeRelation.own_eq_nil rfl]
      exact (hf right).bind_last fun _ => .lift_bind fun _ _ =>
        .line_bind (h.uniform _ trivial) (.pure _)
  | read =>
      rw [NodeRelation.own_eq_nil rfl]
      exact (traces_variableRead R c o id).bind_last fun _ => .pure _
  | literal l =>
      rw [NodeRelation.own_eq_nil rfl]
      exact traces_literal h hf depth id l
  | builtin call =>
      simp only [expressionCode]
      split
      · refine .lift_bind fun t ht => ?_
        have hcall := traces_builtinCall h hf depth call (some t) fun name args n hname hn => by
          obtain ⟨hlines, hlines'⟩ := callLines_of_serial h hn ht depth
            (callCode ⟨.library name, args⟩ (some t))
          rw [hlines, hlines']
          exact h.builtinValue depth args he hname ht
        exact hcall.bind_last fun _ => .pure _
      · exact .fail _ _
  | call head =>
      refine .lift_bind fun t ht => ?_
      have hcall := traces_userCall h hf depth head (some t) fun n args hn => by
        obtain rfl := Except.ok.inj (ht.symm.trans hn)
        exact h.userValue depth args he hn
      exact hcall.bind_last fun _ => .pure _

end

theorem traces_expression (depth fuel : Nat) (id : NodeId) :
    Traces R c.graph [id] [] (c.expression depth fuel id)
      ((c.under o).expression depth fuel id) := by
  induction fuel generalizing id with
  | zero => exact .fail _ _
  | succ fuel ih =>
      refine .lift_bind fun e he => ?_
      exact .node (Graph.expression_eq_ok_iff.mp he) rfl (traces_expressionCode h ih depth he)

theorem traces_operand (depth : Nat) (id : NodeId) :
    Traces R c.graph [id] [] (c.operand depth id) ((c.under o).operand depth id) :=
  traces_expression h depth _ id

/-! ## Statements -/

theorem traces_declaration (depth : Nat) (id : NodeId) (d : Declaration) :
    Traces R c.graph [] [] (c.declaration depth id d) ((c.under o).declaration depth id d) :=
  .lift_bind fun n _ => .line (h.declaration depth n d.type.initial d.name)

theorem traces_declarationEntries (depth : Nat) {head : NodeId}
    {entries : List (NodeId × Declaration)}
    (hchain : Chained c.graph.declaration Declaration.next head entries) :
    Traces R c.graph [head] []
      (each (fun entry => c.declaration depth entry.1 entry.2) entries)
      (each (fun entry => (c.under o).declaration depth entry.1 entry.2) entries) := by
  induction hchain with
  | nil hread => exact .node_end (Graph.declaration_eq_none_iff.mp hread) rfl rfl rfl ()
  | @cons id d entries hread _ ih =>
      refine .node (Graph.declaration_eq_some_iff.mp hread) rfl ?_
      rw [NodeRelation.own_eq_nil rfl]
      exact (traces_declaration h depth id d).bind fun _ => ih

theorem traces_declarations (depth : Nat) (head : NodeId) :
    Traces R c.graph [head] [] (c.declarations depth head)
      ((c.under o).declarations depth head) :=
  .ended_last fun hending => traces_declarationEntries h depth (Chained.of_follow hending)

/-- A variable that is assigned has no nodes below it. -/
theorem traces_assignment (depth : Nat) (target value : NodeId) {code : Nat → Operand → Code}
    (hcode : ∀ n a, (code n a).Uniform) :
    Traces R c.graph [target, value] [] (c.assignment depth target value code)
      ((c.under o).assignment depth target value code) := by
  refine .lift_bind fun e he => ?_
  cases e with
  | read =>
      have htarget : Traces R c.graph [target] [] (c.variableRead target)
          ((c.under o).variableRead target) := by
        refine .node (Graph.expression_eq_ok_iff.mp he) rfl ?_
        rw [NodeRelation.own_eq_nil rfl]
        exact traces_variableRead R c o target
      exact htarget.bind fun n => (traces_operand h depth value).bind_last fun a =>
        .line (h.uniform _ (hcode n a))
  | binary _ _ _ | unary _ _ | literal _ | builtin _ | call _ => exact .fail _ _

theorem traces_statement {nested nested' : Nat → NodeId → Emission Unit}
    (hnested : ∀ depth x, Traces R c.graph [x] [] (nested depth x) (nested' depth x))
    (depth : Nat) {s : Statement} (hs : c.graph.statement id = .ok (some s)) :
    Traces R c.graph s.kind.children (R.own id (.statement s))
      (c.statement nested depth id s.kind) ((c.under o).statement nested' depth id s.kind) := by
  obtain ⟨kind, next⟩ := s
  cases kind with
  | assign target value | addAssign target value =>
      rw [NodeRelation.own_eq_nil rfl]
      exact traces_assignment h depth target value fun _ _ => trivial
  | branch condition onTrue onFalse =>
      rw [NodeRelation.own_eq_nil rfl]
      refine (traces_operand h depth condition).bind fun _ => .line_bind (h.uniform _ trivial) ?_
      cases onFalse with
      | none =>
          exact (hnested (depth + 1) onTrue).bind_last fun _ =>
            .line_bind (h.uniform _ trivial) (.pure ())
      | some body =>
          refine (hnested (depth + 1) onTrue).bind fun _ => ?_
          refine .line_bind (h.uniform _ trivial) (.line_bind (h.uniform _ trivial) ?_)
          exact (hnested (depth + 1) body).bind_last fun _ => .line (h.uniform _ trivial)
  | whileTrue condition body =>
      rw [NodeRelation.own_eq_nil rfl]
      refine .line_bind (h.uniform _ trivial) ?_
      refine (traces_operand h (depth + 1) condition).bind fun _ => ?_
      refine .line_bind (h.uniform _ trivial) (.line_bind (h.uniform _ trivial) ?_)
      refine .line_bind (h.uniform _ trivial) ?_
      exact (hnested (depth + 1) body).bind_last fun _ => .line (h.uniform _ trivial)
  | repeatTimes count body =>
      rw [NodeRelation.own_eq_nil rfl]
      refine (traces_operand h depth count).bind fun _ => .lift_bind fun _ _ => ?_
      refine .line_bind (h.uniform _ trivial) (.line_bind (h.uniform _ trivial) ?_)
      exact (hnested (depth + 1) body).bind_last fun _ => .line (h.uniform _ trivial)
  | compound locals body =>
      rw [NodeRelation.own_eq_nil rfl]
      refine .line_bind (h.uniform _ trivial) ?_
      refine (traces_declarations h (depth + 1) locals).bind fun _ => ?_
      exact (hnested (depth + 1) body).bind_last fun _ => .line (h.uniform _ trivial)
  | breakLoop | continueLoop =>
      rw [NodeRelation.own_eq_nil rfl]
      exact .line (h.uniform _ trivial)
  | returnValue value =>
      rw [NodeRelation.own_eq_nil rfl]
      cases value with
      | none => exact .line (h.uniform _ trivial)
      | some x => exact (traces_operand h depth x).bind_last fun _ => .line (h.uniform _ trivial)
  | builtin call =>
      refine traces_builtinCall h (traces_operand h depth) depth call none
        fun name args n hname hn => ?_
      rw [substituteLines_none, List.append_nil, List.append_nil]
      exact h.builtin depth args hs rfl hname hn
  | call head =>
      exact traces_userCall h (traces_operand h depth) depth head none fun n args hn =>
        h.user depth args hs rfl hn

theorem traces_statementEntries {nested nested' : Nat → NodeId → Emission Unit}
    (hnested : ∀ depth x, Traces R c.graph [x] [] (nested depth x) (nested' depth x))
    (depth : Nat) {head : NodeId} {entries : List (NodeId × Statement)}
    (hchain : Chained c.graph.statement Statement.next head entries) :
    Traces R c.graph [head] []
      (each (fun entry => c.statement nested depth entry.1 entry.2.kind) entries)
      (each (fun entry => (c.under o).statement nested' depth entry.1 entry.2.kind) entries) := by
  induction hchain with
  | nil hread => exact .node_end (Graph.statement_eq_none_iff.mp hread) rfl rfl rfl ()
  | cons hread _ ih => exact .statement hread (traces_statement h hnested depth hread) fun _ => ih

theorem traces_statementsWithin (fuel depth : Nat) (head : NodeId) :
    Traces R c.graph [head] [] (c.statementsWithin fuel depth head)
      ((c.under o).statementsWithin fuel depth head) := by
  induction fuel generalizing depth head with
  | zero => exact .fail _ _
  | succ fuel ih =>
      exact .ended_last fun hending =>
        traces_statementEntries h ih depth (Chained.of_follow hending)

theorem traces_statements (depth : Nat) (head : NodeId) :
    Traces R c.graph [head] [] (c.statements depth head) ((c.under o).statements depth head) :=
  traces_statementsWithin h _ depth head

/-! ## Roots -/

theorem traces_globalEntries (depth : Nat) (entries : List (NodeId × Declaration))
    (declared : List NodeId) :
    Traces R c.graph [] [] (c.globalEntries depth entries declared)
      ((c.under o).globalEntries depth entries declared) := by
  induction entries generalizing declared with
  | nil => exact .pure _
  | cons entry entries ih =>
      unfold globalEntries
      split
      · exact (Traces.event _).bind fun _ => ih declared
      · exact (traces_declaration h depth entry.1 entry.2).bind fun _ => ih _

theorem traces_globals (depth : Nat) (roots declared : List NodeId) :
    Traces R c.graph [] [] (c.globals depth roots declared)
      ((c.under o).globals depth roots declared) := by
  induction roots generalizing declared with
  | nil => exact .pure _
  | cons root roots ih =>
      refine .lift_bind fun n _ => ?_
      cases n.kind with
      | declaration d =>
          refine (traces_globalEntries h depth _ declared).bind fun _ => ?_
          exact .lift_bind fun _ _ => ih _
      | statement _ | declarationEnd | statementEnd | expression _ | argument _ | argumentEnd
        | definition _ | handler _ => exact ih declared

theorem traces_delay (depth : Nat) (id : NodeId) (trigger : Trigger) :
    Traces R c.graph [] [] (delay depth id trigger) (delay depth id trigger) := by
  cases trigger with
  | keyPressed key => exact .pure ()
  | delayedStart text =>
      have hproper : (Script.Callee.library "_sleep").Proper := by decide
      exact .lift_bind fun _ _ => .line (h.uniform _ hproper)

theorem traces_registration (depth : Nat) (id : NodeId) (n : Nat) (trigger : Trigger) :
    Traces R c.graph [] [] (registration depth id n trigger) (registration depth id n trigger) := by
  unfold registration
  cases trigger.event? with
  | some event => exact .line (h.uniform _ trivial)
  | none => exact .event _

theorem traces_rootDefinition (depth : Nat) (root : NodeId) :
    Traces R c.graph (c.graph.definitionBody? root).toList [] (c.rootDefinition depth root)
      ((c.under o).rootDefinition depth root) := by
  refine .lift_bind fun n hn => ?_
  have hread : c.graph.node? root = some n := Graph.node_eq_ok_iff.mp hn
  unfold Graph.definitionBody?
  rw [hread, Option.map_some]
  cases n.kind with
  | definition d =>
      show Traces R c.graph [d.body] [] (c.definition depth root d)
        ((c.under o).definition depth root d)
      refine .lift_bind fun n _ => (Traces.event _).bind fun _ => ?_
      rw [params_eq, params_eq]
      simp only [bind_assoc, pure_bind]
      refine (traces_serials R c o _).bind fun serials => .lift_bind fun _ _ => ?_
      refine .line_bind (h.function depth n _ serials d.name) ?_
      exact (traces_statements h (depth + 1) d.body).bind_last fun _ => .line (h.uniform _ trivial)
  | statement _ | declarationEnd | statementEnd | expression _ | argument _ | argumentEnd
    | declaration _ | handler _ => exact .pure ()

theorem traces_rootHandler (depth : Nat) (root : NodeId) :
    Traces R c.graph (c.graph.handlerBody? root).toList [] (c.rootHandler depth root)
      ((c.under o).rootHandler depth root) := by
  refine .lift_bind fun n hn => ?_
  have hread : c.graph.node? root = some n := Graph.node_eq_ok_iff.mp hn
  unfold Graph.handlerBody?
  rw [hread, Option.map_some]
  cases n.kind with
  | handler x =>
      refine .lift_bind fun n _ => (Traces.event _).bind fun _ => ?_
      refine .line_bind (h.uniform _ trivial) (.line_bind (h.uniform _ ⟨rfl, rfl⟩) ?_)
      refine .line_bind (h.uniform _ trivial) (.line_bind (h.uniform _ trivial) ?_)
      refine (traces_delay h (depth + 3) root x.trigger).bind fun _ => ?_
      refine (traces_statements h (depth + 3) x.body).bind_last fun _ => ?_
      refine .line_bind (h.uniform _ trivial) (.line_bind (h.uniform _ trivial) ?_)
      refine .line_bind (h.uniform _ trivial) (.line_bind (h.uniform _ trivial) ?_)
      refine .line_bind (h.uniform _ trivial) (.line_bind (h.uniform _ trivial) ?_)
      exact traces_registration h depth root n x.trigger
  | statement _ | declarationEnd | statementEnd | expression _ | argument _ | argumentEnd
    | declaration _ | definition _ => exact .pure ()

end

end Context

end Emission

end BlockScript
