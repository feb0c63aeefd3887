import BlockScript.Proofs.Emission.Renaming
import BlockScript.Proofs.Request.Answer
/-!
# Positions do not matter

The text of a program depends on the shape of what its roots reach, not on the ids that nodes have,
nor on other nodes, nor on the states of any node but the one to run (`generate_renames`).
-/

namespace BlockScript.Request

open Emission (Context Agrees)

structure Renames (φ : NodeId → NodeId) (r r' : Request) : Prop where
  run : r'.run = φ r.run
  roots : r'.roots = r.roots.map φ
  options : r'.options = r.options
  state : ∀ n n', r.graph.node? r.run = some n → r'.graph.node? (φ r.run) = some n' →
    n'.state = n.state
  graph : r.graph.Renames φ r'.graph (r.run :: r.roots)

variable {φ : NodeId → NodeId} {r r' : Request}

theorem Renames.executable (h : Renames φ r r') (hrun : r.Executable) : r'.Executable := by
  obtain ⟨n, hn, hstate, hkind⟩ := hrun
  obtain ⟨n', hn', hkind', _⟩ := h.graph.node r.run n (.start List.mem_cons_self) hn
  refine ⟨n', by rw [h.run]; exact hn', by rw [h.state n n' hn hn', hstate], ?_⟩
  rw [hkind']
  rcases hkind with ⟨s, hs⟩ | hend
  · exact .inl ⟨s.map φ, by rw [hs]; rfl⟩
  · exact .inr (by rw [hend]; rfl)

theorem Renames.agrees_code {ns ns' : Numbering} {nodes : List NodeId} (h : Renames φ r r')
    (hcontext : Context.Renamed φ (r.context ns) (r'.context ns') nodes)
    (hnodes : ∀ x ∈ r.run :: r.roots, x ∈ nodes) : Agrees Eq (r.code ns) (r'.code ns') := by
  have hroots : ∀ x ∈ r.roots, x ∈ nodes := fun x hx => hnodes x (List.mem_cons_of_mem _ hx)
  unfold code
  rw [h.roots, h.run]
  refine Agrees.bind (R := fun _ _ => True) ?_ fun _ _ _ => ?_
  · apply (hcontext.agrees_globals hroots (List.forall_mem_nil _)).bind
    intro _ _ _
    exact .pure trivial
  · apply (hcontext.agrees_definitions hroots).bind
    intro _ _ _
    apply (hcontext.agrees_handlers hroots).bind
    intro _ _ _
    exact hcontext.agrees_statements (hnodes r.run List.mem_cons_self) bodyDepth

theorem Renames.context {ns ns' : Numbering} {nodes : List NodeId} (h : Renames φ r r')
    (hrenamed : Numbering.Renamed φ r.graph r'.graph (r.run :: r.roots) ns ns')
    (hreached : ∀ x ∈ nodes, Graph.Reached r.graph (r.run :: r.roots) x)
    (hcovers : ns.Covers r.graph nodes) (hcovers' : ns'.Covers r'.graph (nodes.map φ)) :
    Context.Renamed φ (r.context ns) (r'.context ns') nodes := by
  have hkind : ∀ id, Graph.Reached r.graph (r.run :: r.roots) id →
      Graph.SameKind φ r.graph r'.graph id := by
    intro id hid n hn
    obtain ⟨n', hn', hkind, _⟩ := h.graph.node id n hid hn
    exact ⟨n', hn', hkind⟩
  have hbearer : ∀ id ∈ nodes, Graph.Reached r.graph (r.run :: r.roots) (ns.bearer id) :=
    fun id hid => (h.graph.leadsTo (hcovers.leadsTo id hid) (hreached id hid)).2
  exact
    { options := h.options
      covers := hcovers
      covers' := hcovers'
      injective := fun a ha b hb => h.graph.injective a b (hreached a ha) (hreached b hb)
      kind := fun id hid => hkind id (hreached id hid)
      bearer := fun id hid => hrenamed.bearer_eq (hreached id hid)
      bearer_kind := fun id hid => hkind _ (hbearer id hid)
      serial := fun id hid k hk =>
        hrenamed.serial_eq h.graph (hreached id hid) (hbearer id hid) hk }

/-- A request for the same program under other ids has the same answer. -/
theorem generate_renames {library : Library} {text : String} (h : Renames φ r r')
    (htext : (r.generate library).result = .ok text) :
    (r'.generate library).result = .ok text := by
  obtain ⟨ns, ls, hrun, hns, hgives, rfl⟩ := generate_eq_ok_iff.mp htext
  obtain ⟨ns', nodes, hns', hrenamed, hnodes, hreached, hcovers, hcovers'⟩ :=
    Numbering.ofProgram_renames h.graph hns
  have hcontext := h.context hrenamed hreached hcovers hcovers'
  obtain ⟨u, hgives', _⟩ := h.agrees_code hcontext hnodes ls () hgives
  refine generate_eq_ok_iff.mpr ⟨ns', ls, h.executable hrun, ?_, hgives', by rw [h.options]⟩
  rw [h.run, h.roots]
  exact hns'

def returnGlobal : Request where
  graph := ⟨#[⟨.declaration ⟨.single .bool, "x", ⟨1⟩⟩, .onWorkspace, none⟩,
    .ofKind .declarationEnd,
    ⟨.expression .read, .child, some ⟨0⟩⟩,
    ⟨.statement ⟨.returnValue (some ⟨2⟩), ⟨4⟩⟩, .onWorkspace, none⟩,
    .ofKind .statementEnd]⟩
  run := ⟨3⟩
  roots := [⟨0⟩]
  options := .standard

/-- The same program with its nodes in the opposite order, behind one that nothing reaches. -/
def returnGlobalReversed : Request where
  graph := ⟨#[⟨.statement ⟨.breakLoop, ⟨0⟩⟩, .deleted, some ⟨7⟩⟩,
    .ofKind .statementEnd,
    ⟨.statement ⟨.returnValue (some ⟨3⟩), ⟨1⟩⟩, .onWorkspace, none⟩,
    ⟨.expression .read, .deleted, some ⟨5⟩⟩,
    .ofKind .declarationEnd,
    ⟨.declaration ⟨.single .bool, "x", ⟨4⟩⟩, .dangling, none⟩]⟩
  run := ⟨2⟩
  roots := [⟨5⟩]
  options := .standard

def reverseId (id : NodeId) : NodeId := ⟨5 - id.number⟩

theorem reverseId_injective {a b : NodeId} (h : reverseId a = reverseId b) : a = b := by
  have heq : a.number = b.number :=
    (UInt32.sub_right_inj 5).mp (congrArg NodeId.number h)
  cases a
  cases b
  exact congrArg NodeId.mk heq

theorem renames_returnGlobal : Renames reverseId returnGlobal returnGlobalReversed where
  run := rfl
  roots := rfl
  options := rfl
  state := by
    intro n n' hn hn'
    obtain rfl := Option.some.inj hn
    obtain rfl := Option.some.inj hn'
    rfl
  graph := by
    refine ⟨fun a b _ _ => reverseId_injective, fun id n _ hn => ?_⟩
    have hnode : ∀ id ∈ returnGlobal.graph.ids, ∀ n ∈ returnGlobal.graph.node? id,
        ∃ n' ∈ returnGlobalReversed.graph.node? (reverseId id),
          n'.kind = n.kind.map reverseId ∧ n'.referent = n.referent.map reverseId := by
      decide
    exact hnode id (Graph.mem_ids hn) n hn

theorem generate_returnGlobalReversed :
    (returnGlobal.generate ⟨"", "", ""⟩).result =
        .ok "(function()\x7b\n\n\n\tlet _v4 = false;\n\treturn _v4;\n\x7d)();\n" ∧
      (returnGlobalReversed.generate ⟨"", "", ""⟩).result =
        .ok "(function()\x7b\n\n\n\tlet _v4 = false;\n\treturn _v4;\n\x7d)();\n" := by
  have htext : (returnGlobal.generate ⟨"", "", ""⟩).result =
      .ok "(function()\x7b\n\n\n\tlet _v4 = false;\n\treturn _v4;\n\x7d)();\n" := by rfl
  exact ⟨htext, generate_renames renames_returnGlobal htext⟩

end BlockScript.Request
