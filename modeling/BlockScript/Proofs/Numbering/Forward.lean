import BlockScript.Proofs.Graph.Fault
import BlockScript.Proofs.Numbering.Program
/-!
# Larger and larger numbers

The trees of a program stand in the sequence of its numbers in pre-order, so a node has a smaller
number than every node below it (`exists_ordered`), and a chain goes through larger and larger
numbers (`Ordered.ascending`).  This is what ends every walk that follows slots.
-/

namespace BlockScript.Numbering

open BlockScript.Graph (PreOrder Traversal FollowsSlots ReadsGrammar)

variable {g : Graph} {ns ns' : Numbering} {id : NodeId} {ids all below : List NodeId}

/-- Both nodes have a number of their own, and the first has the smaller one. -/
def Precedes (ns : Numbering) (a b : NodeId) : Prop :=
  ∃ m k, ns.own? a = some m ∧ ns.own? b = some k ∧ m < k

theorem Indexed.pairwise_precedes (h : Indexed g ns) :
    ns.sequence.toList.Pairwise ns.Precedes := by
  rw [List.pairwise_iff_getElem]
  intro i j hi hj hij
  have hown : ∀ k (hk : k < ns.sequence.toList.length),
      ns.own? ns.sequence.toList[k] = some (k + 1) := fun k hk =>
    (h.own?_eq_some_iff _ _).mpr ⟨k, rfl, List.getElem?_eq_getElem hk⟩
  exact ⟨i + 1, j + 1, hown i hi, hown j hj, by omega⟩

/-! ## The trees in the sequence -/

theorem prefix_complete (ns : Numbering) (id last : NodeId) :
    ns.sequence.toList <+: (ns.complete id last).sequence.toList := by
  unfold complete
  split
  · exact List.prefix_rfl
  · change _ <+: (if (ns.own? last).isSome then ns else ns.push last).sequence.toList
    split
    · exact List.prefix_rfl
    · simp [push]

/-- Numbers for the sake of referents come after those of the trees. -/
theorem Completion.prefix_of (h : Completion g ids ns ns') :
    ns.sequence.toList <+: ns'.sequence.toList := by
  induction h with
  | nil => exact List.prefix_rfl
  | cons _ _ ih => exact (prefix_complete _ _ _).trans ih

/-- The nodes below a node form a tree, and have larger and larger numbers in pre-order. -/
structure Ordered (g : Graph) (ns : Numbering) (id : NodeId) (below : List NodeId) : Prop where
  preOrder : PreOrder g [id] (id :: below)
  nodup : (id :: below).Nodup
  ascends : (id :: below).Pairwise ns.Precedes
  length_le : (id :: below).length ≤ ns.size

/-- The tree of each node that the traversal of a program meets stands in the sequence. -/
theorem exists_ordered {run : NodeId} {roots : List NodeId}
    (htraversal : Traversal g [] (run :: roots) all)
    (hcompletion : Completion g all (ofList g all) ns) (hid : id ∈ all) :
    ∃ below, Ordered g ns id below := by
  obtain ⟨_, hnoted⟩ := noted_of_completion htraversal hcompletion
  obtain ⟨l, hl, hnodup, hsub⟩ := htraversal.exists_tree hid (by simp)
  obtain ⟨_, below, _, _, rfl⟩ := hl.exists_of_singleton
  have hprefix : all <+: ns.sequence.toList := by
    have hsequence := hcompletion.prefix_of
    rwa [sequence_ofList] at hsequence
  have hsequence := hsub.trans hprefix.sublist
  have hlength := hsequence.length_le
  rw [Array.length_toList] at hlength
  exact ⟨below, hl, hnodup, hnoted.indexed.pairwise_precedes.sublist hsequence, hlength⟩

namespace Ordered

variable (h : Ordered g ns id below)
include h

theorem isTree : g.IsTree id :=
  ⟨_, h.preOrder, h.nodup⟩

theorem precedes {x : NodeId} (hx : x ∈ below) : ns.Precedes id x :=
  List.rel_of_pairwise_cons h.ascends hx

theorem length_le_budget : (id :: below).length ≤ g.budget :=
  Nat.le_succ_of_le (h.preOrder.length_le h.nodup)

theorem mem_of_child {n : Node} {x : NodeId} (hn : g.node? id = some n)
    (hx : x ∈ n.kind.children) : x ∈ below := by
  obtain ⟨below', hbelow, hcons⟩ := h.preOrder.slots hn
  obtain rfl := (List.cons.inj hcons).2
  exact hbelow.subset hx

end Ordered

/-! ## Chains -/

/-- A chain goes through larger and larger numbers, and it ends or breaks off after fewer entries
than there are numbers, without running out of steps. -/
structure Ascending {α : Type} (ns : Numbering) (chain : Chain α) : Prop where
  ascends : (chain.entries.map Prod.fst).Pairwise ns.Precedes
  length_lt : chain.entries.length < ns.size
  ending : chain.ending ≠ .error .outOfSteps

theorem Ordered.ascending {α : Type} {read : NodeId → Except GraphFault (Option α)}
    {next : α → NodeId} (h : Ordered g ns id below) (hslots : FollowsSlots g read next)
    (hreads : ReadsGrammar g read) : ns.Ascending (Chain.follow read next g.budget id) := by
  have hsub := h.preOrder.entries_sublist hslots g.budget
  have hlt := h.preOrder.length_entries_lt h.nodup hslots hreads
  have hle := h.length_le
  refine ⟨h.ascends.sublist hsub, by omega, fun heq => ?_⟩
  exact (h.isTree.ofGrammar_of_ending hslots hreads heq).ne_outOfSteps rfl

end BlockScript.Numbering
