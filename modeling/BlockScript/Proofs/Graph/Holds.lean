import BlockScript.Proofs.Graph.PreOrder
import Mathlib.Data.List.Pairwise
import Mathlib.Logic.Relation
/-!
# Nodes below nodes

`Holds g id x`: slots lead from `id` to `x`, or they are the same.  The nodes that are met from
some nodes are those and the nodes in the slots of all that are met (`PreOrder.perm_flatMap`).  So
if no node is met twice, each stands in one slot at most, and of two nodes that hold a third one
holds the other (`Apart.holds_or_holds`).
-/

namespace BlockScript.Graph

variable {g : Graph} {id a b c p q x : NodeId} {ids l nodes : List NodeId}

def children (g : Graph) (id : NodeId) : List NodeId :=
  match g.node? id with
  | some n => n.kind.children
  | none => []

theorem children_eq {n : Node} (hn : g.node? id = some n) : g.children id = n.kind.children := by
  rw [children, hn]

/-- Slots lead from the first node to the second, or they are the same. -/
def Holds (g : Graph) (id x : NodeId) : Prop :=
  Relation.ReflTransGen (fun a b => b ∈ g.children a) id x

namespace Holds

theorem refl (id : NodeId) : g.Holds id id :=
  Relation.ReflTransGen.refl

theorem trans (h : g.Holds a b) (h' : g.Holds b c) : g.Holds a c :=
  Relation.ReflTransGen.trans h h'

theorem mem (h : g.Holds id x) (hclosed : ∀ y ∈ nodes, ∀ c ∈ g.children y, c ∈ nodes)
    (hid : id ∈ nodes) : x ∈ nodes := by
  induction h with
  | refl => exact hid
  | tail _ hchild ih => exact hclosed _ ih _ hchild

end Holds

namespace PreOrder

theorem children_mem (h : PreOrder g ids l) : ∀ y ∈ l, ∀ c ∈ g.children y, c ∈ l := by
  intro y hy c hc
  obtain ⟨n, hn⟩ := h.node_of_mem hy
  rw [children_eq hn] at hc
  exact h.mem_of_child hy hn hc

theorem mem_of_holds (h : PreOrder g ids l) (hid : id ∈ ids) (hx : g.Holds id x) : x ∈ l :=
  hx.mem h.children_mem (h.subset hid)

/-- The nodes that are met are those that the first ones hold. -/
theorem exists_holds (h : PreOrder g ids l) (hx : x ∈ l) : ∃ id ∈ ids, g.Holds id x := by
  induction h with
  | nil => cases hx
  | @cons id n ids below beside hn _ _ ihbelow ihbeside =>
      simp only [List.mem_cons, List.mem_append] at hx
      rcases hx with rfl | hx | hx
      · exact ⟨x, List.mem_cons_self, .refl x⟩
      · obtain ⟨child, hchild, hholds⟩ := ihbelow hx
        rw [← children_eq hn] at hchild
        exact ⟨id, List.mem_cons_self, Relation.ReflTransGen.head hchild hholds⟩
      · obtain ⟨other, hother, hholds⟩ := ihbeside hx
        exact ⟨other, List.mem_cons_of_mem id hother, hholds⟩

theorem holds_of_singleton (h : PreOrder g [id] l) (hx : x ∈ l) : g.Holds id x := by
  obtain ⟨other, hother, hholds⟩ := h.exists_holds hx
  rwa [List.mem_singleton.mp hother] at hholds

/-- The nodes that are met are the first ones and those in the slots of nodes that are met. -/
theorem perm_flatMap (h : PreOrder g ids l) : l.Perm (ids ++ l.flatMap g.children) := by
  induction h with
  | nil => exact .nil
  | @cons id n ids below beside hn _ _ ihbelow ihbeside =>
      rw [List.flatMap_cons, List.flatMap_append, children_eq hn, List.cons_append]
      refine List.Perm.cons id (List.perm_iff_count.mpr fun c => ?_)
      have hbelow := ihbelow.count_eq c
      have hbeside := ihbeside.count_eq c
      simp only [List.count_append] at hbelow hbeside ⊢
      omega

end PreOrder

/-- Nodes with all that they hold, each in one slot at most. -/
structure Apart (g : Graph) (nodes : List NodeId) : Prop where
  tree : ∀ x ∈ nodes, IsTree g x
  child : ∀ x ∈ nodes, ∀ c ∈ g.children x, c ∈ nodes
  parent : ∀ p ∈ nodes, ∀ q ∈ nodes, ∀ c, c ∈ g.children p → c ∈ g.children q → p = q

theorem PreOrder.apart (h : PreOrder g ids l) (hnodup : l.Nodup) : Apart g l := by
  refine ⟨fun x hx => ?_, h.children_mem, fun p hp q hq c hcp hcq => ?_⟩
  · obtain ⟨lx, hlx, hsub⟩ := h.exists_sublist hx
    exact ⟨lx, hlx, hnodup.sublist hsub⟩
  · by_contra hne
    have hslots : (l.flatMap g.children).Nodup :=
      (h.perm_flatMap.nodup_iff.mp hnodup).of_append_right
    have hsymm : Std.Symm (Function.onFun List.Disjoint g.children) :=
      ⟨fun _ _ => List.disjoint_symm⟩
    exact (List.nodup_flatMap.mp hslots).2.forall hp hq hne hcp hcq

theorem IsTree.antisymm (h : IsTree g a) (hab : g.Holds a b) (hba : g.Holds b a) : a = b := by
  obtain ⟨l, hl, hnodup⟩ := h
  obtain ⟨n, below, hn, hbelow, rfl⟩ := hl.exists_of_singleton
  rcases List.mem_cons.mp (hl.mem_of_holds List.mem_cons_self hab) with heq | hb
  · exact heq.symm
  · exact absurd (hba.mem hbelow.children_mem hb) (List.nodup_cons.mp hnodup).1

namespace Apart

variable (h : Apart g nodes)
include h

theorem mem_of_holds (ha : a ∈ nodes) (hx : g.Holds a x) : x ∈ nodes :=
  hx.mem h.child ha

theorem holds_or_holds (ha : a ∈ nodes) (hb : b ∈ nodes) (hax : g.Holds a x) (hbx : g.Holds b x) :
    g.Holds a b ∨ g.Holds b a := by
  induction hax with
  | refl => exact .inr hbx
  | @tail p c hap hpc ih =>
      cases hbx with
      | refl => exact .inl (hap.tail hpc)
      | @tail q _ hbq hqc =>
          -- The slot that both ways lead through.
          obtain rfl := h.parent p (h.mem_of_holds ha hap) q (h.mem_of_holds hb hbq) c hpc hqc
          exact ih hbq

end Apart

end BlockScript.Graph
