import BlockScript.Graph.Basic
import Mathlib.Data.List.Nodup
import Mathlib.Data.List.Perm.Subperm
/-!
# Trees of a graph

`PreOrder g ids l`: following every slot from the nodes `ids` meets the nodes `l`, each node before
those in its slots.  A derivation is finite, so nothing met stands below itself, and every node met
exists.

* `PreOrder.length_le` — without repetition there are at most as many nodes as the graph has;
* `IsTree.induction` — what holds of a node as soon as it holds of the nodes below it holds of the
  root of every tree.
-/

namespace BlockScript.Graph

/-- The nodes met from `ids` through every slot, in pre-order. -/
inductive PreOrder (g : Graph) : List NodeId → List NodeId → Prop where
  | nil : PreOrder g [] []
  | cons {id : NodeId} {n : Node} {ids below beside : List NodeId} (hn : g.node? id = some n)
      (hbelow : PreOrder g n.kind.children below) (hbeside : PreOrder g ids beside) :
      PreOrder g (id :: ids) (id :: (below ++ beside))

variable {g : Graph} {id : NodeId} {ids l : List NodeId}

namespace PreOrder

theorem append {others m : List NodeId} (h : PreOrder g ids l) (hothers : PreOrder g others m) :
    PreOrder g (ids ++ others) (l ++ m) := by
  induction h with
  | nil => exact hothers
  | cons hn hbelow _ _ ih =>
      have hl := PreOrder.cons hn hbelow ih
      simpa using hl

theorem exists_of_append {others : List NodeId} (h : PreOrder g (ids ++ others) l) :
    ∃ a b, PreOrder g ids a ∧ PreOrder g others b ∧ l = a ++ b := by
  induction ids generalizing l with
  | nil => exact ⟨[], l, .nil, h, rfl⟩
  | cons id ids ih =>
      cases h with
      | cons hn hbelow hbeside =>
          obtain ⟨a, b, ha, hb, rfl⟩ := ih hbeside
          exact ⟨_, b, .cons hn hbelow ha, hb, by simp⟩

theorem exists_of_cons (h : PreOrder g (id :: ids) l) :
    ∃ a b, PreOrder g [id] a ∧ PreOrder g ids b ∧ l = a ++ b := by
  have h' : PreOrder g ([id] ++ ids) l := h
  exact exists_of_append h'

theorem exists_of_singleton (h : PreOrder g [id] l) :
    ∃ n below, g.node? id = some n ∧ PreOrder g n.kind.children below ∧ l = id :: below := by
  cases h with
  | cons hn hbelow hbeside =>
      cases hbeside
      exact ⟨_, _, hn, hbelow, by simp⟩

theorem slots {n : Node} (h : PreOrder g [id] l) (hn : g.node? id = some n) :
    ∃ below, PreOrder g n.kind.children below ∧ l = id :: below := by
  obtain ⟨m, below, hm, hbelow, hl⟩ := exists_of_singleton h
  obtain rfl : n = m := Option.some.inj (hn.symm.trans hm)
  exact ⟨below, hbelow, hl⟩

theorem unique {m : List NodeId} (h : PreOrder g ids l) (h' : PreOrder g ids m) : l = m := by
  induction h generalizing m with
  | nil => cases h'; rfl
  | cons hn _ _ ihbelow ihbeside =>
      cases h' with
      | cons hn' hbelow' hbeside' =>
          obtain rfl := Option.some.inj (hn.symm.trans hn')
          rw [ihbelow hbelow', ihbeside hbeside']

theorem node_of_mem {x : NodeId} (h : PreOrder g ids l) (hx : x ∈ l) :
    ∃ n, g.node? x = some n := by
  induction h with
  | nil => cases hx
  | cons hn _ _ ihbelow ihbeside =>
      simp only [List.mem_cons, List.mem_append] at hx
      rcases hx with rfl | hx | hx
      · exact ⟨_, hn⟩
      · exact ihbelow hx
      · exact ihbeside hx

theorem subset (h : PreOrder g ids l) : ids ⊆ l := by
  induction h with
  | nil => exact List.Subset.refl []
  | cons _ _ _ _ ih =>
      intro x hx
      rcases List.mem_cons.mp hx with rfl | hx
      · simp
      · simp [ih hx]

/-- Each node met has a tree of its own among the nodes met. -/
theorem exists_sublist {x : NodeId} (h : PreOrder g ids l) (hx : x ∈ l) :
    ∃ lx, PreOrder g [x] lx ∧ lx.Sublist l := by
  induction h with
  | nil => cases hx
  | @cons id n ids below beside hn hbelow _ ihbelow ihbeside =>
      simp only [List.mem_cons, List.mem_append] at hx
      rcases hx with rfl | hx | hx
      · refine ⟨x :: (below ++ []), .cons hn hbelow .nil, ?_⟩
        simp
      · obtain ⟨lx, hlx, hsub⟩ := ihbelow hx
        exact ⟨lx, hlx, (hsub.trans (List.sublist_append_left _ _)).cons _⟩
      · obtain ⟨lx, hlx, hsub⟩ := ihbeside hx
        exact ⟨lx, hlx, (hsub.trans (List.sublist_append_right _ _)).cons _⟩

theorem child {n : Node} {c : NodeId} (h : PreOrder g [id] l) (hn : g.node? id = some n)
    (hc : c ∈ n.kind.children) :
    ∃ lc, PreOrder g [c] lc ∧ lc.Sublist l ∧ lc.length < l.length := by
  obtain ⟨below, hbelow, rfl⟩ := h.slots hn
  obtain ⟨lc, hlc, hsub⟩ := hbelow.exists_sublist (hbelow.subset hc)
  exact ⟨lc, hlc, hsub.cons id, Nat.lt_succ_of_le hsub.length_le⟩

theorem mem_of_child {n : Node} {x c : NodeId} (h : PreOrder g ids l) (hx : x ∈ l)
    (hn : g.node? x = some n) (hc : c ∈ n.kind.children) : c ∈ l := by
  obtain ⟨lx, hlx, hsub⟩ := h.exists_sublist hx
  obtain ⟨lc, hlc, hsub', _⟩ := hlx.child hn hc
  exact hsub.subset (hsub'.subset (hlc.subset (by simp)))

end PreOrder

theorem length_le_size {l : List NodeId} (hnodup : l.Nodup)
    (hl : ∀ x ∈ l, ∃ n, g.node? x = some n) : l.length ≤ g.size := by
  have hmap : (l.map NodeId.index).Nodup :=
    hnodup.map_on fun _ _ _ _ h => NodeId.index_injective h
  have hsub : l.map NodeId.index ⊆ List.range g.size := by
    intro i hi
    obtain ⟨x, hx, rfl⟩ := List.mem_map.mp hi
    obtain ⟨n, hn⟩ := hl x hx
    exact List.mem_range.mpr (index_lt_size hn)
  have hle := (List.subperm_of_subset hmap hsub).length_le
  simpa using hle

theorem PreOrder.length_le (h : PreOrder g ids l) (hnodup : l.Nodup) : l.length ≤ g.size :=
  length_le_size hnodup fun _ hx => h.node_of_mem hx

/-- The nodes below `id` form a tree: none is met twice. -/
def IsTree (g : Graph) (id : NodeId) : Prop :=
  ∃ l, PreOrder g [id] l ∧ l.Nodup

namespace IsTree

theorem node (h : IsTree g id) : ∃ n, g.node? id = some n := by
  obtain ⟨l, hl, _⟩ := h
  exact hl.node_of_mem (hl.subset (by simp))

theorem child {n : Node} {c : NodeId} (h : IsTree g id) (hn : g.node? id = some n)
    (hc : c ∈ n.kind.children) : IsTree g c := by
  obtain ⟨l, hl, hnodup⟩ := h
  obtain ⟨lc, hlc, hsub, _⟩ := hl.child hn hc
  exact ⟨lc, hlc, hnodup.sublist hsub⟩

theorem induction {motive : NodeId → Prop}
    (step : ∀ id below, PreOrder g [id] (id :: below) → (id :: below).Nodup →
      (∀ x ∈ below, motive x) → motive id)
    (h : IsTree g id) : motive id := by
  obtain ⟨l, hl, hnodup⟩ := h
  -- Each tree below is shorter.
  induction hk : l.length using Nat.strongRecOn generalizing id l with
  | _ k ih =>
      obtain ⟨n, below, _, hbelow, rfl⟩ := hl.exists_of_singleton
      apply step id below hl hnodup
      intro x hx
      obtain ⟨lx, hlx, hsub⟩ := hbelow.exists_sublist hx
      have hlt : lx.length < k := by
        have hle := hsub.length_le
        simp only [List.length_cons] at hk
        omega
      exact ih lx.length hlt lx hlx (hnodup.of_cons.sublist hsub) rfl

end IsTree

end BlockScript.Graph
