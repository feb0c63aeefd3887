import BlockScript.Proofs.Graph.PreOrder
/-!
# Trees in post-order

`PostOrder g ids l`: following every slot from the nodes `ids` meets the nodes `l`, each node after
those in its slots.  It is the pre-order rearranged (`PreOrder.perm`).
-/

namespace BlockScript.Graph

/-- The nodes met from `ids` through every slot, in post-order. -/
inductive PostOrder (g : Graph) : List NodeId → List NodeId → Prop where
  | nil : PostOrder g [] []
  | cons {id : NodeId} {n : Node} {ids below beside : List NodeId} (hn : g.node? id = some n)
      (hbelow : PostOrder g n.kind.children below) (hbeside : PostOrder g ids beside) :
      PostOrder g (id :: ids) (below ++ id :: beside)

variable {g : Graph} {id : NodeId} {ids l post : List NodeId}

namespace PostOrder

theorem append {others m : List NodeId} (h : PostOrder g ids l) (hothers : PostOrder g others m) :
    PostOrder g (ids ++ others) (l ++ m) := by
  induction h with
  | nil => exact hothers
  | cons hn hbelow _ _ ih =>
      have hl := PostOrder.cons hn hbelow ih
      simpa using hl

theorem singleton {n : Node} {below : List NodeId} (hn : g.node? id = some n)
    (hbelow : PostOrder g n.kind.children below) : PostOrder g [id] (below ++ [id]) :=
  .cons hn hbelow .nil

end PostOrder

theorem PreOrder.perm (h : PreOrder g ids l) (hpost : PostOrder g ids post) : l.Perm post := by
  induction h generalizing post with
  | nil =>
      cases hpost
      exact .nil
  | cons hn _ _ ihbelow ihbeside =>
      cases hpost with
      | cons hn' hbelow' hbeside' =>
          obtain rfl := Option.some.inj (hn.symm.trans hn')
          have hparts := (ihbelow hbelow').append (ihbeside hbeside')
          exact (hparts.cons _).trans List.perm_middle.symm

theorem IsTree.nodup_postOrder (h : IsTree g id) (hpost : PostOrder g [id] post) : post.Nodup := by
  obtain ⟨l, hl, hnodup⟩ := h
  exact (hl.perm hpost).nodup_iff.mp hnodup

end BlockScript.Graph
