import BlockScript.Proofs.Graph.PreOrder
/-!
# Trees in turn

`InTurn g ids l`: following every slot from the nodes `ids` meets the nodes `l` in the order in
which their code is generated, each node after those that its own code is made of and before those
that follow it in its chain.  It is the pre-order rearranged (`InTurn.exists_preOrder`).
-/

namespace BlockScript

def StatementKind.performsCall : StatementKind → Bool
  | builtin _ | call _ => true
  | _ => false

def Expression.performsCall : Expression → Bool
  | builtin _ | call _ => true
  | _ => false

namespace NodeKind

/-- The nodes in a node's slots that its own code is made of. -/
def inside : NodeKind → List NodeId
  | statement s => s.kind.children
  | kind => kind.children

def after : NodeKind → List NodeId
  | statement s => [s.next]
  | _ => []

theorem inside_append_after (kind : NodeKind) : kind.inside ++ kind.after = kind.children := by
  cases kind with
  | statement s => rfl
  | _ => exact List.append_nil _

def performsCall : NodeKind → Bool
  | statement s => s.kind.performsCall
  | expression e => e.performsCall
  | _ => false

end NodeKind

namespace Graph

def performsCall (g : Graph) (id : NodeId) : Bool :=
  (g.node? id).any fun n => n.kind.performsCall

def definitionBody? (g : Graph) (id : NodeId) : Option NodeId :=
  match (g.node? id).map Node.kind with
  | some (.definition d) => some d.body
  | _ => none

def handlerBody? (g : Graph) (id : NodeId) : Option NodeId :=
  match (g.node? id).map Node.kind with
  | some (.handler h) => some h.body
  | _ => none

/-- The nodes met from `ids` through every slot, in the order of their code. -/
inductive InTurn (g : Graph) : List NodeId → List NodeId → Prop where
  | nil : InTurn g [] []
  | cons {id : NodeId} {n : Node} {ids inside after beside : List NodeId}
      (hn : g.node? id = some n) (hinside : InTurn g n.kind.inside inside)
      (hafter : InTurn g n.kind.after after) (hbeside : InTurn g ids beside) :
      InTurn g (id :: ids) (inside ++ id :: (after ++ beside))

variable {g : Graph} {id : NodeId} {n : Node} {ids l : List NodeId}

namespace InTurn

theorem append {others m : List NodeId} (h : InTurn g ids l) (hothers : InTurn g others m) :
    InTurn g (ids ++ others) (l ++ m) := by
  induction h with
  | nil => exact hothers
  | cons hn hinside hafter _ _ _ ih =>
      have hl := InTurn.cons hn hinside hafter ih
      simpa using hl

theorem exists_preOrder (h : InTurn g ids l) : ∃ m, PreOrder g ids m ∧ m.Perm l := by
  induction h with
  | nil => exact ⟨[], .nil, .nil⟩
  | @cons id n ids inside after beside hn _ _ _ ihinside ihafter ihbeside =>
      obtain ⟨m₁, hm₁, hperm₁⟩ := ihinside
      obtain ⟨m₂, hm₂, hperm₂⟩ := ihafter
      obtain ⟨m₃, hm₃, hperm₃⟩ := ihbeside
      have hbelow : PreOrder g n.kind.children (m₁ ++ m₂) := by
        rw [← n.kind.inside_append_after]
        exact hm₁.append hm₂
      refine ⟨id :: (m₁ ++ m₂ ++ m₃), .cons hn hbelow hm₃, ?_⟩
      have hparts : (m₁ ++ m₂ ++ m₃).Perm (inside ++ (after ++ beside)) := by
        rw [List.append_assoc]
        exact hperm₁.append (hperm₂.append hperm₃)
      exact (hparts.cons id).trans List.perm_middle.symm

end InTurn

end Graph

end BlockScript
