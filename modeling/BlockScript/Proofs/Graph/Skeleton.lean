import BlockScript.Proofs.Graph.Chain
import BlockScript.Proofs.Script.Skeleton
/-!
# Skeletons of chains

The skeleton of a chain of statements follows the chain, and the chains in the slots of its
statements (`Graph.HasSkeleton`); there is one at most (`Graph.HasSkeleton.unique`).  `Graph.Marked`
says what one statement adds to the marks of those after it.
-/

namespace BlockScript

open Script (Leaf Enclosure Skeleton Mark)

namespace StatementKind

def leaf? : StatementKind → Option Leaf
  | assign _ _ => some .assign
  | addAssign _ _ => some .addAssign
  | breakLoop => some .breakLoop
  | continueLoop => some .continueLoop
  | returnValue none => some .returnNothing
  | returnValue (some _) => some .returnValue
  | builtin _ => some .builtin
  | call _ => some .call
  | _ => none

/-- The kind of a statement with one chain inside, and the head of that chain. -/
def enclosure? : StatementKind → Option (Enclosure × NodeId)
  | whileTrue _ body => some (.whileTrue, body)
  | repeatTimes _ body => some (.repeatTimes, body)
  | compound _ body => some (.compound, body)
  | _ => none

theorem leaf?_of_enclosure? {s : StatementKind} {x : Enclosure × NodeId}
    (h : s.enclosure? = some x) : s.leaf? = none := by
  cases s <;> simp_all [enclosure?, leaf?]

end StatementKind

namespace Graph

inductive HasSkeleton (g : Graph) : NodeId → Skeleton → Prop where
  | done {id : NodeId} (hend : g.statement id = .ok none) : HasSkeleton g id .done
  | leaf {id : NodeId} {s : Statement} {k : Leaf} {r : Skeleton}
      (hs : g.statement id = .ok (some s)) (hkind : s.kind.leaf? = some k)
      (hrest : HasSkeleton g s.next r) : HasSkeleton g id (.leaf k r)
  | branch {id condition onTrue : NodeId} {s : Statement} {t r : Skeleton}
      (hs : g.statement id = .ok (some s)) (hkind : s.kind = .branch condition onTrue none)
      (htrue : HasSkeleton g onTrue t) (hrest : HasSkeleton g s.next r) :
      HasSkeleton g id (.branch t r)
  | branchElse {id condition onTrue onFalse : NodeId} {s : Statement} {t e r : Skeleton}
      (hs : g.statement id = .ok (some s))
      (hkind : s.kind = .branch condition onTrue (some onFalse))
      (htrue : HasSkeleton g onTrue t) (hfalse : HasSkeleton g onFalse e)
      (hrest : HasSkeleton g s.next r) : HasSkeleton g id (.branchElse t e r)
  | enclose {id body : NodeId} {s : Statement} {k : Enclosure} {b r : Skeleton}
      (hs : g.statement id = .ok (some s)) (hkind : s.kind.enclosure? = some (k, body))
      (hbody : HasSkeleton g body b) (hrest : HasSkeleton g s.next r) :
      HasSkeleton g id (.enclose k b r)

variable {g : Graph}

theorem HasSkeleton.unique {id : NodeId} {s t : Skeleton} (h : g.HasSkeleton id s)
    (h' : g.HasSkeleton id t) : s = t := by
  have hsame : ∀ {id a b}, g.statement id = .ok (some a) → g.statement id = .ok (some b) → a = b :=
    fun ha hb => Option.some.inj (Except.ok.inj (ha.symm.trans hb))
  induction h generalizing t with
  | done hend =>
      cases h' with
      | done _ => rfl
      | leaf hs _ _ | branch hs _ _ _ | branchElse hs _ _ _ _ | enclose hs _ _ _ =>
          cases hend.symm.trans hs
  | leaf hs hkind _ ih =>
      cases h' with
      | done hend => cases hend.symm.trans hs
      | leaf hs' hkind' hrest' =>
          obtain rfl := hsame hs hs'
          obtain rfl := Option.some.inj (hkind.symm.trans hkind')
          rw [ih hrest']
      | branch hs' hkind' _ _ | branchElse hs' hkind' _ _ _ =>
          obtain rfl := hsame hs hs'
          rw [hkind'] at hkind
          cases hkind
      | enclose hs' hkind' _ _ =>
          obtain rfl := hsame hs hs'
          cases hkind.symm.trans (StatementKind.leaf?_of_enclosure? hkind')
  | branch hs hkind _ _ iht ihr =>
      cases h' with
      | done hend => cases hend.symm.trans hs
      | branch hs' hkind' htrue' hrest' =>
          obtain rfl := hsame hs hs'
          cases hkind.symm.trans hkind'
          rw [iht htrue', ihr hrest']
      | leaf hs' hkind' _ | branchElse hs' hkind' _ _ _ | enclose hs' hkind' _ _ =>
          obtain rfl := hsame hs hs'
          rw [hkind] at hkind'
          cases hkind'
  | branchElse hs hkind _ _ _ iht ihe ihr =>
      cases h' with
      | done hend => cases hend.symm.trans hs
      | branchElse hs' hkind' htrue' hfalse' hrest' =>
          obtain rfl := hsame hs hs'
          cases hkind.symm.trans hkind'
          rw [iht htrue', ihe hfalse', ihr hrest']
      | leaf hs' hkind' _ | branch hs' hkind' _ _ | enclose hs' hkind' _ _ =>
          obtain rfl := hsame hs hs'
          rw [hkind] at hkind'
          cases hkind'
  | enclose hs hkind _ _ ihb ihr =>
      cases h' with
      | done hend => cases hend.symm.trans hs
      | enclose hs' hkind' hbody' hrest' =>
          obtain rfl := hsame hs hs'
          cases hkind.symm.trans hkind'
          rw [ihb hbody', ihr hrest']
      | leaf hs' hkind' _ =>
          obtain rfl := hsame hs hs'
          cases hkind'.symm.trans (StatementKind.leaf?_of_enclosure? hkind)
      | branch hs' hkind' _ _ | branchElse hs' hkind' _ _ _ =>
          obtain rfl := hsame hs hs'
          rw [hkind'] at hkind
          cases hkind

/-- A statement has these marks in front of those of the statements after it. -/
inductive Marked (g : Graph) : StatementKind → List Mark → Prop where
  | leaf {kind : StatementKind} {k : Leaf} (hkind : kind.leaf? = some k) :
      Marked g kind [.leaf k]
  | branch {condition onTrue : NodeId} {t : Skeleton} (htrue : g.HasSkeleton onTrue t) :
      Marked g (.branch condition onTrue none) (.opens .whenTrue :: (t.marks ++ [.closes]))
  | branchElse {condition onTrue onFalse : NodeId} {t e : Skeleton}
      (htrue : g.HasSkeleton onTrue t) (hfalse : g.HasSkeleton onFalse e) :
      Marked g (.branch condition onTrue (some onFalse))
        (.opens .whenTrue :: (t.marks ++ .closes :: .opens .otherwise :: (e.marks ++ [.closes])))
  | enclose {kind : StatementKind} {k : Enclosure} {body : NodeId} {b : Skeleton}
      (hkind : kind.enclosure? = some (k, body)) (hbody : g.HasSkeleton body b) :
      Marked g kind (.opens (.enclosure k) :: (Skeleton.start k ++ (b.marks ++ [.closes])))

theorem Marked.exists_skeleton {id : NodeId} {s : Statement} {ms : List Mark} {r : Skeleton}
    (h : g.Marked s.kind ms) (hs : g.statement id = .ok (some s)) (hrest : g.HasSkeleton s.next r) :
    ∃ t, g.HasSkeleton id t ∧ t.marks = ms ++ r.marks := by
  generalize hkind : s.kind = kind at h
  cases h with
  | leaf hleaf => exact ⟨_, .leaf hs (hkind ▸ hleaf) hrest, rfl⟩
  | branch htrue => exact ⟨_, .branch hs hkind htrue hrest, by simp [Skeleton.marks]⟩
  | branchElse htrue hfalse =>
      exact ⟨_, .branchElse hs hkind htrue hfalse hrest, by simp [Skeleton.marks]⟩
  | enclose henclosure hbody =>
      exact ⟨_, .enclose hs (hkind ▸ henclosure) hbody hrest, by simp [Skeleton.marks]⟩

end Graph

end BlockScript
