import BlockScript.Proofs.Graph.Holds
import BlockScript.Proofs.Numbering.Program
/-!
# The order of the roots

Walking the trees of the roots in turn passes over a root that stands in a tree before it, but does
not enter a tree that a root before it stands in.  So of two orders in which the same roots are
walked one can fail where the other does not.  The walk never fails for an order in which a root
comes after one that holds it, if there is one (`OutermostFirst`), and it fails for each other one
(`Traversal.exists_perm_iff`).
-/

namespace BlockScript

namespace Graph

variable {g : Graph} {x y : NodeId} {roots before after others met mid nodes all : List NodeId}

/-- A node that stands before another that holds it stands after a third that holds it. -/
def OutermostFirst (g : Graph) (roots : List NodeId) : Prop :=
  ∀ before x after, roots = before ++ x :: after →
    ∀ y ∈ after, y ≠ x → g.Holds y x → ∃ z ∈ before, g.Holds z x

namespace Traversal

theorem exists_of_append (h : Traversal g met (before ++ after) all) :
    ∃ mid, Traversal g met before mid ∧ Traversal g mid after all := by
  induction before generalizing met with
  | nil => exact ⟨met, .nil, h⟩
  | cons root before ih =>
      cases h with
      | skip hmem hrest =>
          obtain ⟨mid, hbefore, hafter⟩ := ih hrest
          exact ⟨mid, .skip hmem hbefore, hafter⟩
      | tree hmem htree hnodup hrest =>
          obtain ⟨mid, hbefore, hafter⟩ := ih hrest
          exact ⟨mid, .tree hmem htree hnodup hbefore, hafter⟩

/-- What is met is the trees of those roots that are not passed over. -/
theorem exists_preOrder (h : Traversal g met roots all) :
    ∃ tops l, tops ⊆ roots ∧ PreOrder g tops l ∧ all = met ++ l := by
  induction h with
  | nil => exact ⟨[], [], List.Subset.refl [], .nil, (List.append_nil _).symm⟩
  | skip _ _ ih =>
      obtain ⟨tops, l, hsub, hl, heq⟩ := ih
      exact ⟨tops, l, List.subset_cons_of_subset _ hsub, hl, heq⟩
  | @tree met roots all l root _ htree _ _ ih =>
      obtain ⟨tops, l', hsub, hl', rfl⟩ := ih
      exact ⟨root :: tops, l ++ l', List.cons_subset_cons root hsub, htree.append hl', by simp⟩

theorem exists_holds (h : Traversal g [] roots all) (hx : x ∈ all) :
    ∃ root ∈ roots, g.Holds root x := by
  obtain ⟨tops, l, hsub, hl, rfl⟩ := h.exists_preOrder
  obtain ⟨root, hroot, hholds⟩ := hl.exists_holds hx
  exact ⟨root, hsub hroot, hholds⟩

theorem nodup (h : Traversal g [] roots all) : all.Nodup :=
  (h.distinct ⟨List.nodup_nil, List.forall_mem_nil _⟩).nodup

theorem apart (h : Traversal g [] roots all) : Apart g all := by
  obtain ⟨tops, l, _, hl, rfl⟩ := h.exists_preOrder
  exact hl.apart h.nodup

theorem mem_of_holds (h : Traversal g met roots all) (hnodup : all.Nodup) (hx : x ∈ met)
    (hy : y ∈ all) (hholds : g.Holds y x) : y ∈ met := by
  obtain ⟨tops, l, _, hl, rfl⟩ := h.exists_preOrder
  rcases List.mem_append.mp hy with hy | hy
  · exact hy
  · have hxl : x ∈ l := hholds.mem hl.children_mem hy
    exact absurd hxl (List.disjoint_of_nodup_append hnodup hx)

theorem outermostFirst (h : Traversal g [] roots all) : OutermostFirst g roots := by
  rintro before x after rfl y hy hne hholds
  obtain ⟨mid, hbefore, hrest⟩ := h.exists_of_append
  have hyall : y ∈ all := hrest.root_mem (List.mem_cons_of_mem x hy)
  cases hrest with
  | skip hmem _ => exact hbefore.exists_holds hmem
  | @tree _ _ _ l _ _ htree _ hafter =>
      have hx : x ∈ l := htree.subset List.mem_cons_self
      rcases List.mem_append.mp
        (hafter.mem_of_holds h.nodup (List.mem_append_right mid hx) hyall hholds) with hy | hy
      · obtain ⟨z, hz, hzy⟩ := hbefore.exists_holds hy
        exact ⟨z, hz, hzy.trans hholds⟩
      · have hxy := htree.holds_of_singleton hy
        exact absurd ((h.apart.tree y hyall).antisymm hholds hxy) hne

end Traversal

/-! ## Walking the outermost roots first -/

structure Walked (g : Graph) (roots before met : List NodeId) : Prop where
  nodup : met.Nodup
  mem_iff : ∀ x, x ∈ met ↔ ∃ z ∈ before, g.Holds z x
  /-- No other root holds any of it. -/
  holder : ∀ y ∈ roots, ∀ x ∈ met, g.Holds y x → y ∈ met

namespace Walked

theorem nil (g : Graph) (roots : List NodeId) : Walked g roots [] [] :=
  ⟨List.nodup_nil, by simp, by simp⟩

variable (h : Walked g roots before met)
include h

theorem mem_of_holds (hy : y ∈ met) (hx : g.Holds y x) : x ∈ met := by
  obtain ⟨z, hz, hzy⟩ := (h.mem_iff y).mp hy
  exact (h.mem_iff x).mpr ⟨z, hz, hzy.trans hx⟩

theorem skip (hx : x ∈ met) : Walked g roots (before ++ [x]) met := by
  refine ⟨h.nodup, fun w => ⟨fun hw => ?_, ?_⟩, h.holder⟩
  · obtain ⟨z, hz, hzw⟩ := (h.mem_iff w).mp hw
    exact ⟨z, List.mem_append_left _ hz, hzw⟩
  · rintro ⟨z, hz, hzw⟩
    rcases List.mem_append.mp hz with hz | hz
    · exact (h.mem_iff w).mpr ⟨z, hz, hzw⟩
    · obtain rfl := List.mem_singleton.mp hz
      exact h.mem_of_holds hx hzw

theorem tree (hapart : Apart g nodes) (hroots : roots ⊆ nodes) (horder : OutermostFirst g roots)
    (hsplit : roots = before ++ x :: after) (hx : x ∉ met) :
    ∃ l, PreOrder g [x] l ∧ (met ++ l).Nodup ∧ Walked g roots (before ++ [x]) (met ++ l) := by
  have hxroots : x ∈ roots := by simp [hsplit]
  obtain ⟨l, hl, hnodup⟩ := hapart.tree x (hroots hxroots)
  have hdisjoint : List.Disjoint met l := fun w hw hwl =>
    hx (h.holder x hxroots w hw (hl.holds_of_singleton hwl))
  -- Of the roots that hold the next one, only those come after it that are the same.
  have houter : ∀ y ∈ roots, g.Holds y x → y = x := by
    intro y hy hyx
    by_contra hne
    refine hx ((h.mem_iff x).mpr ?_)
    rw [hsplit, List.mem_append, List.mem_cons] at hy
    rcases hy with hy | hy | hy
    · exact ⟨y, hy, hyx⟩
    · exact absurd hy hne
    · exact horder before x after hsplit y hy hne hyx
  refine ⟨l, hl, h.nodup.append hnodup hdisjoint, h.nodup.append hnodup hdisjoint, fun w => ?_,
    fun y hy w hw hyw => ?_⟩
  · rw [List.mem_append, h.mem_iff]
    constructor
    · rintro (⟨z, hz, hzw⟩ | hw)
      · exact ⟨z, List.mem_append_left _ hz, hzw⟩
      · exact ⟨x, by simp, hl.holds_of_singleton hw⟩
    · rintro ⟨z, hz, hzw⟩
      rcases List.mem_append.mp hz with hz | hz
      · exact .inl ⟨z, hz, hzw⟩
      · exact .inr (hl.mem_of_holds (List.mem_singleton.mpr (List.mem_singleton.mp hz)) hzw)
  · rcases List.mem_append.mp hw with hw | hw
    · exact List.mem_append_left l (h.holder y hy w hw hyw)
    · rcases hapart.holds_or_holds (hroots hxroots) (hroots hy) (hl.holds_of_singleton hw) hyw with
        hxy | hyx
      · exact List.mem_append_right met (hl.mem_of_holds List.mem_cons_self hxy)
      · rw [houter y hy hyx]
        exact List.mem_append_right met (hl.subset List.mem_cons_self)

theorem exists_traversal (hapart : Apart g nodes) (hroots : roots ⊆ nodes)
    (horder : OutermostFirst g roots) (hsplit : roots = before ++ after) :
    ∃ all, Traversal g met after all := by
  induction after generalizing before met with
  | nil => exact ⟨met, .nil⟩
  | cons x after ih =>
      have hsplit' : roots = (before ++ [x]) ++ after := by simp [hsplit]
      by_cases hx : x ∈ met
      · obtain ⟨all, hall⟩ := ih (h.skip hx) hsplit'
        exact ⟨all, .skip hx hall⟩
      · obtain ⟨l, hl, hnodup, hnext⟩ := h.tree hapart hroots horder hsplit hx
        obtain ⟨all, hall⟩ := ih hnext hsplit'
        exact ⟨all, .tree hx hl hnodup hall⟩

end Walked

/-- Roots that can be walked in one order can be walked in another exactly if there the outermost
come first. -/
theorem Traversal.exists_perm_iff (h : Traversal g [] roots all) (hperm : roots.Perm others) :
    (∃ met, Traversal g [] others met) ↔ OutermostFirst g others := by
  constructor
  · rintro ⟨met, hmet⟩
    exact hmet.outermostFirst
  · intro horder
    have hothers : others ⊆ all := fun x hx => h.root_mem (hperm.mem_iff.mpr hx)
    exact (Walked.nil g others).exists_traversal h.apart hothers horder rfl

theorem Traversal.mem_of_perm (h : Traversal g [] roots all) (h' : Traversal g [] others met)
    (hperm : roots.Perm others) (hx : x ∈ met) : x ∈ all := by
  obtain ⟨root, hroot, hholds⟩ := h'.exists_holds hx
  exact h.apart.mem_of_holds (h.root_mem (hperm.mem_iff.mpr hroot)) hholds

end Graph

namespace Numbering

open BlockScript.Graph (Traversal LeadsTo OutermostFirst)

variable {g : Graph} {run : NodeId} {roots others : List NodeId}

/-- A program can be numbered if no node is met twice and the referents of each lead to an end. -/
theorem exists_ofProgram_iff :
    (∃ ns, ofProgram g run roots = .ok ns) ↔
      ∃ met, Traversal g [] (run :: roots) met ∧ ∀ id ∈ met, ∃ last, LeadsTo g id last := by
  constructor
  · rintro ⟨ns, hns⟩
    obtain ⟨met, hmet, hcompletion⟩ := ofProgram_eq_ok_iff.mp hns
    exact ⟨met, hmet, exists_completion_iff.mp ⟨ns, hcompletion⟩⟩
  · rintro ⟨met, hmet, hleads⟩
    obtain ⟨ns, hcompletion⟩ := exists_completion_iff.mpr hleads
    exact ⟨ns, ofProgram_eq_ok_iff.mpr ⟨met, hmet, hcompletion⟩⟩

/-- In a program that can be numbered the outermost roots come first, after the node to run. -/
theorem outermostFirst_of_exists (h : ∃ ns, ofProgram g run roots = .ok ns) :
    OutermostFirst g (run :: roots) := by
  obtain ⟨met, hmet, _⟩ := exists_ofProgram_iff.mp h
  exact hmet.outermostFirst

/-- With its roots in another order the program can be numbered if there, too, the outermost come
first. -/
theorem exists_ofProgram_of_perm (h : ∃ ns, ofProgram g run roots = .ok ns)
    (hperm : roots.Perm others) (horder : OutermostFirst g (run :: others)) :
    ∃ ns, ofProgram g run others = .ok ns := by
  obtain ⟨all, hall, hleads⟩ := exists_ofProgram_iff.mp h
  have hperm' : (run :: roots).Perm (run :: others) := hperm.cons run
  obtain ⟨met, hmet⟩ := (hall.exists_perm_iff hperm').mpr horder
  exact exists_ofProgram_iff.mpr
    ⟨met, hmet, fun id hid => hleads id (hall.mem_of_perm hmet hperm' hid)⟩

end Numbering

end BlockScript
