import BlockScript.Numbering
import BlockScript.Proofs.Graph.PreOrder
import Mathlib.Data.List.Induction
/-!
# What the walk numbers

The numbers of a numbering are the positions of its sequence, counted from one (`Indexed`).  The
walk with a stack numbers the pre-order of the stack (`walk_eq_ok_iff`), and walking the trees of
the roots in turn is a `Traversal`: a root met before is passed over, and no other node is met
twice.
-/

namespace BlockScript

namespace Graph

/-- The nodes met from the roots in turn, after those in the first list were met.  A root among
them is passed over. -/
inductive Traversal (g : Graph) : List NodeId → List NodeId → List NodeId → Prop where
  | nil {met : List NodeId} : Traversal g met [] met
  | skip {met roots all : List NodeId} {root : NodeId} (hmem : root ∈ met)
      (hrest : Traversal g met roots all) : Traversal g met (root :: roots) all
  | tree {met roots all l : List NodeId} {root : NodeId} (hmem : root ∉ met)
      (htree : PreOrder g [root] l) (hnodup : (met ++ l).Nodup)
      (hrest : Traversal g (met ++ l) roots all) : Traversal g met (root :: roots) all

structure Distinct (g : Graph) (l : List NodeId) : Prop where
  nodup : l.Nodup
  node : ∀ x ∈ l, ∃ n, g.node? x = some n

theorem Distinct.length_le {g : Graph} {l : List NodeId} (h : Distinct g l) : l.length ≤ g.size :=
  length_le_size h.nodup h.node

theorem Distinct.append {g : Graph} {l stack m : List NodeId} (h : Distinct g l)
    (hm : PreOrder g stack m) (hnodup : (l ++ m).Nodup) : Distinct g (l ++ m) := by
  refine ⟨hnodup, fun x hx => ?_⟩
  rcases List.mem_append.mp hx with hx | hx
  · exact h.node x hx
  · exact hm.node_of_mem hx

namespace Traversal

variable {g : Graph} {met roots all : List NodeId}

theorem prefix_of (h : Traversal g met roots all) : met <+: all := by
  induction h with
  | nil => exact List.prefix_rfl
  | skip _ _ ih => exact ih
  | tree _ _ _ _ ih => exact (List.prefix_append _ _).trans ih

theorem distinct (h : Traversal g met roots all) (hmet : Distinct g met) : Distinct g all := by
  induction h with
  | nil => exact hmet
  | skip _ _ ih => exact ih hmet
  | tree _ htree hnodup _ ih => exact ih (hmet.append htree hnodup)

theorem root_mem {root : NodeId} (h : Traversal g met roots all) (hroot : root ∈ roots) :
    root ∈ all := by
  induction h with
  | nil => cases hroot
  | skip hmem hrest ih =>
      rcases List.mem_cons.mp hroot with rfl | hroot
      · exact hrest.prefix_of.subset hmem
      · exact ih hroot
  | tree _ htree _ hrest ih =>
      rcases List.mem_cons.mp hroot with rfl | hroot
      · refine hrest.prefix_of.subset (List.mem_append_right _ ?_)
        exact htree.subset (List.mem_singleton_self _)
      · exact ih hroot

/-- What was not met before stands in a tree whose nodes are met in the order of the tree. -/
theorem exists_tree {x : NodeId} (h : Traversal g met roots all) (hx : x ∈ all)
    (hmet : x ∉ met) : ∃ l, PreOrder g [x] l ∧ l.Nodup ∧ l.Sublist all := by
  induction h with
  | nil => exact absurd hx hmet
  | skip _ _ ih => exact ih hx hmet
  | @tree met _ _ l _ _ htree hnodup hrest ih =>
      by_cases hxl : x ∈ l
      · obtain ⟨lx, hlx, hsub⟩ := htree.exists_sublist hxl
        have hl : l.Sublist (met ++ l) := List.sublist_append_right met l
        refine ⟨lx, hlx, (hnodup.of_append_right).sublist hsub, ?_⟩
        exact (hsub.trans hl).trans hrest.prefix_of.sublist
      · exact ih hx (by simp [hmet, hxl])

end Traversal

end Graph

namespace Numbering

open BlockScript.Graph (PreOrder Traversal Distinct)

variable {g : Graph}

/-- The numbers are the positions in the sequence, from one, and both tables have an entry for each
node of the graph. -/
structure Indexed (g : Graph) (ns : Numbering) : Prop where
  serials_size : ns.serials.size = g.size
  referents_size : ns.referents.size = g.size
  own?_eq_some_iff : ∀ id k,
    ns.own? id = some k ↔ ∃ i, k = i + 1 ∧ ns.sequence.toList[i]? = some id

theorem indexed_empty (g : Graph) : Indexed g (empty g) := by
  refine ⟨by simp [empty], by simp [empty], fun id k => ?_⟩
  rw [own?_empty]
  simp [empty]

namespace Indexed

variable {ns : Numbering} (h : Indexed g ns)
include h

theorem own?_isSome_iff {id : NodeId} : (ns.own? id).isSome ↔ id ∈ ns.sequence.toList := by
  rw [Option.isSome_iff_exists, List.mem_iff_getElem?]
  constructor
  · rintro ⟨k, hk⟩
    obtain ⟨i, _, hi⟩ := (h.own?_eq_some_iff id k).mp hk
    exact ⟨i, hi⟩
  · rintro ⟨i, hi⟩
    exact ⟨i + 1, (h.own?_eq_some_iff id (i + 1)).mpr ⟨i, rfl, hi⟩⟩

theorem own?_eq_none_iff {id : NodeId} : ns.own? id = none ↔ id ∉ ns.sequence.toList := by
  rw [← h.own?_isSome_iff]
  simp

theorem own?_injective {a b : NodeId} {k : Nat} (ha : ns.own? a = some k)
    (hb : ns.own? b = some k) : a = b := by
  obtain ⟨i, rfl, hi⟩ := (h.own?_eq_some_iff a k).mp ha
  obtain ⟨j, hj, hj'⟩ := (h.own?_eq_some_iff b (i + 1)).mp hb
  obtain rfl : i = j := by omega
  exact Option.some.inj (hi.symm.trans hj')

theorem push {id : NodeId} {n : Node} (hn : g.node? id = some n) (hown : ns.own? id = none) :
    Indexed g (ns.push id) := by
  refine ⟨by simp [Numbering.push, h.serials_size], h.referents_size, fun other k => ?_⟩
  have hsize : ns.size = ns.sequence.toList.length := by simp [size]
  have hlength : ns.sequence.toList.length = ns.sequence.size := Array.length_toList
  have hseq : (ns.push id).sequence.toList = ns.sequence.toList ++ [id] := by
    simp [Numbering.push]
  rw [hseq]
  by_cases hother : id = other
  · subst hother
    rw [own?_push_self (by rw [h.serials_size]; exact Graph.index_lt_size hn)]
    have hfresh := h.own?_eq_none_iff.mp hown
    constructor
    · intro hk
      exact ⟨ns.size, (Option.some.inj hk).symm, by simp [hsize]⟩
    · rintro ⟨i, rfl, hi⟩
      rcases Nat.lt_trichotomy i ns.size with hlt | rfl | hgt
      · rw [List.getElem?_append_left (by omega)] at hi
        exact absurd (List.mem_of_getElem? hi) hfresh
      · rfl
      · rw [List.getElem?_eq_none (by simp; omega)] at hi
        cases hi
  · rw [own?_push_of_ne ns hother, h.own?_eq_some_iff]
    refine exists_congr fun i => and_congr_right fun _ => ?_
    rcases Nat.lt_trichotomy i ns.size with hlt | rfl | hgt
    · rw [List.getElem?_append_left (by omega)]
    · rw [List.getElem?_eq_none (by omega)]
      simp [hsize, hother]
    · rw [List.getElem?_eq_none (by omega), List.getElem?_eq_none (by simp; omega)]

theorem noteReferent (id referent : NodeId) : Indexed g (ns.noteReferent id referent) :=
  ⟨h.serials_size, by simp [Numbering.noteReferent, h.referents_size], h.own?_eq_some_iff⟩

end Indexed

/-! ## The walk -/

def ofList (g : Graph) (l : List NodeId) : Numbering :=
  l.foldl push (empty g)

theorem ofList_concat (l : List NodeId) (id : NodeId) :
    ofList g (l ++ [id]) = (ofList g l).push id := by
  simp [ofList]

@[simp] theorem sequence_ofList (l : List NodeId) : (ofList g l).sequence.toList = l := by
  induction l using List.reverseRecOn with
  | nil => rfl
  | append_singleton l id ih =>
      rw [ofList_concat]
      simp [push, ih]

@[simp] theorem referent?_ofList (l : List NodeId) (id : NodeId) :
    (ofList g l).referent? id = none := by
  induction l using List.reverseRecOn with
  | nil => exact referent?_empty g id
  | append_singleton l other ih => rw [ofList_concat, referent?_push, ih]

theorem indexed_ofList {l : List NodeId} (h : Distinct g l) : Indexed g (ofList g l) := by
  induction l using List.reverseRecOn with
  | nil => exact indexed_empty g
  | append_singleton l id ih =>
      have hl : Distinct g l :=
        ⟨h.nodup.of_append_left, fun x hx => h.node x (List.mem_append_left _ hx)⟩
      obtain ⟨n, hn⟩ := h.node id (by simp)
      rw [ofList_concat]
      refine (ih hl).push hn ((ih hl).own?_eq_none_iff.mpr ?_)
      rw [sequence_ofList]
      intro hmem
      exact List.disjoint_of_nodup_append h.nodup hmem (List.mem_singleton_self id)

theorem own?_ofList_isSome_iff {l : List NodeId} (h : Distinct g l) {id : NodeId} :
    ((ofList g l).own? id).isSome = true ↔ id ∈ l := by
  rw [(indexed_ofList h).own?_isSome_iff, sequence_ofList]

/-- The walk numbers the pre-order of the stack, if that meets no node twice. -/
theorem walk_eq_ok_iff {fuel : Nat} {stack met : List NodeId} {ns : Numbering}
    (h : Distinct g met) :
    walk g fuel stack (ofList g met) = .ok ns ↔
      ∃ l, PreOrder g stack l ∧ l.length ≤ fuel ∧ (met ++ l).Nodup ∧ ns = ofList g (met ++ l) := by
  induction fuel generalizing stack met with
  | zero =>
      cases stack with
      | nil =>
          simp only [walk, Except.ok.injEq]
          constructor
          · rintro rfl
            exact ⟨[], .nil, by simp, by simpa using h.nodup, by simp⟩
          · rintro ⟨l, hl, _, _, rfl⟩
            cases hl
            simp
      | cons id stack =>
          simp only [walk, reduceCtorEq, false_iff, not_exists, not_and]
          intro l hl hlen
          cases hl
          simp at hlen
  | succ fuel ih =>
      cases stack with
      | nil =>
          simp only [walk, Except.ok.injEq]
          constructor
          · rintro rfl
            exact ⟨[], .nil, by simp, by simpa using h.nodup, by simp⟩
          · rintro ⟨l, hl, _, _, rfl⟩
            cases hl
            simp
      | cons id stack =>
          unfold walk
          by_cases hmem : id ∈ met
          · rw [if_pos ((own?_ofList_isSome_iff h).mpr hmem)]
            simp only [reduceCtorEq, false_iff, not_exists, not_and]
            intro l hl _ hnodup
            exact absurd (hl.subset (by simp)) (List.disjoint_of_nodup_append hnodup hmem)
          rw [if_neg (fun hs => hmem ((own?_ofList_isSome_iff h).mp hs))]
          cases hn : g.node? id with
          | none =>
              simp only [reduceCtorEq, false_iff, not_exists, not_and]
              intro l hl
              cases hl with
              | cons hn' _ _ => rw [hn] at hn'; cases hn'
          | some n =>
              have hmet : Distinct g (met ++ [id]) := by
                refine ⟨List.nodup_append_comm.mp (by simp [hmem, h.nodup]), fun x hx => ?_⟩
                rcases List.mem_append.mp hx with hx | hx
                · exact h.node x hx
                · exact ⟨n, List.mem_singleton.mp hx ▸ hn⟩
              simp only [← ofList_concat]
              rw [ih hmet]
              constructor
              · rintro ⟨l, hl, hlen, hnodup, rfl⟩
                obtain ⟨below, beside, hbelow, hbeside, rfl⟩ := hl.exists_of_append
                refine ⟨id :: (below ++ beside), .cons hn hbelow hbeside, ?_, ?_, ?_⟩
                · simpa using hlen
                · simpa using hnodup
                · simp
              · rintro ⟨l, hl, hlen, hnodup, rfl⟩
                cases hl with
                | cons hn' hbelow hbeside =>
                    obtain rfl := Option.some.inj (hn.symm.trans hn')
                    refine ⟨_, hbelow.append hbeside, ?_, ?_, ?_⟩
                    · simpa using hlen
                    · simpa using hnodup
                    · simp

/-- Numbering the trees of the roots in turn is a traversal. -/
theorem foldlM_addTree_eq_ok_iff {roots met : List NodeId} {ns : Numbering}
    (h : Distinct g met) :
    roots.foldlM (addTree g) (ofList g met) = .ok ns ↔
      ∃ all, Traversal g met roots all ∧ ns = ofList g all := by
  induction roots generalizing met with
  | nil =>
      simp only [List.foldlM_nil, pure, Except.pure, Except.ok.injEq]
      constructor
      · rintro rfl
        exact ⟨met, .nil, rfl⟩
      · rintro ⟨all, hall, rfl⟩
        cases hall
        rfl
  | cons root roots ih =>
      rw [List.foldlM_cons]
      by_cases hmem : root ∈ met
      · have hstep : addTree g (ofList g met) root = .ok (ofList g met) := by
          rw [addTree, if_pos ((own?_ofList_isSome_iff h).mpr hmem)]
        rw [hstep]
        refine (ih h).trans (exists_congr fun all => and_congr_left fun _ => ?_)
        constructor
        · exact .skip hmem
        · intro hall
          cases hall with
          | skip _ hrest => exact hrest
          | tree hnot _ _ _ => exact absurd hmem hnot
      · have hstep : addTree g (ofList g met) root = walk g g.budget [root] (ofList g met) := by
          rw [addTree, if_neg (fun hs => hmem ((own?_ofList_isSome_iff h).mp hs))]
        rw [hstep]
        constructor
        · intro hok
          cases hwalk : walk g g.budget [root] (ofList g met) with
          | error e => simp [hwalk, bind, Except.bind] at hok
          | ok ns' =>
              obtain ⟨l, hl, _, hnodup, rfl⟩ := (walk_eq_ok_iff h).mp hwalk
              rw [hwalk] at hok
              obtain ⟨all, hall, rfl⟩ := (ih (h.append hl hnodup)).mp hok
              exact ⟨all, .tree hmem hl hnodup hall, rfl⟩
        · rintro ⟨all, hall, rfl⟩
          cases hall with
          | skip hmem' _ => exact absurd hmem' hmem
          | @tree _ _ _ l _ _ htree hnodup hrest =>
              have hlen : l.length ≤ g.budget :=
                Nat.le_succ_of_le (htree.length_le hnodup.of_append_right)
              rw [(walk_eq_ok_iff h).mpr ⟨l, htree, hlen, hnodup, rfl⟩]
              exact (ih (h.append htree hnodup)).mpr ⟨all, hrest, rfl⟩

end Numbering

end BlockScript
