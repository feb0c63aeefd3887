import BlockScript.Proofs.Graph.Holds
import BlockScript.Proofs.Numbering.Forward
/-!
# Numbers as positions

The nodes of a program in one sequence (`Graph.programNodes`): the tree of the node to run, the
trees of the roots that stand in none before, each in pre-order, and then the last referents that
stand in no tree.  The numbers of a program are the positions in this sequence, counted from one
(`inSequence_of_ofProgram`).
-/

namespace BlockScript

namespace Graph

variable {g : Graph} {id : NodeId} {ids l met roots all : List NodeId} {fuel : Nat}

/-- A node and the nodes below it, each before those in its slots.  The number bounds how deep they
are followed. -/
def treeWithin (g : Graph) : Nat → NodeId → List NodeId
  | 0, _ => []
  | fuel + 1, id => id :: (g.children id).flatMap (g.treeWithin fuel)

def treeNodes (g : Graph) (id : NodeId) : List NodeId :=
  g.treeWithin g.budget id

/-- The nodes of the trees of the roots, after those in the first list.  The tree of a root that
stands in the list by then is passed over. -/
def treesNodes (g : Graph) (met roots : List NodeId) : List NodeId :=
  roots.foldl (fun met root => if root ∈ met then met else met ++ g.treeNodes root) met

def lastReferents (g : Graph) (ids : List NodeId) : List NodeId :=
  ids.filterMap fun id => (g.lastReferent id).toOption

/-- The nodes of a program: those of its trees, and then the last referents that stand in none, each
once. -/
def programNodes (g : Graph) (run : NodeId) (roots : List NodeId) : List NodeId :=
  let met := g.treesNodes [] (run :: roots)
  met ++ ((g.lastReferents met).filter (· ∉ met)).eraseDups

/-- As many steps as there are nodes are enough. -/
theorem PreOrder.flatMap_treeWithin (h : PreOrder g ids l) (hfuel : l.length ≤ fuel) :
    ids.flatMap (g.treeWithin fuel) = l := by
  induction h generalizing fuel with
  | nil => rfl
  | @cons id n ids below beside hn _ _ ihbelow ihbeside =>
      simp only [List.length_cons, List.length_append] at hfuel
      obtain ⟨fuel, rfl⟩ : ∃ k, fuel = k + 1 := ⟨fuel - 1, by omega⟩
      have hbelow := @ihbelow fuel (by omega)
      have hbeside := @ihbeside (fuel + 1) (by omega)
      rw [List.flatMap_cons, treeWithin, children_eq hn, hbelow, hbeside, List.cons_append]

theorem PreOrder.flatMap_treeNodes (h : PreOrder g ids l) (hnodup : l.Nodup) :
    ids.flatMap g.treeNodes = l :=
  h.flatMap_treeWithin (Nat.le_succ_of_le (h.length_le hnodup))

theorem PreOrder.treeNodes_eq (h : PreOrder g [id] l) (hnodup : l.Nodup) : g.treeNodes id = l := by
  have hflat := h.flatMap_treeNodes hnodup
  simpa using hflat

/-- The nodes of a tree are its root and then those of the trees in the slots of the root. -/
theorem IsTree.treeNodes_eq (h : IsTree g id) :
    g.treeNodes id = id :: (g.children id).flatMap g.treeNodes := by
  obtain ⟨l, hl, hnodup⟩ := h
  obtain ⟨n, below, hn, hbelow, rfl⟩ := hl.exists_of_singleton
  rw [hl.treeNodes_eq hnodup, children_eq hn, hbelow.flatMap_treeNodes hnodup.of_cons]

theorem Traversal.treesNodes_eq (h : Traversal g met roots all) : g.treesNodes met roots = all := by
  induction h with
  | nil => rfl
  | skip hmem _ ih =>
      rw [treesNodes, List.foldl_cons, if_pos hmem]
      exact ih
  | tree hmem htree hnodup _ ih =>
      rw [treesNodes, List.foldl_cons, if_neg hmem, htree.treeNodes_eq hnodup.of_append_right]
      exact ih

theorem lastReferents_cons {last : NodeId} (h : LeadsTo g id last) (ids : List NodeId) :
    g.lastReferents (id :: ids) = last :: g.lastReferents ids := by
  have hlast := lastReferent_eq_ok_iff.mpr h
  simp [lastReferents, hlast, Except.toOption]

end Graph

namespace Numbering

open BlockScript.Graph (Distinct LeadsTo Traversal)

variable {g : Graph} {ns ns' : Numbering} {id last : NodeId} {ids all : List NodeId}

theorem Indexed.nodup (h : Indexed g ns) : ns.sequence.toList.Nodup := by
  refine h.pairwise_precedes.imp ?_
  rintro a _ ⟨m, k, hm, hk, hlt⟩ rfl
  obtain rfl := Option.some.inj (hm.symm.trans hk)
  exact Nat.lt_irrefl m hlt

/-! ## The order of the last referents -/

theorem Indexed.complete (h : Indexed g ns) (hlast : LeadsTo g id last) :
    Indexed g (ns.complete id last) := by
  unfold Numbering.complete
  split
  · exact h
  · apply Indexed.noteReferent
    split
    · exact h
    · obtain ⟨n, hn, _⟩ := hlast.target
      exact h.push hn (Option.not_isSome_iff_eq_none.mp ‹_›)

/-- Noting a last referent adds it to the sequence, unless it stands there. -/
theorem Indexed.sequence_complete (h : Indexed g ns) (hid : id ∈ ns.sequence.toList)
    (last : NodeId) :
    (ns.complete id last).sequence.toList =
      ns.sequence.toList ++ if last ∈ ns.sequence.toList then [] else [last] := by
  unfold Numbering.complete
  by_cases heq : last = id
  · rw [if_pos heq, if_pos (heq ▸ hid), List.append_nil]
  · rw [if_neg heq]
    change (if (ns.own? last).isSome then ns else ns.push last).sequence.toList = _
    by_cases hmem : last ∈ ns.sequence.toList
    · rw [if_pos (h.own?_isSome_iff.mpr hmem), if_pos hmem, List.append_nil]
    · rw [if_neg (fun hown => hmem (h.own?_isSome_iff.mp hown)), if_neg hmem]
      simp [Numbering.push]

/-- All notes together add the last referents that do not stand in the sequence, each once. -/
theorem Completion.sequence_eq (h : Completion g ids ns ns') (hindexed : Indexed g ns)
    (hids : ids ⊆ ns.sequence.toList) :
    ns'.sequence.toList = ns.sequence.toList ++
      ((g.lastReferents ids).filter (· ∉ ns.sequence.toList)).eraseDups := by
  induction h with
  | nil => simp [Graph.lastReferents]
  | @cons id last ids ns ns' hlast _ ih =>
      rw [List.cons_subset] at hids
      have hstep := hindexed.sequence_complete hids.1 last
      have hrest := ih (hindexed.complete hlast) (by
        rw [hstep]
        exact List.subset_append_of_subset_left _ hids.2)
      rw [hrest, hstep, Graph.lastReferents_cons hlast]
      by_cases hmem : last ∈ ns.sequence.toList
      · rw [if_pos hmem, List.append_nil, List.filter_cons_of_neg (by simpa using hmem)]
      · rw [if_neg hmem, List.filter_cons_of_pos (by simpa using hmem), List.eraseDups_cons,
          List.filter_filter, List.append_assoc, List.singleton_append]
        congr 4
        funext x
        by_cases hx : x = last <;> simp [hx]

theorem sequence_eq_programNodes {run : NodeId} {roots : List NodeId}
    (h : ofProgram g run roots = .ok ns) :
    ns.sequence.toList = g.programNodes run roots := by
  obtain ⟨all, htraversal, hcompletion⟩ := ofProgram_eq_ok_iff.mp h
  have hdistinct := htraversal.distinct ⟨List.nodup_nil, List.forall_mem_nil _⟩
  have hsequence := hcompletion.sequence_eq (indexed_ofList hdistinct)
    (by rw [sequence_ofList]; exact List.Subset.refl all)
  rw [sequence_ofList] at hsequence
  rw [hsequence, Graph.programNodes, htraversal.treesNodes_eq]

/-! ## The counter -/

/-- The machine word that the next number is taken from, after so many were given.  It starts at one
and wraps. -/
def counter : Nat → UInt32
  | 0 => 1
  | k + 1 => counter k + 1

theorem toNat_counter {k : Nat} (h : k + 1 < UInt32.size) : (counter k).toNat = k + 1 := by
  induction k with
  | zero => rfl
  | succ k ih =>
      have hk := ih (by omega)
      have hone : (1 : UInt32).toNat = 1 := rfl
      rw [counter, UInt32.toNat_add, hk, hone]
      exact Nat.mod_eq_of_lt h

/-- The numbers given so far as machine words, and the word that is given next. -/
structure Words where
  given : NodeId → Option UInt32
  next : UInt32

namespace Words

def first : Words := ⟨fun _ => none, counter 0⟩

def issue (w : Words) (id : NodeId) : Words :=
  ⟨Function.update w.given id (some w.next), w.next + 1⟩

theorem given_issue_self (w : Words) (id : NodeId) : (w.issue id).given id = some w.next :=
  Function.update_self _ _ _

theorem given_issue_of_ne (w : Words) {id other : NodeId} (h : id ≠ other) :
    (w.issue id).given other = w.given other :=
  Function.update_of_ne (Ne.symm h) _ _

/-- The words are the numbers of a numbering, and the next one is that of the counter. -/
structure Represents (w : Words) (ns : Numbering) : Prop where
  next : w.next = counter ns.size
  given : ∀ id, (w.given id).map UInt32.toNat = ns.own? id

theorem represents_first (g : Graph) : first.Represents (empty g) :=
  ⟨rfl, fun id => (own?_empty g id).symm⟩

/-- `Numbering.push` gives the word of the counter, as long as that has not wrapped. -/
theorem Represents.issue {w : Words} (h : w.Represents ns) (hid : id.index < ns.serials.size)
    (hsize : ns.size + 1 < UInt32.size) : (w.issue id).Represents (ns.push id) := by
  refine ⟨?_, fun other => ?_⟩
  · rw [size_push, counter, ← h.next, Words.issue]
  · by_cases hother : id = other
    · subst hother
      rw [given_issue_self, own?_push_self hid, h.next, Option.map_some, toNat_counter hsize]
    · rw [given_issue_of_ne w hother, own?_push_of_ne ns hother, h.given]

/-- The words given to distinct nodes one after the other are their numbers. -/
theorem represents_ofList {l : List NodeId} (h : Distinct g l) (hlength : l.length < UInt32.size) :
    (l.foldl Words.issue first).Represents (ofList g l) := by
  induction l using List.reverseRecOn with
  | nil => exact represents_first g
  | append_singleton l id ih =>
      have hl : Distinct g l :=
        ⟨h.nodup.of_append_left, fun x hx => h.node x (List.mem_append_left _ hx)⟩
      obtain ⟨n, hn⟩ := h.node id (by simp)
      have hsize : (ofList g l).size = l.length := by
        rw [size, ← Array.length_toList, sequence_ofList]
      rw [List.length_append, List.length_singleton] at hlength
      rw [List.foldl_append, ofList_concat]
      refine (ih hl (by omega)).issue ?_ (by omega)
      rw [(indexed_ofList hl).serials_size]
      exact Graph.index_lt_size hn

/-- The numbers follow from the sequence, so the words given along it are those of any numbering. -/
theorem represents_of_indexed (h : Indexed g ns) (hdistinct : Distinct g ns.sequence.toList)
    (hlength : ns.sequence.toList.length < UInt32.size) :
    (ns.sequence.toList.foldl Words.issue first).Represents ns := by
  have hlist := represents_ofList hdistinct hlength
  refine ⟨?_, fun id => ?_⟩
  · rw [hlist.next, size, size, ← Array.length_toList, sequence_ofList, Array.length_toList]
  · rw [hlist.given]
    refine Option.ext fun k => ?_
    rw [(indexed_ofList hdistinct).own?_eq_some_iff, h.own?_eq_some_iff, sequence_ofList]

end Words

/-! ## Numbers and positions -/

/-- The numbers are the positions in a sequence of nodes, counted from one. -/
structure InSequence (g : Graph) (ns : Numbering) (nodes : List NodeId) : Prop where
  nodup : nodes.Nodup
  size : ns.size = nodes.length
  /-- A node without referent has the number of its position. -/
  position : ∀ i id n, nodes[i]? = some id → g.node? id = some n → n.referent = none →
    ns.serial id = .ok (i + 1)
  /-- A node with a referent has the number of the last referent that it leads to. -/
  reference : ∀ id ∈ nodes, ∀ n next, g.node? id = some n → n.referent = some next →
    ∃ last i, LeadsTo g id last ∧ nodes[i]? = some last ∧ ns.serial id = .ok (i + 1)
  outside : ∀ id, ns.serial id = .error (.unnumbered id) ↔ id ∉ nodes
  numbered : ∀ id, (∃ k, ns.serial id = .ok k) ↔ id ∈ nodes
  /-- The counter never wraps in a graph that leaves a word for the number after the last. -/
  counter : g.size < UInt32.size - 1 → ∀ k ≤ nodes.length, (counter k).toNat = k + 1
  /-- In such a graph the words that the counter gives to the nodes in turn are the numbers. -/
  words : g.size < UInt32.size - 1 → (nodes.foldl Words.issue .first).Represents ns

theorem serial_eq_error_iff :
    ns.serial id = .error (.unnumbered id) ↔ ns.own? (ns.bearer id) = none := by
  unfold serial
  cases ns.own? (ns.bearer id) <;> simp

namespace Noted

variable (h : Noted g all all ns)
include h

/-- A node with a number leads to the node whose number it uses, and that has one. -/
theorem bearer_of_mem (hid : id ∈ ns.sequence.toList) :
    LeadsTo g id (ns.bearer id) ∧ ns.bearer id ∈ ns.sequence.toList := by
  by_cases hmet : id ∈ all
  · exact ⟨h.leadsTo id hmet, h.numbered id hmet⟩
  · rw [bearer_of_referent?_none (h.referent? id hmet)]
    exact ⟨h.late id hid hmet, hid⟩

theorem bearer_mem_iff : ns.bearer id ∈ ns.sequence.toList ↔ id ∈ ns.sequence.toList := by
  refine ⟨fun hbearer => ?_, fun hid => (h.bearer_of_mem hid).2⟩
  by_cases hmet : id ∈ all
  · exact h.extends_all hmet
  · rwa [bearer_of_referent?_none (h.referent? id hmet)] at hbearer

theorem serial_eq_of_leadsTo {i : Nat} (hid : id ∈ ns.sequence.toList) (hlast : LeadsTo g id last)
    (hi : ns.sequence.toList[i]? = some last) : ns.serial id = .ok (i + 1) := by
  obtain rfl := hlast.unique (h.bearer_of_mem hid).1
  exact serial_eq_ok_iff.mpr ((h.indexed.own?_eq_some_iff _ _).mpr ⟨i, rfl, hi⟩)

theorem distinct : Distinct g ns.sequence.toList :=
  ⟨h.indexed.nodup, fun _ hid => (h.bearer_of_mem hid).1.node⟩

theorem inSequence : InSequence g ns ns.sequence.toList where
  nodup := h.indexed.nodup
  size := Array.length_toList.symm
  position i id n hi hn hr := h.serial_eq_of_leadsTo (List.mem_of_getElem? hi) (.last hn hr) hi
  reference id hid n next hn hr := by
    obtain ⟨hlast, hmem⟩ := h.bearer_of_mem hid
    obtain ⟨i, hi⟩ := List.mem_iff_getElem?.mp hmem
    exact ⟨_, i, hlast, hi, h.serial_eq_of_leadsTo hid hlast hi⟩
  outside id := by
    rw [serial_eq_error_iff, h.indexed.own?_eq_none_iff, h.bearer_mem_iff]
  numbered id := by
    simp only [serial_eq_ok_iff]
    rw [← Option.isSome_iff_exists, h.indexed.own?_isSome_iff, h.bearer_mem_iff]
  counter hsize k hk := by
    have hle := h.distinct.length_le
    exact toNat_counter (by omega)
  words hsize := by
    have hle := h.distinct.length_le
    exact Words.represents_of_indexed h.indexed h.distinct (by omega)

end Noted

/-- The numbers of a program are the positions of its nodes in one sequence, in which each tree is
its root and then the trees in the slots of the root. -/
theorem inSequence_of_ofProgram {run : NodeId} {roots : List NodeId}
    (h : ofProgram g run roots = .ok ns) :
    (∀ id ∈ g.treesNodes [] (run :: roots),
      g.treeNodes id = id :: (g.children id).flatMap g.treeNodes) ∧
    InSequence g ns (g.programNodes run roots) := by
  obtain ⟨all, htraversal, _, hnoted⟩ := exists_noted h
  constructor
  · intro id hid
    rw [htraversal.treesNodes_eq] at hid
    exact ((covers_of_noted htraversal hnoted).tree id hid).treeNodes_eq
  · rw [← sequence_eq_programNodes h]
    exact hnoted.inSequence

/-- The sum of two uses of one declaration that stands in no tree, one of them through the other. -/
def sumOfUses : Graph :=
  ⟨#[⟨.declaration ⟨.single .number, "x", ⟨1⟩⟩, .onWorkspace, none⟩,
    .ofKind .declarationEnd,
    ⟨.expression .read, .child, some ⟨0⟩⟩,
    ⟨.expression .read, .child, some ⟨2⟩⟩,
    ⟨.statement ⟨.returnValue (some ⟨5⟩), ⟨6⟩⟩, .onWorkspace, none⟩,
    .ofKind (.expression (.binary (.arith .add) ⟨3⟩ ⟨2⟩)),
    .ofKind .statementEnd,
    ⟨.declaration ⟨.single .number, "y", ⟨8⟩⟩, .onWorkspace, none⟩,
    .ofKind .declarationEnd]⟩

/-- The declaration comes last, and the second root is passed over. -/
theorem inSequence_sumOfUses :
    ∃ ns, ofProgram sumOfUses ⟨4⟩ [⟨7⟩, ⟨8⟩] = .ok ns ∧
      sumOfUses.programNodes ⟨4⟩ [⟨7⟩, ⟨8⟩] = [⟨4⟩, ⟨5⟩, ⟨3⟩, ⟨2⟩, ⟨6⟩, ⟨7⟩, ⟨8⟩, ⟨0⟩] ∧
      (∀ id ∈ sumOfUses.treesNodes [] [⟨4⟩, ⟨7⟩, ⟨8⟩],
        sumOfUses.treeNodes id = id :: (sumOfUses.children id).flatMap sumOfUses.treeNodes) ∧
      InSequence sumOfUses ns (sumOfUses.programNodes ⟨4⟩ [⟨7⟩, ⟨8⟩]) ∧
      ns.serial ⟨5⟩ = .ok 2 ∧ ns.serial ⟨3⟩ = .ok 8 ∧ ns.serial ⟨2⟩ = .ok 8 ∧
      ns.serial ⟨1⟩ = .error (.unnumbered ⟨1⟩) := by
  have h : ofProgram sumOfUses ⟨4⟩ [⟨7⟩, ⟨8⟩] = .ok _ := rfl
  obtain ⟨htrees, hsequence⟩ := inSequence_of_ofProgram h
  exact ⟨_, h, by decide, htrees, hsequence, by decide, by decide, by decide, by decide⟩

end Numbering

end BlockScript
