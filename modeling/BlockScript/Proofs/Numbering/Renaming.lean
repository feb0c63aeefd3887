import BlockScript.Proofs.Graph.Renaming
import BlockScript.Proofs.Numbering.Program
/-!
# Numbers under other ids

Graphs of one shape are numbered alike: a node has the number of the node it stands for
(`ofProgram_renames`).  The bounds on steps, which are the sizes of the graphs, may differ.
-/

namespace BlockScript.Numbering

open BlockScript.Graph (LeadsTo Reached Renames Traversal Distinct)

variable {φ : NodeId → NodeId} {g g' : Graph} {starts ids all : List NodeId}
variable {ns ns' : Numbering} {id last : NodeId}

/-- Two numberings agree on what is reached. -/
structure Renamed (φ : NodeId → NodeId) (g g' : Graph) (starts : List NodeId)
    (ns ns' : Numbering) : Prop where
  indexed : Indexed g ns
  indexed' : Indexed g' ns'
  sequence : ns'.sequence.toList = ns.sequence.toList.map φ
  reached : ∀ id ∈ ns.sequence.toList, Reached g starts id
  referent? : ∀ id, Reached g starts id → ns'.referent? (φ id) = (ns.referent? id).map φ

namespace Renamed

section

variable (h : Renamed φ g g' starts ns ns') (hrenames : Renames φ g g' starts)
include h hrenames

theorem own?_eq (hid : Reached g starts id) : ns'.own? (φ id) = ns.own? id := by
  apply Option.ext
  intro k
  rw [h.indexed'.own?_eq_some_iff, h.indexed.own?_eq_some_iff, h.sequence]
  refine exists_congr fun i => and_congr_right fun _ => ?_
  rw [List.getElem?_map, Option.map_eq_some_iff]
  constructor
  · rintro ⟨x, hx, heq⟩
    have hmem := List.mem_of_getElem? hx
    exact hrenames.injective x id (h.reached x hmem) hid heq ▸ hx
  · intro hx
    exact ⟨id, hx, rfl⟩

theorem push {n : Node} (hid : Reached g starts id) (hn : g.node? id = some n)
    (hown : ns.own? id = none) : Renamed φ g g' starts (ns.push id) (ns'.push (φ id)) := by
  obtain ⟨n', hn', _, _⟩ := hrenames.node id n hid hn
  have hown' : ns'.own? (φ id) = none := (h.own?_eq hrenames hid).trans hown
  refine ⟨h.indexed.push hn hown, h.indexed'.push hn' hown', ?_, ?_, h.referent?⟩
  · simp [Numbering.push, h.sequence]
  · intro x hx
    rw [Numbering.push, Array.toList_push, List.mem_append, List.mem_singleton] at hx
    rcases hx with hx | rfl
    · exact h.reached x hx
    · exact hid

theorem noteReferent {n : Node} (hid : Reached g starts id) (hn : g.node? id = some n)
    (last : NodeId) :
    Renamed φ g g' starts (ns.noteReferent id last) (ns'.noteReferent (φ id) (φ last)) := by
  obtain ⟨n', hn', _, _⟩ := hrenames.node id n hid hn
  refine ⟨h.indexed.noteReferent id last, h.indexed'.noteReferent (φ id) (φ last), h.sequence,
    h.reached, fun x hx => ?_⟩
  by_cases heq : id = x
  · subst heq
    have hlt := Graph.index_lt_size hn
    have hlt' := Graph.index_lt_size hn'
    rw [← h.indexed.referents_size] at hlt
    rw [← h.indexed'.referents_size] at hlt'
    rw [referent?_noteReferent_self hlt, referent?_noteReferent_self hlt']
    rfl
  · have hne : φ id ≠ φ x := fun hφ => heq (hrenames.injective id x hid hx hφ)
    rw [referent?_noteReferent_of_ne ns heq, referent?_noteReferent_of_ne ns' hne]
    exact h.referent? x hx

theorem complete (hid : Reached g starts id) (hlast : LeadsTo g id last) :
    Renamed φ g g' starts (ns.complete id last) (ns'.complete (φ id) (φ last)) := by
  obtain ⟨_, hreached⟩ := hrenames.leadsTo hlast hid
  obtain ⟨n, hn⟩ := hlast.node
  obtain ⟨m, hm, _⟩ := hlast.target
  unfold Numbering.complete
  by_cases heq : last = id
  · rw [if_pos heq, if_pos (congrArg φ heq)]
    exact h
  · have hne : φ last ≠ φ id := fun hφ => heq (hrenames.injective last id hreached hid hφ)
    rw [if_neg heq, if_neg hne, h.own?_eq hrenames hreached]
    by_cases hown : (ns.own? last).isSome
    · rw [if_pos hown, if_pos hown]
      exact h.noteReferent hrenames hid hn last
    · rw [if_neg hown, if_neg hown]
      have hpush := h.push hrenames hreached hm (by simpa using hown)
      exact hpush.noteReferent hrenames hid hn last

end

theorem completion {ns₂ : Numbering} (h : Renamed φ g g' starts ns ns')
    (hrenames : Renames φ g g' starts) (hcompletion : Completion g ids ns ns₂)
    (hids : ∀ x ∈ ids, Reached g starts x) :
    ∃ ns₂', Completion g' (ids.map φ) ns' ns₂' ∧ Renamed φ g g' starts ns₂ ns₂' := by
  induction hcompletion generalizing ns' with
  | nil => exact ⟨ns', .nil, h⟩
  | cons hlast _ ih =>
      rw [List.forall_mem_cons] at hids
      obtain ⟨hlast', _⟩ := hrenames.leadsTo hlast hids.1
      obtain ⟨ns₂', hrest, hrenamed⟩ := ih (h.complete hrenames hids.1 hlast) hids.2
      exact ⟨ns₂', .cons hlast' hrest, hrenamed⟩

theorem bearer_eq (h : Renamed φ g g' starts ns ns') (hid : Reached g starts id) :
    ns'.bearer (φ id) = φ (ns.bearer id) := by
  unfold bearer
  rw [h.referent? id hid]
  cases ns.referent? id <;> rfl

theorem serial_eq {k : Nat} (h : Renamed φ g g' starts ns ns') (hrenames : Renames φ g g' starts)
    (hid : Reached g starts id) (hbearer : Reached g starts (ns.bearer id))
    (hk : ns.serial id = .ok k) : ns'.serial (φ id) = .ok k := by
  rw [serial_eq_ok_iff] at hk ⊢
  rw [h.bearer_eq hid, h.own?_eq hrenames hbearer]
  exact hk

end Renamed

/-- What the code of a program asks of the numbers of two graphs. -/
theorem ofProgram_renames {run : NodeId} {roots : List NodeId}
    (h : Renames φ g g' (run :: roots)) (hns : ofProgram g run roots = .ok ns) :
    ∃ ns' all, ofProgram g' (φ run) (roots.map φ) = .ok ns' ∧
      Renamed φ g g' (run :: roots) ns ns' ∧ (∀ x ∈ run :: roots, x ∈ all) ∧
      (∀ x ∈ all, Reached g (run :: roots) x) ∧ Covers g ns all ∧ Covers g' ns' (all.map φ) := by
  obtain ⟨all, hall, hcompletion⟩ := ofProgram_eq_ok_iff.mp hns
  obtain ⟨hall', hreached⟩ := h.traversal hall (by simp) fun x hx => .start hx
  obtain ⟨hdistinct, hnoted⟩ := noted_of_completion hall hcompletion
  have hdistinct' : Distinct g' (all.map φ) := hall'.distinct ⟨by simp, by simp⟩
  have hrenamed : Renamed φ g g' (run :: roots) (ofList g all) (ofList g' (all.map φ)) := by
    refine ⟨indexed_ofList hdistinct, indexed_ofList hdistinct', by simp, ?_, ?_⟩
    · simpa using hreached
    · intro id _
      rw [referent?_ofList, referent?_ofList]
      rfl
  obtain ⟨ns', hcompletion', hrenamed'⟩ := hrenamed.completion h hcompletion hreached
  obtain ⟨_, hnoted'⟩ := noted_of_completion hall' hcompletion'
  exact ⟨ns', all, ofProgram_eq_ok_iff.mpr ⟨_, hall', hcompletion'⟩, hrenamed',
    fun x hx => hall.root_mem hx, hreached, covers_of_noted hall hnoted,
    covers_of_noted hall' hnoted'⟩

end BlockScript.Numbering
