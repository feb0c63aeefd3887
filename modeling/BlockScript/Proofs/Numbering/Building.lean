import BlockScript.Proofs.Graph.Building
import BlockScript.Proofs.Numbering.Turns
/-!
# Numbering graphs that were built

If the slots and the referent of each node name nodes before it, the walk of the trees meets only
nodes of the graph, and all referents lead to an end.  So numbering can fail only because it meets a
node twice (`shared_of_descends`).  Every graph that helpers build is of this kind, as long as ids
last (`Builds.wellBuilt`).
-/

namespace BlockScript

namespace Numbering

open BlockScript.Graph (Descends LeadsTo)

variable {g : Graph} {ns : Numbering} {id : NodeId} {stack roots : List NodeId} {turns : Nat}
variable {e : GraphFault}

theorem exists_node (h : id.index < g.size) : ∃ n, g.node? id = some n := by
  rw [← Option.ne_none_iff_exists', ne_eq, Graph.node?_eq_none_iff]
  omega

/-- Referents become smaller and smaller, so they lead to an end. -/
theorem leadsTo_of_descends (hg : g.Descends) (h : id.index < g.size) :
    ∃ last, LeadsTo g id last := by
  induction hindex : id.index using Nat.strongRecOn generalizing id with
  | ind i ih =>
      obtain ⟨n, hn⟩ := exists_node h
      cases hr : n.referent with
      | none => exact ⟨id, .last hn hr⟩
      | some next =>
          have hlt : next.index < id.index := (hg id.index n hn).referent next hr
          obtain ⟨last, hlast⟩ := ih next.index (by omega) (by omega) rfl
          exact ⟨last, .step hn hr hlast⟩

/-- The walk of a stack of nodes of the graph fails only at a node that it met before. -/
theorem Walks.shared_of_descends (hg : g.Descends) (hstack : ∀ id ∈ stack, id.index < g.size)
    (h : Walks g stack ns turns (.error e)) : ∃ id, e = .shared id := by
  generalize hanswer : Except.error e = answer at h
  induction h with
  | done => cases hanswer
  | shared _ => exact ⟨_, Except.error.inj hanswer⟩
  | absent _ hn =>
      obtain ⟨n, hn'⟩ := exists_node (hstack _ List.mem_cons_self)
      rw [hn] at hn'
      cases hn'
  | push _ hn _ ih =>
      rw [List.forall_mem_cons] at hstack
      refine ih (fun c hc => ?_) hanswer
      rcases List.mem_append.mp hc with hc | hc
      · have hlt := (hg _ _ hn).children c hc
        have hsize := hstack.1
        omega
      · exact hstack.2 c hc

theorem WalksTrees.shared_of_descends (hg : g.Descends)
    (hroots : ∀ root ∈ roots, root.index < g.size) (h : WalksTrees g roots ns turns (.error e)) :
    ∃ id, e = .shared id := by
  generalize hanswer : Except.error e = answer at h
  induction h with
  | nil => cases hanswer
  | skip _ _ ih => exact ih (List.forall_mem_cons.mp hroots).2 hanswer
  | fail _ htree =>
      obtain rfl := Except.error.inj hanswer
      exact htree.shared_of_descends hg
        (List.forall_mem_singleton.mpr (List.forall_mem_cons.mp hroots).1)
  | tree _ _ _ ih => exact ih (List.forall_mem_cons.mp hroots).2 hanswer

/-- Where the referents of all met nodes lead to an end, numbering fails in its first part only. -/
theorem shared_of_descends (hg : g.Descends) {run : NodeId}
    (hroots : ∀ root ∈ run :: roots, root.index < g.size)
    (h : ofProgram g run roots = .error e) : ∃ id, e = .shared id := by
  obtain ⟨turns, answer, hwalks, heq, hcounted⟩ :=
    exists_walksTrees (g := g) (run :: roots) ⟨List.nodup_nil, List.forall_mem_nil _⟩
  change (run :: roots).foldlM (addTree g) (empty g) = answer at heq
  unfold ofProgram at h
  rw [heq] at h
  cases answer with
  | error e' =>
      obtain rfl := Except.error.inj h
      exact hwalks.shared_of_descends hg hroots
  | ok ns =>
      cases hcounted with
      | @ok l hdistinct =>
          rw [List.nil_append] at hdistinct h
          have hreferents : ∀ id ∈ l, ∃ last, LeadsTo g id last := fun id hid => by
            obtain ⟨n, hn⟩ := hdistinct.node id hid
            exact leadsTo_of_descends hg (Graph.index_lt_size hn)
          obtain ⟨ns', hcompletion⟩ : ∃ ns', Completion g l (ofList g l) ns' :=
            exists_completion_iff.mpr hreferents
          have hok := foldlM_addReferent_eq_ok_iff.mpr hcompletion
          simp only [bind, Except.bind, sequence_ofList] at h
          rw [hok] at h
          cases h

end Numbering

/-- What is known of a graph that helpers built, and of the ids handed out on the way.  The nodes
keep their kinds, and as long as ids last they stay as they are. -/
structure WellBuilt (ids : List NodeId) (g : Graph) : Prop where
  index_lt : ∀ id ∈ ids, id.index < g.size
  kinds : ∀ ids' g', Builds ids g ids' g' → g.KeepsKinds g'
  /-- However the building goes on, the nodes stay as they are. -/
  kept : ∀ ids' g', Builds ids g ids' g' → g'.size ≤ UInt32.size → g.Extends g'
  /-- The slots and the referent of each node name nodes before it. -/
  descends : g.size ≤ UInt32.size → g.Descends
  /-- A chain of arguments holds the values given, in order, now and however the building goes on,
  if there were ids for all of it. -/
  arguments : ∀ values, values ⊆ ids → (Build.arguments values g).2.size ≤ UInt32.size →
    ∀ ids' g', Builds ((Build.arguments values g).1 :: ids) (Build.arguments values g).2 ids' g' →
      (g'.arguments (Build.arguments values g).1).entries.map (fun entry => entry.2.value) =
          values ∧
        (g'.arguments (Build.arguments values g).1).ending = .ok ()
  /-- A program whose roots are nodes of the graph gets no numbering only if a node is met twice. -/
  numbered : g.size ≤ UInt32.size → ∀ run roots e,
    (∀ root ∈ run :: roots, root.index < g.size) →
    Numbering.ofProgram g run roots = .error e → ∃ id, e = .shared id

theorem Builds.wellBuilt {ids : List NodeId} {g : Graph} (h : Builds [] .empty ids g) :
    WellBuilt ids g := by
  have hdescends := h.grows.descends Graph.descends_empty (List.forall_mem_nil _)
  exact {
    index_lt := h.grows.index_lt (List.forall_mem_nil _)
    kinds := fun ids' g' hlater => hlater.grows.kinds
    kept := fun ids' g' hlater hsize => hlater.grows.appends hsize
    descends := hdescends
    arguments := fun values _ hsize ids' g' hlater => arguments_eq hsize hlater
    numbered := fun hsize run roots e hroots hfault =>
      Numbering.shared_of_descends (hdescends hsize) hroots hfault }

/-- A sum whose two operands are one node is built, and it gets no numbering. -/
theorem wellBuilt_doubledOperand :
    ∃ ids g, Builds [] .empty ids g ∧ WellBuilt ids g ∧
      Numbering.ofProgram g ⟨3⟩ [] = .error (.shared ⟨0⟩) := by
  have hempty : Builds [] .empty [] .empty := .refl
  have hbuilds := (hempty.step (.number "1") (List.nil_subset _)).step
    (.binary (.arith .add) ⟨0⟩ ⟨0⟩) (by decide)
  have hprogram := hbuilds.step (.statement (.returnValue (some ⟨1⟩))) (by decide)
  exact ⟨_, _, hprogram, hprogram.wellBuilt, by decide⟩

end BlockScript
