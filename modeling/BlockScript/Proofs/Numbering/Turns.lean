import BlockScript.Proofs.Graph.Fault
import BlockScript.Proofs.Numbering.Program
/-!
# The turns of the walk

The walk that numbers a program's trees as a loop without a bound: `Walks` for one stack,
`WalksTrees` for the trees of the roots in turn, each with the number of turns it takes.  Every turn
but a failing one numbers a node of the graph, so the loop ends and the bound in `walk` is never met
(`exists_walksTrees`); a program is refused a numbering only for the shape of its graph
(`ofShape_of_ofProgram`).
-/

namespace BlockScript

namespace Numbering

open BlockScript.Graph (Distinct LeadsTo)

variable {g : Graph} {ns ns' : Numbering} {id : NodeId} {stack met ids roots : List NodeId}
variable {turns : Nat} {answer : Except GraphFault Numbering} {e : GraphFault}

/-! ## The loop -/

/-- The walk of a stack ends after so many turns with an answer.  Each turn takes the first node. -/
inductive Walks (g : Graph) :
    List NodeId → Numbering → Nat → Except GraphFault Numbering → Prop where
  | done {ns : Numbering} : Walks g [] ns 0 (.ok ns)
  | shared {id : NodeId} {stack : List NodeId} {ns : Numbering} (hown : (ns.own? id).isSome) :
      Walks g (id :: stack) ns 1 (.error (.shared id))
  | absent {id : NodeId} {stack : List NodeId} {ns : Numbering} (hown : ns.own? id = none)
      (hn : g.node? id = none) : Walks g (id :: stack) ns 1 (.error (.absent id))
  | push {id : NodeId} {stack : List NodeId} {ns : Numbering} {n : Node} {turns : Nat}
      {answer : Except GraphFault Numbering} (hown : ns.own? id = none) (hn : g.node? id = some n)
      (hrest : Walks g (n.kind.children ++ stack) (ns.push id) turns answer) :
      Walks g (id :: stack) ns (turns + 1) answer

/-- The trees of the roots are walked in turn, up to the first that cannot be.  A root that has a
number takes no turn. -/
inductive WalksTrees (g : Graph) :
    List NodeId → Numbering → Nat → Except GraphFault Numbering → Prop where
  | nil {ns : Numbering} : WalksTrees g [] ns 0 (.ok ns)
  | skip {root : NodeId} {roots : List NodeId} {ns : Numbering} {turns : Nat}
      {answer : Except GraphFault Numbering} (hown : (ns.own? root).isSome)
      (hrest : WalksTrees g roots ns turns answer) : WalksTrees g (root :: roots) ns turns answer
  | fail {root : NodeId} {roots : List NodeId} {ns : Numbering} {turns : Nat} {e : GraphFault}
      (hown : ns.own? root = none) (htree : Walks g [root] ns turns (.error e)) :
      WalksTrees g (root :: roots) ns turns (.error e)
  | tree {root : NodeId} {roots : List NodeId} {ns ns' : Numbering} {turns turns' : Nat}
      {answer : Except GraphFault Numbering} (hown : ns.own? root = none)
      (htree : Walks g [root] ns turns (.ok ns')) (hrest : WalksTrees g roots ns' turns' answer) :
      WalksTrees g (root :: roots) ns (turns + turns') answer

theorem Walks.unique {turns' : Nat} {answer' : Except GraphFault Numbering}
    (h : Walks g stack ns turns answer) (h' : Walks g stack ns turns' answer') :
    turns = turns' ∧ answer = answer' := by
  induction h generalizing turns' with
  | done =>
      cases h'
      exact ⟨rfl, rfl⟩
  | shared hown =>
      cases h' with
      | shared _ => exact ⟨rfl, rfl⟩
      | absent hown' _ | push hown' _ _ => simp [hown'] at hown
  | absent hown hn =>
      cases h' with
      | shared hown' => simp [hown] at hown'
      | absent _ _ => exact ⟨rfl, rfl⟩
      | push _ hn' _ =>
          rw [hn] at hn'
          cases hn'
  | push hown hn _ ih =>
      cases h' with
      | shared hown' => simp [hown] at hown'
      | absent _ hn' =>
          rw [hn] at hn'
          cases hn'
      | push _ hn' hrest' =>
          obtain rfl := Option.some.inj (hn.symm.trans hn')
          obtain ⟨rfl, rfl⟩ := ih hrest'
          exact ⟨rfl, rfl⟩

theorem WalksTrees.unique {turns' : Nat} {answer' : Except GraphFault Numbering}
    (h : WalksTrees g roots ns turns answer) (h' : WalksTrees g roots ns turns' answer') :
    turns = turns' ∧ answer = answer' := by
  induction h generalizing turns' with
  | nil =>
      cases h'
      exact ⟨rfl, rfl⟩
  | skip hown _ ih =>
      cases h' with
      | skip _ hrest' => exact ih hrest'
      | fail hown' _ | tree hown' _ _ => simp [hown'] at hown
  | fail hown htree =>
      cases h' with
      | skip hown' _ => simp [hown] at hown'
      | fail _ htree' => exact htree.unique htree'
      | tree _ htree' _ => cases (htree.unique htree').2
  | tree hown htree _ ih =>
      cases h' with
      | skip hown' _ => simp [hown] at hown'
      | fail _ htree' => cases (htree.unique htree').2
      | tree _ htree' hrest' =>
          obtain ⟨rfl, hok⟩ := htree.unique htree'
          obtain rfl := Except.ok.inj hok
          obtain ⟨rfl, rfl⟩ := ih hrest'
          exact ⟨rfl, rfl⟩

/-! ## Counting turns -/

/-- The turns of a loop that starts when the nodes `met` have numbers.  There is one for each node
that gets a number, and at most one more, in which the loop fails. -/
inductive Counted (g : Graph) (met : List NodeId) : Nat → Except GraphFault Numbering → Prop where
  | ok {l : List NodeId} (hdistinct : Distinct g (met ++ l)) :
      Counted g met l.length (.ok (ofList g (met ++ l)))
  | error {turns : Nat} {e : GraphFault} (hturns : met.length + turns ≤ g.size + 1)
      (hfault : e.OfShape) : Counted g met turns (.error e)

namespace Counted

theorem cons (h : Counted g (met ++ [id]) turns answer) : Counted g met (turns + 1) answer := by
  cases h with
  | @ok l hdistinct =>
      have hlist : met ++ [id] ++ l = met ++ id :: l := by simp
      rw [hlist] at hdistinct ⊢
      exact .ok hdistinct
  | error hturns hfault =>
      refine .error ?_ hfault
      rw [List.length_append, List.length_singleton] at hturns
      omega

theorem append {l : List NodeId} (h : Counted g (met ++ l) turns answer) :
    Counted g met (l.length + turns) answer := by
  cases h with
  | @ok m hdistinct =>
      rw [List.append_assoc] at hdistinct ⊢
      rw [← List.length_append]
      exact .ok hdistinct
  | error hturns hfault =>
      refine .error ?_ hfault
      rw [List.length_append] at hturns
      omega

theorem size_of_ok (h : Counted g [] turns (.ok ns)) : turns = ns.size ∧ ns.size ≤ g.size := by
  cases h with
  | @ok l hdistinct =>
      have hsize : (ofList g ([] ++ l)).size = l.length := by
        rw [size, ← Array.length_toList, sequence_ofList, List.nil_append]
      have hle := hdistinct.length_le
      rw [List.nil_append] at hle
      exact ⟨hsize.symm, by omega⟩

theorem le_of_error (h : Counted g [] turns (.error e)) : turns ≤ g.size + 1 := by
  cases h with
  | error hturns _ => simpa using hturns

theorem ofShape (h : Counted g met turns (.error e)) : e.OfShape := by
  cases h with
  | error _ hfault => exact hfault

end Counted

/-- The loop ends, and a bound that leaves a step for each node without a number and one more is not
met. -/
theorem exists_walks {fuel : Nat} (stack : List NodeId) (h : Distinct g met)
    (hfuel : g.size + 1 ≤ fuel + met.length) :
    ∃ turns answer, Walks g stack (ofList g met) turns answer ∧
      walk g fuel stack (ofList g met) = answer ∧ Counted g met turns answer := by
  have hmet := h.length_le
  induction fuel generalizing stack met with
  | zero => omega
  | succ fuel ih =>
      cases stack with
      | nil =>
          have hdone : Counted g met 0 (.ok (ofList g met)) := by
            have hok := Counted.ok (l := []) (by simpa using h)
            simpa using hok
          exact ⟨0, _, .done, rfl, hdone⟩
      | cons id stack =>
          unfold walk
          by_cases hmem : id ∈ met
          · have hown := (own?_ofList_isSome_iff h).mpr hmem
            rw [if_pos hown]
            exact ⟨1, _, .shared hown, rfl, .error (by omega) trivial⟩
          · have hown : ¬((ofList g met).own? id).isSome := fun hs =>
              hmem ((own?_ofList_isSome_iff h).mp hs)
            have hnone : (ofList g met).own? id = none := by simpa using hown
            rw [if_neg hown]
            cases hn : g.node? id with
            | none => exact ⟨1, _, .absent hnone hn, rfl, .error (by omega) trivial⟩
            | some n =>
                have hnext : Distinct g (met ++ [id]) := by
                  refine ⟨List.nodup_append_comm.mp (by simp [hmem, h.nodup]), fun x hx => ?_⟩
                  rcases List.mem_append.mp hx with hx | hx
                  · exact h.node x hx
                  · exact ⟨n, List.mem_singleton.mp hx ▸ hn⟩
                have hlength : (met ++ [id]).length = met.length + 1 := by simp
                obtain ⟨turns, answer, hwalks, heq, hcounted⟩ :=
                  ih (n.kind.children ++ stack) hnext (by omega) hnext.length_le
                rw [ofList_concat] at hwalks heq
                exact ⟨turns + 1, answer, .push hnone hn hwalks, heq, hcounted.cons⟩

/-- The loop over all trees ends, and gives what numbering the trees one after the other gives. -/
theorem exists_walksTrees (roots : List NodeId) (h : Distinct g met) :
    ∃ turns answer, WalksTrees g roots (ofList g met) turns answer ∧
      roots.foldlM (addTree g) (ofList g met) = answer ∧ Counted g met turns answer := by
  have hfuel : ∀ met : List NodeId, g.size + 1 ≤ g.budget + met.length := fun met => by
    unfold Graph.budget
    omega
  induction roots generalizing met with
  | nil =>
      have hdone := Counted.ok (l := []) (by simpa using h)
      exact ⟨0, _, .nil, rfl, by simpa using hdone⟩
  | cons root roots ih =>
      rw [List.foldlM_cons]
      unfold addTree
      by_cases hown : ((ofList g met).own? root).isSome
      · rw [if_pos hown]
        obtain ⟨turns, answer, hrest, heq, hcounted⟩ := ih h
        exact ⟨turns, answer, .skip hown hrest, heq, hcounted⟩
      · have hnone : (ofList g met).own? root = none := by simpa using hown
        rw [if_neg hown]
        obtain ⟨turns, answer, htree, heq, hcounted⟩ :=
          exists_walks [root] h (hfuel met)
        rw [heq]
        cases hcounted with
        | error hturns hfault => exact ⟨turns, _, .fail hnone htree, rfl, .error hturns hfault⟩
        | @ok l hdistinct =>
            obtain ⟨turns', answer', hrest, heq', hcounted'⟩ := ih hdistinct
            exact ⟨_, answer', .tree hnone htree hrest, heq', hcounted'.append⟩

/-! ## Faults of numbering -/

theorem ofShape_of_lastReferent (h : g.lastReferent id = .error e) : e.OfShape := by
  have hcomes := Graph.lastReferent_eq_iff.mp h
  cases hcomes with
  | absent _ _ | endless _ => trivial

theorem ofShape_of_addReferent (h : addReferent g ns id = .error e) : e.OfShape := by
  unfold addReferent at h
  cases hn : g.node id with
  | error e' =>
      simp only [hn, bind, Except.bind, Except.error.injEq] at h
      have hfault := (Graph.node_eq_error_iff.mp hn).2
      rw [← h, hfault]
      trivial
  | ok n =>
      cases hr : n.referent with
      | none => simp [hn, hr, bind, Except.bind, pure, Except.pure] at h
      | some next =>
          cases hlast : g.lastReferent id with
          | ok last => simp [hn, hr, hlast, bind, Except.bind, pure, Except.pure] at h
          | error e' =>
              simp only [hn, hr, hlast, bind, Except.bind, Except.error.injEq] at h
              exact h ▸ ofShape_of_lastReferent hlast

theorem ofShape_of_foldlM_addReferent (h : ids.foldlM (addReferent g) ns = .error e) :
    e.OfShape := by
  induction ids generalizing ns with
  | nil => cases h
  | cons id ids ih =>
      rw [List.foldlM_cons] at h
      cases hstep : addReferent g ns id with
      | error e' =>
          simp only [hstep, bind, Except.bind, Except.error.injEq] at h
          exact h ▸ ofShape_of_addReferent hstep
      | ok ns' =>
          simp only [hstep, bind, Except.bind] at h
          exact ih h

/-- A program gets no numbering only if the shape of its graph forbids it. -/
theorem ofShape_of_ofProgram {run : NodeId} (h : ofProgram g run roots = .error e) :
    e.OfShape := by
  obtain ⟨turns, answer, _, heq, hcounted⟩ :=
    exists_walksTrees (g := g) (run :: roots) ⟨List.nodup_nil, List.forall_mem_nil _⟩
  change (run :: roots).foldlM (addTree g) (empty g) = answer at heq
  unfold ofProgram at h
  rw [heq] at h
  cases answer with
  | error e' =>
      cases h
      exact hcounted.ofShape
  | ok ns => exact ofShape_of_foldlM_addReferent h

end Numbering

end BlockScript
