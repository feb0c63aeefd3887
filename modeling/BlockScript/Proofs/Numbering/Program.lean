import BlockScript.Proofs.Graph.Entered
import BlockScript.Proofs.Graph.Referent
import BlockScript.Proofs.Numbering.Walk
/-!
# The numbers of a program

A program's numbering is made in two parts: a traversal of the trees of its roots, then, for each
node met, a note of the last referent it leads to (`ofProgram_eq_ok_iff`).  What follows for the
finished numbering is collected in `Noted`, for all numbered nodes, and in `Covers`, for the nodes
met in the trees.
-/

namespace BlockScript.Numbering

open BlockScript.Graph (PreOrder Traversal Distinct LeadsTo IsTree)

variable {g : Graph} {ns ns' : Numbering} {id last : NodeId} {ids all : List NodeId}

/-! ## Noting the last referents -/

/-- Notes that the referents from a node lead to another, which gets a number if it has none. -/
def complete (ns : Numbering) (id last : NodeId) : Numbering :=
  if last = id then ns
  else (if (ns.own? last).isSome then ns else ns.push last).noteReferent id last

theorem addReferent_eq_ok_iff :
    addReferent g ns id = .ok ns' ↔ ∃ last, LeadsTo g id last ∧ ns' = ns.complete id last := by
  unfold addReferent Graph.node
  cases hn : g.node? id with
  | none =>
      simp only [bind, Except.bind, reduceCtorEq, false_iff, not_exists, not_and]
      intro last hlast
      obtain ⟨n, hn'⟩ := hlast.node
      rw [hn] at hn'
      cases hn'
  | some n =>
      cases hr : n.referent with
      | none =>
          simp only [hr, bind, Except.bind, pure, Except.pure, Except.ok.injEq]
          constructor
          · rintro rfl
            exact ⟨id, .last hn hr, by simp [complete]⟩
          · rintro ⟨last, hlast, rfl⟩
            rw [hlast.eq_of_referent_none hn hr]
            simp [complete]
      | some next =>
          have hne : ∀ last, LeadsTo g id last → last ≠ id := by
            rintro last hlast rfl
            obtain ⟨m, hm, hmr⟩ := hlast.target
            obtain rfl := Option.some.inj (hn.symm.trans hm)
            rw [hr] at hmr
            cases hmr
          cases hlast : g.lastReferent id with
          | error e =>
              simp only [hr, bind, Except.bind, reduceCtorEq, false_iff, not_exists, not_and]
              intro last h
              rw [Graph.lastReferent_eq_ok_iff.mpr h] at hlast
              cases hlast
          | ok last =>
              have hleads := Graph.lastReferent_eq_ok_iff.mp hlast
              simp only [hr, bind, Except.bind, pure, Except.pure, Except.ok.injEq]
              constructor
              · rintro rfl
                exact ⟨last, hleads, by simp [complete, hne last hleads]⟩
              · rintro ⟨last', hleads', rfl⟩
                obtain rfl := hleads.unique hleads'
                simp [complete, hne last hleads]

/-- For each of the nodes in turn the last referent is noted. -/
inductive Completion (g : Graph) : List NodeId → Numbering → Numbering → Prop where
  | nil {ns : Numbering} : Completion g [] ns ns
  | cons {id last : NodeId} {ids : List NodeId} {ns ns' : Numbering} (hlast : LeadsTo g id last)
      (hrest : Completion g ids (ns.complete id last) ns') : Completion g (id :: ids) ns ns'

theorem foldlM_addReferent_eq_ok_iff :
    ids.foldlM (addReferent g) ns = .ok ns' ↔ Completion g ids ns ns' := by
  induction ids generalizing ns with
  | nil =>
      simp only [List.foldlM_nil, pure, Except.pure, Except.ok.injEq]
      constructor
      · rintro rfl
        exact .nil
      · intro h
        cases h
        rfl
  | cons id ids ih =>
      rw [List.foldlM_cons]
      constructor
      · intro hok
        cases hstep : addReferent g ns id with
        | error e => simp [hstep, bind, Except.bind] at hok
        | ok ns₁ =>
            obtain ⟨last, hlast, rfl⟩ := addReferent_eq_ok_iff.mp hstep
            rw [hstep] at hok
            exact .cons hlast (ih.mp hok)
      · intro h
        cases h with
        | cons hlast hrest =>
            rw [addReferent_eq_ok_iff.mpr ⟨_, hlast, rfl⟩]
            exact ih.mpr hrest

/-- Numbering a program is a traversal of its trees and the notes of the last referents. -/
theorem ofProgram_eq_ok_iff {run : NodeId} {roots : List NodeId} :
    ofProgram g run roots = .ok ns ↔
      ∃ all, Traversal g [] (run :: roots) all ∧ Completion g all (ofList g all) ns := by
  have hempty : Distinct g [] := ⟨by simp, by simp⟩
  unfold ofProgram
  constructor
  · intro hok
    cases htrees : (run :: roots).foldlM (addTree g) (ofList g []) with
    | error e =>
        change (run :: roots).foldlM (addTree g) (empty g) = _ at htrees
        simp [htrees, bind, Except.bind] at hok
    | ok ns₁ =>
        obtain ⟨all, hall, rfl⟩ := (foldlM_addTree_eq_ok_iff hempty).mp htrees
        change (run :: roots).foldlM (addTree g) (empty g) = _ at htrees
        simp only [htrees, bind, Except.bind, sequence_ofList] at hok
        exact ⟨all, hall, foldlM_addReferent_eq_ok_iff.mp hok⟩
  · rintro ⟨all, hall, hcompletion⟩
    have htrees := (foldlM_addTree_eq_ok_iff hempty).mpr ⟨all, hall, rfl⟩
    change (run :: roots).foldlM (addTree g) (empty g) = _ at htrees
    simp only [htrees, bind, Except.bind, sequence_ofList]
    exact foldlM_addReferent_eq_ok_iff.mpr hcompletion

/-- The notes can be made exactly if the referents of each node lead to an end. -/
theorem exists_completion_iff :
    (∃ ns', Completion g ids ns ns') ↔ ∀ id ∈ ids, ∃ last, LeadsTo g id last := by
  induction ids generalizing ns with
  | nil => simpa using ⟨ns, .nil⟩
  | cons id ids ih =>
      rw [List.forall_mem_cons]
      constructor
      · rintro ⟨ns', h⟩
        cases h with
        | cons hlast hrest => exact ⟨⟨_, hlast⟩, ih.mp ⟨ns', hrest⟩⟩
      · rintro ⟨⟨last, hlast⟩, hrest⟩
        obtain ⟨ns', h⟩ := ih.mpr hrest
        exact ⟨ns', .cons hlast h⟩

/-! ## The finished numbering -/

/-- A numbering in which the last referents of `done` are noted.  All nodes numbered for their sake
have no referent. -/
structure Noted (g : Graph) (done all : List NodeId) (ns : Numbering) : Prop where
  indexed : Indexed g ns
  leadsTo : ∀ id ∈ done, LeadsTo g id (ns.bearer id)
  numbered : ∀ id ∈ done, ns.bearer id ∈ ns.sequence.toList
  referent? : ∀ id, id ∉ done → ns.referent? id = none
  extends_all : all ⊆ ns.sequence.toList
  late : ∀ id ∈ ns.sequence.toList, id ∉ all → LeadsTo g id id

theorem bearer_of_referent?_none (h : ns.referent? id = none) : ns.bearer id = id := by
  simp [bearer, h]

theorem serial_eq_ok_iff {k : Nat} : ns.serial id = .ok k ↔ ns.own? (ns.bearer id) = some k := by
  unfold serial
  cases ns.own? (ns.bearer id) <;> simp

theorem bearer_noteReferent_of_ne {other referent : NodeId} (h : id ≠ other) :
    (ns.noteReferent id referent).bearer other = ns.bearer other := by
  simp [bearer, referent?_noteReferent_of_ne ns h]

namespace Noted

variable {done : List NodeId}

/-- One more node with a number of its own, which referents lead to. -/
theorem push (h : Noted g done all ns) (hlast : LeadsTo g id last) :
    Noted g done all (if (ns.own? last).isSome then ns else ns.push last) ∧
      last ∈ (if (ns.own? last).isSome then ns else ns.push last).sequence.toList := by
  by_cases hown : (ns.own? last).isSome
  · rw [if_pos hown]
    exact ⟨h, h.indexed.own?_isSome_iff.mp hown⟩
  · rw [if_neg hown]
    obtain ⟨n, hn, _⟩ := hlast.target
    have hseq : (ns.push last).sequence.toList = ns.sequence.toList ++ [last] := by
      simp [Numbering.push]
    refine ⟨⟨h.indexed.push hn (by simpa using hown), h.leadsTo, fun x hx => ?_, h.referent?,
      fun x hx => ?_, fun x hx hxall => ?_⟩, by simp [hseq]⟩
    · rw [hseq]
      exact List.mem_append_left _ (h.numbered x hx)
    · rw [hseq]
      exact List.mem_append_left _ (h.extends_all hx)
    · rw [hseq] at hx
      rcases List.mem_append.mp hx with hx | hx
      · exact h.late x hx hxall
      · exact List.mem_singleton.mp hx ▸ hlast.target_self

theorem complete (h : Noted g done all ns) (hid : id ∉ done) (hmem : id ∈ all)
    (hlast : LeadsTo g id last) : Noted g (done ++ [id]) all (ns.complete id last) := by
  obtain ⟨n, hn⟩ := hlast.node
  unfold Numbering.complete
  by_cases heq : last = id
  · subst heq
    have hself : ns.bearer last = last := bearer_of_referent?_none (h.referent? last hid)
    rw [if_pos rfl]
    refine ⟨h.indexed, ?_, ?_, fun x hx => h.referent? x (by simp_all), h.extends_all, h.late⟩
    · intro x hx
      rcases List.mem_append.mp hx with hx | hx
      · exact h.leadsTo x hx
      · rw [List.mem_singleton.mp hx, hself]
        exact hlast
    · intro x hx
      rcases List.mem_append.mp hx with hx | hx
      · exact h.numbered x hx
      · rw [List.mem_singleton.mp hx, hself]
        exact h.extends_all hmem
  · rw [if_neg heq]
    obtain ⟨h', hseq⟩ := h.push hlast
    generalize (if (ns.own? last).isSome then ns else ns.push last) = ns₁ at h' hseq ⊢
    have hbearer : (ns₁.noteReferent id last).bearer id = last := by
      have hlt : id.index < ns₁.referents.size := by
        rw [h'.indexed.referents_size]
        exact Graph.index_lt_size hn
      simp [bearer, referent?_noteReferent_self hlt]
    have hother : ∀ x ∈ done, (ns₁.noteReferent id last).bearer x = ns₁.bearer x := fun x hx =>
      bearer_noteReferent_of_ne (fun e => hid (e ▸ hx))
    refine ⟨h'.indexed.noteReferent id last, ?_, ?_, fun x hx => ?_, h'.extends_all, h'.late⟩
    · intro x hx
      rcases List.mem_append.mp hx with hx | hx
      · rw [hother x hx]
        exact h'.leadsTo x hx
      · rw [List.mem_singleton.mp hx, hbearer]
        exact hlast
    · intro x hx
      rcases List.mem_append.mp hx with hx | hx
      · rw [hother x hx]
        exact h'.numbered x hx
      · rw [List.mem_singleton.mp hx, hbearer]
        exact hseq
    · simp only [List.mem_append, List.mem_singleton, not_or] at hx
      rw [referent?_noteReferent_of_ne ns₁ (fun e => hx.2 e.symm)]
      exact h'.referent? x hx.1

theorem completion (h : Noted g done all ns) (hids : (done ++ ids).Nodup) (hsub : ids ⊆ all)
    (hcompletion : Completion g ids ns ns') : Noted g (done ++ ids) all ns' := by
  induction hcompletion generalizing done with
  | nil => simpa using h
  | @cons id last ids ns ns' hlast hrest ih =>
      have hid : id ∉ done := fun hmem =>
        List.disjoint_of_nodup_append hids hmem List.mem_cons_self
      have hstep := h.complete hid (hsub List.mem_cons_self) hlast
      have hrest' := ih hstep (by simpa using hids) (fun x hx => hsub (List.mem_cons_of_mem _ hx))
      simpa using hrest'

end Noted

theorem noted_ofList (h : Distinct g all) : Noted g [] all (ofList g all) := by
  refine ⟨indexed_ofList h, by simp, by simp, fun id _ => referent?_ofList all id, by simp, ?_⟩
  intro id hid hnot
  rw [sequence_ofList] at hid
  exact absurd hid hnot

theorem noted_of_completion {run : NodeId} {roots : List NodeId}
    (hall : Traversal g [] (run :: roots) all) (hcompletion : Completion g all (ofList g all) ns) :
    Distinct g all ∧ Noted g all all ns := by
  have hdistinct : Distinct g all := hall.distinct ⟨by simp, by simp⟩
  have hnoted := (noted_ofList hdistinct).completion (by simpa using hdistinct.nodup)
    (List.Subset.refl all) hcompletion
  exact ⟨hdistinct, by simpa using hnoted⟩

theorem exists_noted {run : NodeId} {roots : List NodeId} (h : ofProgram g run roots = .ok ns) :
    ∃ all, Traversal g [] (run :: roots) all ∧ Distinct g all ∧ Noted g all all ns := by
  obtain ⟨all, hall, hcompletion⟩ := ofProgram_eq_ok_iff.mp h
  exact ⟨all, hall, noted_of_completion hall hcompletion⟩

/-- The nodes in a program's trees: closed under slots, each with a number to use and with the last
referent known. -/
structure Covers (g : Graph) (ns : Numbering) (nodes : List NodeId) : Prop where
  tree : ∀ id ∈ nodes, IsTree g id
  child : ∀ id ∈ nodes, ∀ n, g.node? id = some n → ∀ c ∈ n.kind.children, c ∈ nodes
  leadsTo : ∀ id ∈ nodes, LeadsTo g id (ns.bearer id)
  serial : ∀ id ∈ nodes, ∃ k, ns.serial id = .ok k

theorem Covers.subset_of_preOrder {nodes l : List NodeId} (h : Covers g ns nodes)
    (hl : PreOrder g ids l) (hids : ids ⊆ nodes) : l ⊆ nodes := by
  induction hl with
  | nil => exact List.nil_subset nodes
  | cons hn _ _ ihbelow ihbeside =>
      have hid := hids List.mem_cons_self
      refine List.cons_subset.mpr ⟨hid, List.append_subset.mpr ⟨?_, ?_⟩⟩
      · exact ihbelow fun c hc => h.child _ hid _ hn c hc
      · exact ihbeside fun x hx => hids (List.mem_cons_of_mem _ hx)

theorem Covers.mem_of_entered {starts nodes : List NodeId} (h : Covers g ns nodes)
    (hstarts : ∀ x ∈ starts, x ∈ nodes) (hid : g.Entered starts id) : id ∈ nodes :=
  hid.induction hstarts fun x n c hx hn hc => h.child x hx n hn c hc

theorem Covers.entry_mem {α : Type} {read : NodeId → Except GraphFault (Option α)}
    {next : α → NodeId} {nodes : List NodeId} (h : Covers g ns nodes) (hid : id ∈ nodes)
    (hslots : g.FollowsSlots read next) {fuel : Nat} {entry : NodeId × α}
    (hentry : entry ∈ (Chain.follow read next fuel id).entries) : entry.1 ∈ nodes := by
  obtain ⟨l, hl, _⟩ := h.tree id hid
  obtain ⟨hmem, _⟩ := hl.mem_of_entry hslots hentry
  exact h.subset_of_preOrder hl (by simpa using hid) hmem

/-- The operands of an expression: in its slots, or the values of a chain of arguments in one. -/
theorem Covers.operand_mem {nodes below : List NodeId} {e : Expression} (h : Covers g ns nodes)
    (hid : id ∈ nodes) (hl : PreOrder g [id] (id :: below)) (he : g.expression id = .ok e) :
    (∀ x ∈ e.children, x ∈ below ∧ x ∈ nodes) ∧
      ∀ args, e = .call args → ∀ entry ∈ (g.arguments args).entries,
        entry.2.value ∈ below ∧ entry.2.value ∈ nodes := by
  obtain ⟨n, hn, hkind⟩ := Graph.expression_eq_ok_iff.mp he
  obtain ⟨below', hbelow, hcons⟩ := hl.slots hn
  obtain rfl := (List.cons.inj hcons).2
  have hslots : n.kind.children = e.children := by rw [hkind]; rfl
  have hnodes : below ⊆ nodes := h.subset_of_preOrder hbelow (h.child id hid n hn)
  rw [hslots] at hbelow
  constructor
  · intro x hx
    exact ⟨hbelow.subset hx, hnodes (hbelow.subset hx)⟩
  · rintro args rfl entry hentry
    have hmem : entry.2.value ∈ below := PreOrder.value_mem_of_entry hbelow hentry
    exact ⟨hmem, hnodes hmem⟩

/-- The slots of a statement and the rest of its chain. -/
theorem Covers.statement_mem {nodes below : List NodeId} {s : Statement} (h : Covers g ns nodes)
    (hid : id ∈ nodes) (hl : PreOrder g [id] (id :: below))
    (hs : g.statement id = .ok (some s)) :
    (∀ x ∈ s.kind.children, x ∈ below ∧ x ∈ nodes) ∧ s.next ∈ below ∧ s.next ∈ nodes := by
  obtain ⟨n, hn, hkind⟩ := Graph.statement_eq_some_iff.mp hs
  obtain ⟨below', hbelow, hcons⟩ := hl.slots hn
  obtain rfl := (List.cons.inj hcons).2
  have hslots : n.kind.children = s.kind.children ++ [s.next] := by rw [hkind]; rfl
  have hmem : ∀ x ∈ n.kind.children, x ∈ below ∧ x ∈ nodes := fun x hx =>
    ⟨hbelow.subset hx, h.child id hid n hn x hx⟩
  rw [hslots] at hmem
  exact ⟨fun x hx => hmem x (List.mem_append_left _ hx), hmem s.next (by simp)⟩

theorem covers_of_noted {run : NodeId} {roots : List NodeId}
    (htraversal : Traversal g [] (run :: roots) all) (h : Noted g all all ns) :
    Covers g ns all := by
  refine ⟨fun id hid => ?_, fun id hid n hn c hc => ?_, h.leadsTo, fun id hid => ?_⟩
  · obtain ⟨l, hl, hnodup, _⟩ := htraversal.exists_tree hid (by simp)
    exact ⟨l, hl, hnodup⟩
  · obtain ⟨l, hl, _, hsub⟩ := htraversal.exists_tree hid (by simp)
    obtain ⟨lc, hlc, hsublist, _⟩ := hl.child hn hc
    exact hsub.subset (hsublist.subset (hlc.subset (List.mem_singleton_self c)))
  · obtain ⟨k, hk⟩ := Option.isSome_iff_exists.mp
      (h.indexed.own?_isSome_iff.mpr (h.numbered id hid))
    exact ⟨k, serial_eq_ok_iff.mpr hk⟩

end BlockScript.Numbering
