import BlockScript.Numbering
import BlockScript.Proofs.Graph.PreOrder
import Mathlib.Logic.Relation
/-!
# Referents

`LeadsTo g id last`: the referents from `id` lead through existing nodes to `last`, which has none.
They may also lead to an id without node, or lead on from every node that they lead to (`Endless`).
The search stops after as many steps as the graph has nodes, and one more.  A way of that many steps
meets a node twice, so it has come round and never ends (`exists_cycle_of_goesOn`); hence the search
never stops too early, and what it answers tells the three cases apart (`lastReferent_outcomes`).
-/

namespace BlockScript.Graph

/-- The referents from a node lead through existing nodes to one without referent. -/
inductive LeadsTo (g : Graph) : NodeId → NodeId → Prop where
  | last {id : NodeId} {n : Node} (hn : g.node? id = some n) (hr : n.referent = none) :
      LeadsTo g id id
  | step {id next last : NodeId} {n : Node} (hn : g.node? id = some n)
      (hr : n.referent = some next) (hnext : LeadsTo g next last) : LeadsTo g id last

variable {g : Graph} {id last x y : NodeId} {fuel : Nat}

/-! ## Single links -/

/-- The first id is that of a node, whose referent is the second. -/
def Refers (g : Graph) (id next : NodeId) : Prop :=
  ∃ n, g.node? id = some n ∧ n.referent = some next

/-- Referents lead from the first id to the second, or they are the same.  The second need not be
the id of a node. -/
def Reaches (g : Graph) : NodeId → NodeId → Prop :=
  Relation.ReflTransGen g.Refers

theorem Refers.unique (h : g.Refers id x) (h' : g.Refers id y) : x = y := by
  obtain ⟨n, hn, hr⟩ := h
  obtain ⟨n', hn', hr'⟩ := h'
  obtain rfl := Option.some.inj (hn.symm.trans hn')
  exact Option.some.inj (hr.symm.trans hr')

theorem not_refers_of_absent (h : g.node? id = none) (next : NodeId) : ¬g.Refers id next := by
  rintro ⟨n, hn, _⟩
  rw [h] at hn
  cases hn

theorem not_refers_of_referent_none {n : Node} (hn : g.node? id = some n) (hr : n.referent = none)
    (next : NodeId) : ¬g.Refers id next := by
  rintro ⟨n', hn', hr'⟩
  obtain rfl := Option.some.inj (hn.symm.trans hn')
  rw [hr] at hr'
  cases hr'

/-- Two ids from which no referent leads on are the same if both are reached from one node. -/
theorem Reaches.eq_of_ends (h : g.Reaches id x) (h' : g.Reaches id y)
    (hx : ∀ next, ¬g.Refers x next) (hy : ∀ next, ¬g.Refers y next) : x = y := by
  have hunique : Relator.RightUnique g.Refers := fun _ _ _ => Refers.unique
  rcases h.total_of_right_unique hunique h' with hxy | hyx
  · rcases hxy.cases_head with rfl | ⟨next, hnext, _⟩
    · rfl
    · exact absurd hnext (hx next)
  · rcases hyx.cases_head with rfl | ⟨next, hnext, _⟩
    · rfl
    · exact absurd hnext (hy next)

/-! ## Last referents -/

namespace LeadsTo

theorem target (h : LeadsTo g id last) : ∃ n, g.node? last = some n ∧ n.referent = none := by
  induction h with
  | last hn hr => exact ⟨_, hn, hr⟩
  | step _ _ _ ih => exact ih

theorem target_self (h : LeadsTo g id last) : LeadsTo g last last := by
  obtain ⟨n, hn, hr⟩ := h.target
  exact .last hn hr

theorem node (h : LeadsTo g id last) : ∃ n, g.node? id = some n := by
  cases h with
  | last hn _ => exact ⟨_, hn⟩
  | step hn _ _ => exact ⟨_, hn⟩

theorem reaches (h : LeadsTo g id last) : g.Reaches id last := by
  induction h with
  | last _ _ => exact .refl
  | step hn hr _ ih => exact .head ⟨_, hn, hr⟩ ih

theorem not_refers (h : LeadsTo g id last) : ∀ next, ¬g.Refers last next := by
  obtain ⟨n, hn, hr⟩ := h.target
  exact not_refers_of_referent_none hn hr

theorem unique {other : NodeId} (h : LeadsTo g id last) (h' : LeadsTo g id other) :
    last = other :=
  h.reaches.eq_of_ends h'.reaches h.not_refers h'.not_refers

theorem eq_of_referent_none {n : Node} (h : LeadsTo g id last) (hn : g.node? id = some n)
    (hr : n.referent = none) : last = id :=
  h.unique (.last hn hr)

/-- Every id on the way to the last referent is that of a node. -/
theorem node?_ne_none (h : LeadsTo g id last) (hx : g.Reaches id x) : g.node? x ≠ none := by
  intro hnone
  obtain rfl := h.reaches.eq_of_ends hx h.not_refers (not_refers_of_absent hnone)
  obtain ⟨n, hn, _⟩ := h.target
  rw [hnone] at hn
  cases hn

end LeadsTo

/-! ## Ways without end -/

/-- Every id that the referents lead to is that of a node, and has a referent. -/
def Endless (g : Graph) (id : NodeId) : Prop :=
  ∀ x, g.Reaches id x → ∃ next, g.Refers x next

theorem Endless.not_ends (h : Endless g id) (hx : g.Reaches id x) :
    ¬∀ next, ¬g.Refers x next := by
  intro hends
  obtain ⟨next, hnext⟩ := h x hx
  exact hends next hnext

/-- The referents from a node lead on for so many steps, each from a node. -/
inductive GoesOn (g : Graph) : Nat → NodeId → Prop where
  | zero {id : NodeId} : GoesOn g 0 id
  | step {k : Nat} {id next : NodeId} (hrefers : g.Refers id next) (hnext : GoesOn g k next) :
      GoesOn g (k + 1) id

/-- Where no way comes round, the nodes on one are different. -/
theorem GoesOn.exists_path {k : Nat} (h : GoesOn g k id)
    (hacyclic : ∀ x, g.Reaches id x → ¬Relation.TransGen g.Refers x x) :
    ∃ path : List NodeId, path.length = k ∧ path.Nodup ∧
      ∀ x ∈ path, g.Reaches id x ∧ ∃ n, g.node? x = some n := by
  induction h with
  | zero => exact ⟨[], rfl, List.nodup_nil, List.forall_mem_nil _⟩
  | @step k id next hrefers _ ih =>
      obtain ⟨path, hlength, hnodup, hpath⟩ := ih fun x hx => hacyclic x (.head hrefers hx)
      have hid : id ∉ path := fun hmem => hacyclic id .refl (.head' hrefers (hpath id hmem).1)
      have hnode : ∃ n, g.node? id = some n := hrefers.imp fun _ => And.left
      refine ⟨id :: path, congrArg (· + 1) hlength, List.nodup_cons.mpr ⟨hid, hnodup⟩, ?_⟩
      rw [List.forall_mem_cons]
      exact ⟨⟨.refl, hnode⟩, fun x hx => ⟨.head hrefers (hpath x hx).1, (hpath x hx).2⟩⟩

/-- A way of more steps than the graph has nodes has come round. -/
theorem exists_cycle_of_goesOn {k : Nat} (h : GoesOn g k id) (hk : g.size < k) :
    ∃ x, g.Reaches id x ∧ Relation.TransGen g.Refers x x := by
  by_contra hnone
  obtain ⟨path, hlength, hnodup, hpath⟩ :=
    h.exists_path fun x hx hcycle => hnone ⟨x, hx, hcycle⟩
  have hle := length_le_size hnodup fun x hx => (hpath x hx).2
  omega

/-- From each node that is reached the way leads back to the cycle, so it leads on. -/
theorem endless_of_cycle (hx : g.Reaches id x) (hcycle : Relation.TransGen g.Refers x x) :
    Endless g id := by
  intro y hy
  have hback : Relation.TransGen g.Refers y x := by
    induction hy with
    | refl => exact .trans_right hx hcycle
    | tail _ hrefers ih =>
        obtain ⟨next, hnext, hrest⟩ := Relation.TransGen.head'_iff.mp ih
        obtain rfl := hrefers.unique hnext
        exact .trans_right hrest hcycle
  obtain ⟨next, hnext, _⟩ := Relation.TransGen.head'_iff.mp hback
  exact ⟨next, hnext⟩

theorem Endless.goesOn (h : Endless g id) (k : Nat) : GoesOn g k id := by
  induction k generalizing id with
  | zero => exact .zero
  | succ k ih =>
      obtain ⟨next, hnext⟩ := h id .refl
      exact .step hnext (ih fun x hx => h x (.head hnext hx))

theorem endless_iff_exists_cycle :
    Endless g id ↔ ∃ x, g.Reaches id x ∧ Relation.TransGen g.Refers x x := by
  constructor
  · exact fun h => exists_cycle_of_goesOn (h.goesOn (g.size + 1)) (Nat.lt_succ_self _)
  · rintro ⟨x, hx, hcycle⟩
    exact endless_of_cycle hx hcycle

/-! ## The search -/

/-- The search answers with the node that the referents lead to, with the id at which no node is,
or, if they lead on for all its steps, that they are endless. -/
theorem lastReferentWithin_cases (g : Graph) (start : NodeId) (fuel : Nat) (id : NodeId) :
    (∃ last, g.lastReferentWithin start fuel id = .ok last ∧ LeadsTo g id last) ∨
      (∃ missing, g.lastReferentWithin start fuel id = .error (.absent missing) ∧
        g.Reaches id missing ∧ g.node? missing = none) ∨
      (g.lastReferentWithin start fuel id = .error (.endlessReferent start) ∧
        GoesOn g fuel id) := by
  induction fuel generalizing id with
  | zero => exact .inr (.inr ⟨rfl, .zero⟩)
  | succ fuel ih =>
      rw [lastReferentWithin]
      cases hn : g.node? id with
      | none => exact .inr (.inl ⟨id, rfl, .refl, hn⟩)
      | some n =>
          cases hr : n.referent with
          | none => exact .inl ⟨id, by simp only [hr], .last hn hr⟩
          | some next =>
              have hrefers : g.Refers id next := ⟨n, hn, hr⟩
              simp only [hr]
              rcases ih next with ⟨last, hanswer, hlast⟩ | ⟨missing, hanswer, hreach, hmissing⟩ |
                ⟨hanswer, hon⟩
              · exact .inl ⟨last, hanswer, .step hn hr hlast⟩
              · exact .inr (.inl ⟨missing, hanswer, .head hrefers hreach, hmissing⟩)
              · exact .inr (.inr ⟨hanswer, .step hrefers hon⟩)

/-- What the referents from a node come to, and so what the search has to answer. -/
inductive ComesTo (g : Graph) (id : NodeId) : Except GraphFault NodeId → Prop where
  | last {last : NodeId} (h : LeadsTo g id last) : ComesTo g id (.ok last)
  | absent {missing : NodeId} (hreach : g.Reaches id missing) (hmissing : g.node? missing = none) :
      ComesTo g id (.error (.absent missing))
  | endless (h : Endless g id) : ComesTo g id (.error (.endlessReferent id))

theorem ComesTo.unique {r r' : Except GraphFault NodeId} (h : ComesTo g id r)
    (h' : ComesTo g id r') : r = r' := by
  cases h with
  | last h =>
      cases h' with
      | last h' => exact congrArg Except.ok (h.unique h')
      | absent hreach hmissing => exact absurd hmissing (h.node?_ne_none hreach)
      | endless h' => exact absurd h.not_refers (h'.not_ends h.reaches)
  | absent hreach hmissing =>
      have hends := not_refers_of_absent hmissing
      cases h' with
      | last h' => exact absurd hmissing (h'.node?_ne_none hreach)
      | absent hreach' hmissing' =>
          rw [hreach.eq_of_ends hreach' hends (not_refers_of_absent hmissing')]
      | endless h' => exact absurd hends (h'.not_ends hreach)
  | endless h =>
      cases h' with
      | last h' => exact absurd h'.not_refers (h.not_ends h'.reaches)
      | absent hreach hmissing => exact absurd (not_refers_of_absent hmissing) (h.not_ends hreach)
      | endless _ => rfl

/-- More steps than the graph has nodes are enough to tell what the referents come to. -/
theorem lastReferentWithin_eq_iff (h : g.size < fuel) {r : Except GraphFault NodeId} :
    g.lastReferentWithin id fuel id = r ↔ ComesTo g id r := by
  have hcomes : ComesTo g id (g.lastReferentWithin id fuel id) := by
    rcases lastReferentWithin_cases g id fuel id with ⟨last, hanswer, hlast⟩ |
      ⟨missing, hanswer, hreach, hmissing⟩ | ⟨hanswer, hon⟩
    · exact hanswer ▸ .last hlast
    · exact hanswer ▸ .absent hreach hmissing
    · obtain ⟨x, hx, hcycle⟩ := exists_cycle_of_goesOn hon h
      exact hanswer ▸ .endless (endless_of_cycle hx hcycle)
  constructor
  · rintro rfl
    exact hcomes
  · exact hcomes.unique

theorem lastReferent_eq_iff {r : Except GraphFault NodeId} :
    g.lastReferent id = r ↔ ComesTo g id r :=
  lastReferentWithin_eq_iff (Nat.lt_succ_self g.size)

theorem lastReferent_eq_ok_iff : g.lastReferent id = .ok last ↔ LeadsTo g id last := by
  rw [lastReferent_eq_iff]
  constructor
  · rintro ⟨h⟩
    exact h
  · exact .last

/-- The search finds the node without referent that the referents lead to, if there is one; it fails
at the id without node that they lead to, if there is one; and it finds them endless if each id that
they lead to is that of a node with a referent, which is so if they come round in a cycle, near or
far.  It answers nothing else, and with more steps it would answer the same. -/
theorem lastReferent_outcomes (g : Graph) (id : NodeId) :
    (∀ last, g.lastReferent id = .ok last ↔ LeadsTo g id last) ∧
      (∀ missing, g.lastReferent id = .error (.absent missing) ↔
        g.Reaches id missing ∧ g.node? missing = none) ∧
      (g.lastReferent id = .error (.endlessReferent id) ↔ Endless g id) ∧
      (Endless g id ↔ ∃ x, g.Reaches id x ∧ Relation.TransGen g.Refers x x) ∧
      ((∃ last, g.lastReferent id = .ok last) ∨
        (∃ missing, g.lastReferent id = .error (.absent missing)) ∨
        g.lastReferent id = .error (.endlessReferent id)) ∧
      ∀ more, g.lastReferentWithin id (g.budget + more) id = g.lastReferent id := by
  have hanswer := lastReferent_eq_iff.mp (Eq.refl (g.lastReferent id))
  refine ⟨fun last => lastReferent_eq_ok_iff, fun missing => ?_, ?_, endless_iff_exists_cycle, ?_,
    fun more => ?_⟩
  · rw [lastReferent_eq_iff]
    constructor
    · rintro (_ | ⟨hreach, hmissing⟩)
      exact ⟨hreach, hmissing⟩
    · exact fun h => .absent h.1 h.2
  · rw [lastReferent_eq_iff]
    constructor
    · rintro (_ | _ | h)
      exact h
    · exact .endless
  · generalize g.lastReferent id = r at hanswer
    cases hanswer with
    | last => exact .inl ⟨_, rfl⟩
    | absent => exact .inr (.inl ⟨_, rfl⟩)
    | endless => exact .inr (.inr rfl)
  · have hmore : g.size < g.budget + more := by
      unfold budget
      omega
    exact (lastReferentWithin_eq_iff hmore).mpr hanswer

/-- A way through all nodes, one that leads round behind its first node, and one out of the
graph. -/
example :
    let use (referent : Option NodeId) : Node := ⟨.expression .read, .child, referent⟩
    let along : Graph := ⟨#[use (some ⟨1⟩), use (some ⟨2⟩), use none]⟩
    let round : Graph := ⟨#[use (some ⟨1⟩), use (some ⟨2⟩), use (some ⟨1⟩)]⟩
    let out : Graph := ⟨#[use (some ⟨1⟩), use (some ⟨2⟩), use (some ⟨7⟩)]⟩
    along.lastReferent ⟨0⟩ = .ok ⟨2⟩ ∧ round.lastReferent ⟨0⟩ = .error (.endlessReferent ⟨0⟩) ∧
      out.lastReferent ⟨0⟩ = .error (.absent ⟨7⟩) := by
  exact ⟨rfl, rfl, rfl⟩

end BlockScript.Graph
