import BlockScript.Proofs.Graph.PreOrder
/-!
# Slots and chains

What the typed accessors accept, and chains without their bound on steps: from the root of a tree a
chain is its first entry and the chain from the next one (`follow_eq`).
-/

namespace BlockScript

namespace Graph

variable {g : Graph} {id : NodeId}

/-! ## The accessors -/

theorem statement_eq_some_iff {s : Statement} :
    g.statement id = .ok (some s) ↔ ∃ n, g.node? id = some n ∧ n.kind = .statement s := by
  refine contents_eq_ok_iff.trans (exists_congr fun n => and_congr_right fun _ => ?_)
  cases n.kind <;> simp

theorem statement_eq_none_iff :
    g.statement id = .ok none ↔ ∃ n, g.node? id = some n ∧ n.kind = .statementEnd := by
  refine contents_eq_ok_iff.trans (exists_congr fun n => and_congr_right fun _ => ?_)
  cases n.kind <;> simp

theorem declaration_eq_some_iff {d : Declaration} :
    g.declaration id = .ok (some d) ↔ ∃ n, g.node? id = some n ∧ n.kind = .declaration d := by
  refine contents_eq_ok_iff.trans (exists_congr fun n => and_congr_right fun _ => ?_)
  cases n.kind <;> simp

theorem declaration_eq_none_iff :
    g.declaration id = .ok none ↔ ∃ n, g.node? id = some n ∧ n.kind = .declarationEnd := by
  refine contents_eq_ok_iff.trans (exists_congr fun n => and_congr_right fun _ => ?_)
  cases n.kind <;> simp

theorem argument_eq_some_iff {a : Argument} :
    g.argument id = .ok (some a) ↔ ∃ n, g.node? id = some n ∧ n.kind = .argument a := by
  refine contents_eq_ok_iff.trans (exists_congr fun n => and_congr_right fun _ => ?_)
  cases n.kind <;> simp

theorem argument_eq_none_iff :
    g.argument id = .ok none ↔ ∃ n, g.node? id = some n ∧ n.kind = .argumentEnd := by
  refine contents_eq_ok_iff.trans (exists_congr fun n => and_congr_right fun _ => ?_)
  cases n.kind <;> simp

theorem expression_eq_ok_iff {e : Expression} :
    g.expression id = .ok e ↔ ∃ n, g.node? id = some n ∧ n.kind = .expression e := by
  refine contents_eq_ok_iff.trans (exists_congr fun n => and_congr_right fun _ => ?_)
  cases n.kind <;> simp

theorem definition_eq_ok_iff {d : Definition} :
    g.definition id = .ok d ↔ ∃ n, g.node? id = some n ∧ n.kind = .definition d := by
  refine contents_eq_ok_iff.trans (exists_congr fun n => and_congr_right fun _ => ?_)
  cases n.kind <;> simp

/-! ## Following a chain -/

/-- The chain goes through slots: the next node of an entry stands in a slot of the entry's. -/
def FollowsSlots {α : Type} (g : Graph) (read : NodeId → Except GraphFault (Option α))
    (next : α → NodeId) : Prop :=
  ∀ id a, read id = .ok (some a) → ∃ n, g.node? id = some n ∧ next a ∈ n.kind.children

theorem followsSlots_statement (g : Graph) : FollowsSlots g g.statement Statement.next := by
  intro id s h
  obtain ⟨n, hn, hk⟩ := statement_eq_some_iff.mp h
  exact ⟨n, hn, by simp [hk, NodeKind.children]⟩

theorem followsSlots_declaration (g : Graph) :
    FollowsSlots g g.declaration Declaration.next := by
  intro id d h
  obtain ⟨n, hn, hk⟩ := declaration_eq_some_iff.mp h
  exact ⟨n, hn, by simp [hk, NodeKind.children]⟩

theorem followsSlots_argument (g : Graph) : FollowsSlots g g.argument Argument.next := by
  intro id a h
  obtain ⟨n, hn, hk⟩ := argument_eq_some_iff.mp h
  exact ⟨n, hn, by simp [hk, NodeKind.children]⟩

variable {α : Type} {read : NodeId → Except GraphFault (Option α)} {next : α → NodeId}

/-- As many steps as the tree has nodes are enough for a chain in it. -/
theorem PreOrder.follow_eq {l : List NodeId} (h : PreOrder g [id] l)
    (hslots : FollowsSlots g read next) {fuel fuel' : Nat} (hfuel : l.length ≤ fuel)
    (hfuel' : l.length ≤ fuel') :
    Chain.follow read next fuel id = Chain.follow read next fuel' id := by
  induction fuel generalizing id l fuel' with
  | zero =>
      have hmem := h.subset (List.mem_singleton_self id)
      have hpos := List.length_pos_of_mem hmem
      omega
  | succ fuel ih =>
      obtain ⟨m, below, hm, hbelow, rfl⟩ := h.exists_of_singleton
      obtain ⟨fuel', rfl⟩ : ∃ k, fuel' = k + 1 := ⟨fuel' - 1, by simp at hfuel'; omega⟩
      unfold Chain.follow
      cases hread : read id with
      | error e => rfl
      | ok o =>
          cases o with
          | none => rfl
          | some a =>
              obtain ⟨n, hn, hmem⟩ := hslots id a hread
              obtain ⟨lc, hlc, _, hlt⟩ := h.child hn hmem
              have hrest : Chain.follow read next fuel (next a) =
                  Chain.follow read next fuel' (next a) := ih hlc (by omega) (by omega)
              simp [hrest]

/-- From the root of a tree a chain is its first entry and the chain from the next. -/
theorem IsTree.follow_eq (h : IsTree g id) (hslots : FollowsSlots g read next) :
    Chain.follow read next g.budget id =
      match read id with
      | .error e => ⟨[], .error e⟩
      | .ok none => ⟨[], .ok ()⟩
      | .ok (some a) =>
        let rest := Chain.follow read next g.budget (next a)
        ⟨(id, a) :: rest.entries, rest.ending⟩ := by
  obtain ⟨l, hl, hnodup⟩ := h
  have hle := hl.length_le hnodup
  conv_lhs => rw [budget]; unfold Chain.follow
  cases hread : read id with
  | error e => rfl
  | ok o =>
      cases o with
      | none => rfl
      | some a =>
          obtain ⟨n, hn, hmem⟩ := hslots id a hread
          obtain ⟨lc, hlc, hsub, hlt⟩ := hl.child hn hmem
          have hrest : Chain.follow read next g.size (next a) =
              Chain.follow read next g.budget (next a) :=
            hlc.follow_eq hslots (by omega) (by unfold budget; omega)
          simp [hrest]

theorem PreOrder.mem_of_entry {l : List NodeId} (h : PreOrder g [id] l)
    (hslots : FollowsSlots g read next) {fuel : Nat} {entry : NodeId × α}
    (hentry : entry ∈ (Chain.follow read next fuel id).entries) :
    entry.1 ∈ l ∧ read entry.1 = .ok (some entry.2) := by
  induction fuel generalizing id l with
  | zero => cases hentry
  | succ fuel ih =>
      unfold Chain.follow at hentry
      cases hread : read id with
      | error e => simp [hread] at hentry
      | ok o =>
          cases o with
          | none => simp [hread] at hentry
          | some a =>
              simp only [hread, List.mem_cons] at hentry
              rcases hentry with rfl | hentry
              · exact ⟨h.subset (List.mem_singleton_self _), hread⟩
              · obtain ⟨n, hn, hmem⟩ := hslots id a hread
                obtain ⟨lc, hlc, hsub, _⟩ := h.child hn hmem
                obtain ⟨hmem', hread'⟩ := ih hlc hentry
                exact ⟨hsub.subset hmem', hread'⟩

theorem PreOrder.value_mem_of_entry {l : List NodeId} (h : PreOrder g [id] l)
    {entry : NodeId × Argument} (hentry : entry ∈ (g.arguments id).entries) :
    entry.2.value ∈ l := by
  obtain ⟨hmem, hread⟩ := h.mem_of_entry (followsSlots_argument g) hentry
  obtain ⟨n, hn, hkind⟩ := argument_eq_some_iff.mp hread
  exact h.mem_of_child hmem hn (by simp [hkind, NodeKind.children])

/-- The trees of the values of a chain of arguments are parts of the tree of its head. -/
theorem PreOrder.exists_values {l : List NodeId} (h : PreOrder g [id] l) (fuel : Nat) :
    ∃ lv, PreOrder g
      ((Chain.follow g.argument Argument.next fuel id).entries.map fun entry => entry.2.value) lv ∧
      lv.Sublist l := by
  induction fuel generalizing id l with
  | zero => exact ⟨[], .nil, List.nil_sublist l⟩
  | succ fuel ih =>
      unfold Chain.follow
      cases hread : g.argument id with
      | error e => exact ⟨[], .nil, List.nil_sublist l⟩
      | ok o =>
          cases o with
          | none => exact ⟨[], .nil, List.nil_sublist l⟩
          | some a =>
              obtain ⟨n, hn, hkind⟩ := argument_eq_some_iff.mp hread
              obtain ⟨below, hbelow, rfl⟩ := h.slots hn
              rw [hkind] at hbelow
              obtain ⟨lvalue, lnext, hvalue, hnext, rfl⟩ := exists_of_cons hbelow
              obtain ⟨lv, hlv, hsub⟩ := ih hnext
              refine ⟨lvalue ++ lv, hvalue.append hlv, ?_⟩
              exact ((List.Sublist.refl lvalue).append hsub).cons id

/-- The entries of a chain stand in the tree of its head, in order. -/
theorem PreOrder.entries_sublist {l : List NodeId} (h : PreOrder g [id] l)
    (hslots : FollowsSlots g read next) (fuel : Nat) :
    ((Chain.follow read next fuel id).entries.map Prod.fst).Sublist l := by
  induction fuel generalizing id l with
  | zero => exact List.nil_sublist l
  | succ fuel ih =>
      unfold Chain.follow
      cases hread : read id with
      | error e => exact List.nil_sublist l
      | ok o =>
          cases o with
          | none => exact List.nil_sublist l
          | some a =>
              obtain ⟨n, hn, hmem⟩ := hslots id a hread
              obtain ⟨below, hbelow, rfl⟩ := h.slots hn
              obtain ⟨lc, hlc, hsub⟩ := hbelow.exists_sublist (hbelow.subset hmem)
              exact ((ih hlc).trans hsub).cons_cons id

end Graph

/-- A chain from an id: its entries in order, up to its end. -/
inductive Chained {α : Type} (read : NodeId → Except GraphFault (Option α)) (next : α → NodeId) :
    NodeId → List (NodeId × α) → Prop where
  | nil {id : NodeId} (hread : read id = .ok none) : Chained read next id []
  | cons {id : NodeId} {a : α} {entries : List (NodeId × α)} (hread : read id = .ok (some a))
      (hrest : Chained read next (next a) entries) : Chained read next id ((id, a) :: entries)

namespace Chained

variable {α : Type} {read : NodeId → Except GraphFault (Option α)} {next : α → NodeId} {id : NodeId}

theorem of_follow {fuel : Nat} (h : (Chain.follow read next fuel id).ending = .ok ()) :
    Chained read next id (Chain.follow read next fuel id).entries := by
  induction fuel generalizing id with
  | zero => cases h
  | succ fuel ih =>
      unfold Chain.follow at h ⊢
      cases hread : read id with
      | error e => simp [hread] at h
      | ok o =>
          cases o with
          | none => exact .nil hread
          | some a =>
              simp only [hread] at h
              exact .cons hread (ih h)

theorem read_of_mem {entries : List (NodeId × α)} (h : Chained read next id entries) :
    ∀ entry ∈ entries, read entry.1 = .ok (some entry.2) := by
  induction h with
  | nil _ => exact fun _ hentry => nomatch hentry
  | cons hread _ ih => exact List.forall_mem_cons.mpr ⟨hread, ih⟩

theorem follow_eq {g : Graph} {entries : List (NodeId × α)} (h : Chained read next id entries)
    (htree : g.IsTree id) (hslots : g.FollowsSlots read next) :
    Chain.follow read next g.budget id = ⟨entries, .ok ()⟩ := by
  induction h with
  | nil hread => rw [htree.follow_eq hslots, hread]
  | cons hread _ ih =>
      obtain ⟨n, hn, hmem⟩ := hslots _ _ hread
      rw [htree.follow_eq hslots, hread]
      simp only [ih (htree.child hn hmem)]

/-- In a tree the entries that a chain is followed through are those up to its end, if it ends. -/
theorem exists_and_iff {g : Graph} (htree : g.IsTree id) (hslots : g.FollowsSlots read next)
    {P : List (NodeId × α) → Prop} :
    (∃ entries, Chained read next id entries ∧ P entries) ↔
      (Chain.follow read next g.budget id).ending = .ok () ∧
        P (Chain.follow read next g.budget id).entries := by
  constructor
  · rintro ⟨entries, hchain, hP⟩
    rw [hchain.follow_eq htree hslots]
    exact ⟨rfl, hP⟩
  · rintro ⟨hending, hP⟩
    exact ⟨_, of_follow hending, hP⟩

end Chained

end BlockScript
