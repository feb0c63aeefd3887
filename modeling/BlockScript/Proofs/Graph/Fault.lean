import BlockScript.Proofs.Graph.Chain
/-!
# Faults of shape and of grammar

Numbering finds a graph at fault for its shape (`OfShape`), and generating code for its grammar
(`OfGrammar`).  The wordings of both end otherwise than the one that says that a node is not part of
the program (`endsApart_message`).  A chain in a tree ends, or breaks off with a fault of grammar
(`IsTree.ofGrammar_of_ending`), after fewer entries than the tree has nodes (`length_entries_lt`).
-/

namespace BlockScript

namespace GraphFault

/-- Missing nodes, nodes met twice and referents without end. -/
def OfShape : GraphFault → Prop
  | absent _ | shared _ | endlessReferent _ => True
  | _ => False

/-- Blocks of a sort or a content that their place does not allow. -/
def OfGrammar : GraphFault → Prop
  | unexpected _ _ _ | valueless _ _ | noFunction _ _ _ | wrongArity _ _ _ _ | noReturn _ _
  | undeclared _ | unknownBool _ _ | notNumber _ _ | notAssignable _ => True
  | _ => False

theorem OfShape.ne_outOfSteps {e : GraphFault} (h : e.OfShape) : e ≠ .outOfSteps := by
  rintro rfl
  exact h

theorem OfGrammar.ne_outOfSteps {e : GraphFault} (h : e.OfGrammar) : e ≠ .outOfSteps := by
  rintro rfl
  exact h

/-! ## Wordings -/

/-- A wording ends with another character than the one that says that a node is not part of the
program. -/
def EndsApart (s : String) : Prop :=
  ∃ c, s.toList.getLast? = some c ∧ c ≠ 'm'

theorem getLast?_append {s : String} {c : Char} (h : s.toList.getLast? = some c) (t : String) :
    (t ++ s).toList.getLast? = some c := by
  simp [h]

theorem EndsApart.append {s : String} (h : EndsApart s) (t : String) : EndsApart (t ++ s) := by
  obtain ⟨c, hlast, hne⟩ := h
  exact ⟨c, getLast?_append hlast t, hne⟩

theorem endsApart_toString (n : Nat) : EndsApart (toString n) := by
  have hne : Nat.toDigits 10 n ≠ [] := List.ne_nil_of_length_pos Nat.length_toDigits_pos
  refine ⟨(Nat.toDigits 10 n).getLast hne, ?_, ?_⟩
  · simp [List.getLast?_eq_some_getLast hne]
  · intro heq
    have hdigit := Nat.isDigit_of_mem_toDigits (b := 10) (by decide) (by decide)
      (List.getLast_mem hne)
    rw [heq] at hdigit
    exact absurd hdigit (by decide)

theorem endsApart_nodeId (id : NodeId) : EndsApart id.label :=
  (endsApart_toString id.index).append "#"

theorem endsApart_nodeSort (sort : NodeSort) : EndsApart sort.label := by
  cases sort <;> exact ⟨_, rfl, by decide⟩

theorem endsApart_message {e : GraphFault} (h : e.OfShape ∨ e.OfGrammar) : EndsApart e.message := by
  cases e with
  | absent _ | shared _ | endlessReferent _ | valueless _ _ | noReturn _ _ | undeclared _
    | notNumber _ _ | notAssignable _ =>
      exact EndsApart.append ⟨_, rfl, by decide⟩ _
  | unexpected _ _ found => exact (endsApart_nodeSort found).append _
  | noFunction _ _ id | unknownBool _ id => exact (endsApart_nodeId id).append _
  | wrongArity _ _ _ given => exact (endsApart_toString given).append _
  | notChainable _ _ | unnumbered _ | document _ | outOfSteps => exact h.elim False.elim False.elim

theorem not_endsApart_unnumbered (id : NodeId) (t : String) :
    ¬EndsApart (t ++ (unnumbered id).message) := by
  rintro ⟨c, hlast, hne⟩
  have hm : (unnumbered id).message.toList.getLast? = some 'm' := getLast?_append rfl _
  rw [getLast?_append hm] at hlast
  exact hne (Option.some.inj hlast).symm

end GraphFault

namespace Graph

variable {g : Graph} {id : NodeId} {n : Node} {e : GraphFault}

/-! ## The accessors -/

/-- A node that exists can only be of another sort than its slot asks for. -/
theorem ofGrammar_of_contents {α : Type} {expected : NodeSort} {ofKind : NodeKind → Option α}
    (hn : g.node? id = some n) (h : g.contents id expected ofKind = .error e) : e.OfGrammar := by
  unfold contents at h
  rw [node_eq_ok_iff.mpr hn] at h
  cases hk : ofKind n.kind with
  | some a => simp [hk, bind, Except.bind, pure, Except.pure] at h
  | none =>
      simp only [hk, bind, Except.bind, throw, throwThe, MonadExceptOf.throw,
        Except.error.injEq] at h
      exact h ▸ trivial

/-! ## Chains -/

variable {α : Type} {read : NodeId → Except GraphFault (Option α)} {next : α → NodeId}

/-- Where a node exists, reading the chain's entry at it can only fail for grammar. -/
def ReadsGrammar (g : Graph) (read : NodeId → Except GraphFault (Option α)) : Prop :=
  ∀ id n e, g.node? id = some n → read id = .error e → e.OfGrammar

theorem readsGrammar_statement (g : Graph) : ReadsGrammar g g.statement :=
  fun _ _ _ hn h => ofGrammar_of_contents hn h

theorem readsGrammar_declaration (g : Graph) : ReadsGrammar g g.declaration :=
  fun _ _ _ hn h => ofGrammar_of_contents hn h

theorem readsGrammar_argument (g : Graph) : ReadsGrammar g g.argument :=
  fun _ _ _ hn h => ofGrammar_of_contents hn h

/-- A chain in a tree ends, or breaks off at a node of another sort. -/
theorem IsTree.ofGrammar_of_ending (h : IsTree g id) (hslots : FollowsSlots g read next)
    (hreads : ReadsGrammar g read)
    (hending : (Chain.follow read next g.budget id).ending = .error e) : e.OfGrammar := by
  refine h.induction (motive := fun id =>
    (Chain.follow read next g.budget id).ending = .error e → e.OfGrammar) ?_ hending
  intro id below hl hnodup ih hending
  have htree : IsTree g id := ⟨_, hl, hnodup⟩
  obtain ⟨n, hn⟩ := htree.node
  rw [htree.follow_eq hslots] at hending
  cases hread : read id with
  | error e' =>
      simp only [hread, Except.error.injEq] at hending
      exact hreads id n e hn (hending ▸ hread)
  | ok o =>
      cases o with
      | none => simp [hread] at hending
      | some a =>
          simp only [hread] at hending
          obtain ⟨m, hm, hmem⟩ := hslots id a hread
          obtain ⟨below', hbelow, hcons⟩ := hl.slots hm
          obtain rfl := (List.cons.inj hcons).2
          exact ih (next a) (hbelow.subset hmem) hending

/-- A chain that does not run out of steps takes one for each entry and one for its end. -/
theorem length_follow_lt {fuel : Nat}
    (h : (Chain.follow read next fuel id).ending ≠ .error .outOfSteps) :
    (Chain.follow read next fuel id).entries.length < fuel := by
  induction fuel generalizing id with
  | zero => exact absurd rfl h
  | succ fuel ih =>
      unfold Chain.follow at h ⊢
      cases hread : read id with
      | error e => exact Nat.succ_pos fuel
      | ok o =>
          cases o with
          | none => exact Nat.succ_pos fuel
          | some a =>
              simp only [hread] at h
              simpa using ih h

/-- The entries of a chain and its end are distinct nodes of the tree. -/
theorem PreOrder.length_entries_lt {l : List NodeId} (h : PreOrder g [id] l) (hnodup : l.Nodup)
    (hslots : FollowsSlots g read next) (hreads : ReadsGrammar g read) :
    (Chain.follow read next g.budget id).entries.length < l.length := by
  have hle := h.length_le hnodup
  have hsteps : Chain.follow read next g.budget id = Chain.follow read next l.length id :=
    h.follow_eq hslots (by unfold budget; omega) (Nat.le_refl _)
  have hending : (Chain.follow read next g.budget id).ending ≠ .error .outOfSteps := fun heq =>
    (IsTree.ofGrammar_of_ending ⟨l, h, hnodup⟩ hslots hreads heq).ne_outOfSteps rfl
  rw [hsteps] at hending ⊢
  exact length_follow_lt hending

end Graph

end BlockScript
