import BlockScript.Proofs.Numbering.RootOrder
import BlockScript.Proofs.Request.Acceptance
/-!
# Programs of the same roots in another order

A program that is generated for its roots in one order is generated for each other order in which no
root stands before one that holds it, unless it stands after another one that does, and for no other
order (`accepted_perm_iff`).  A chain of declarations and a declaration inside it can be compiled
together in one order only.
-/

namespace BlockScript.Request

open BlockScript.Graph (OutermostFirst)

variable {r : Request} {others : List NodeId}

def withRoots (r : Request) (others : List NodeId) : Request :=
  { r with roots := others }

theorem WellFormed.exists_numbering (h : r.WellFormed) :
    ∃ ns, Numbering.ofProgram r.graph r.run r.roots = .ok ns :=
  Numbering.exists_ofProgram_iff.mpr h.trees

theorem WellFormed.withRoots (h : r.WellFormed) (hperm : r.roots.Perm others)
    (horder : OutermostFirst r.graph (r.run :: others)) : (r.withRoots others).WellFormed where
  executable := h.executable
  trees := Numbering.exists_ofProgram_iff.mp
    (Numbering.exists_ofProgram_of_perm h.exists_numbering hperm horder)
  body := h.body
  roots root hroot := h.roots root (hperm.mem_iff.mpr hroot)

/-- Numbering and generating a program succeed only if the outermost roots come first, and if they
do for one order of the roots, then for exactly those others in which these come first. -/
theorem accepted_perm_iff (r : Request) (library : Library) (hperm : r.roots.Perm others) :
    ((∃ ns, Numbering.ofProgram r.graph r.run r.roots = .ok ns) →
      OutermostFirst r.graph (r.run :: r.roots) ∧
        ((∃ ns, Numbering.ofProgram r.graph r.run others = .ok ns) ↔
          OutermostFirst r.graph (r.run :: others))) ∧
    ((∃ text, (r.generate library).result = .ok text) →
      OutermostFirst r.graph (r.run :: r.roots) ∧
        ((∃ text, ((r.withRoots others).generate library).result = .ok text) ↔
          OutermostFirst r.graph (r.run :: others))) := by
  constructor
  · intro h
    exact ⟨Numbering.outermostFirst_of_exists h, Numbering.outermostFirst_of_exists,
      Numbering.exists_ofProgram_of_perm h hperm⟩
  · rw [generate_succeeds_iff, generate_succeeds_iff]
    intro h
    refine ⟨Numbering.outermostFirst_of_exists h.exists_numbering, fun h' => ?_,
      h.withRoots hperm⟩
    exact Numbering.outermostFirst_of_exists h'.exists_numbering

/-- A chain of two declarations, of which both are compiled. -/
def chainAndLink : Request where
  graph := ⟨#[⟨.declaration ⟨.single .number, "x", ⟨1⟩⟩, .onWorkspace, none⟩,
    .ofKind (.declaration ⟨.single .number, "y", ⟨2⟩⟩),
    .ofKind .declarationEnd,
    ⟨.statementEnd, .onWorkspace, none⟩]⟩
  run := ⟨3⟩
  roots := [⟨0⟩, ⟨1⟩]
  options := .standard

/-- The outermost comes first, and not in the other order, since the chain holds its second link. -/
theorem chainAndLink_accepted_perm_iff :
    chainAndLink.roots.Perm [⟨1⟩, ⟨0⟩] ∧
    (∃ ns, Numbering.ofProgram chainAndLink.graph ⟨3⟩ [⟨0⟩, ⟨1⟩] = .ok ns) ∧
    (∃ text, (chainAndLink.generate ⟨"", "", ""⟩).result = .ok text) ∧
    OutermostFirst chainAndLink.graph [⟨3⟩, ⟨0⟩, ⟨1⟩] ∧
    ((∃ ns, Numbering.ofProgram chainAndLink.graph ⟨3⟩ [⟨1⟩, ⟨0⟩] = .ok ns) ↔
      OutermostFirst chainAndLink.graph [⟨3⟩, ⟨1⟩, ⟨0⟩]) ∧
    ((∃ text, ((chainAndLink.withRoots [⟨1⟩, ⟨0⟩]).generate ⟨"", "", ""⟩).result = .ok text) ↔
      OutermostFirst chainAndLink.graph [⟨3⟩, ⟨1⟩, ⟨0⟩]) := by
  have hperm : chainAndLink.roots.Perm [⟨1⟩, ⟨0⟩] := .swap _ _ _
  have hnumbering : ∃ ns, Numbering.ofProgram chainAndLink.graph ⟨3⟩ [⟨0⟩, ⟨1⟩] = .ok ns := ⟨_, rfl⟩
  have htext : ∃ text, (chainAndLink.generate ⟨"", "", ""⟩).result = .ok text := ⟨_, rfl⟩
  obtain ⟨hnumbers, hgenerates⟩ := accepted_perm_iff chainAndLink ⟨"", "", ""⟩ hperm
  exact ⟨hperm, hnumbering, htext, (hnumbers hnumbering).1, (hnumbers hnumbering).2,
    (hgenerates htext).2⟩

/-- With the second link before the chain the program is refused. -/
theorem chainAndLink_not_perm_invariant :
    chainAndLink.roots.Perm [⟨1⟩, ⟨0⟩] ∧
    (∃ ns, Numbering.ofProgram chainAndLink.graph ⟨3⟩ [⟨0⟩, ⟨1⟩] = .ok ns) ∧
    Numbering.ofProgram chainAndLink.graph ⟨3⟩ [⟨1⟩, ⟨0⟩] = .error (.shared ⟨1⟩) ∧
    (∃ text, (chainAndLink.generate ⟨"", "", ""⟩).result = .ok text) ∧
    ((chainAndLink.withRoots [⟨1⟩, ⟨0⟩]).generate ⟨"", "", ""⟩).result =
      .error (.malformed (.shared ⟨1⟩)) :=
  ⟨.swap _ _ _, ⟨_, rfl⟩, by decide, ⟨_, rfl⟩, rfl⟩

end BlockScript.Request
