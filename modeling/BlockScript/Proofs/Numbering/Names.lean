import BlockScript.Proofs.Emission.Lines
import BlockScript.Proofs.Numbering.Program
import BlockScript.Proofs.Script.Names
/-!
# The names of nodes

A node's names are made of the number of its bearer.  So two nodes that have a number have the same
name in a role exactly if they have the same bearer, names of different roles never meet, and what
refers to a node is written under the node's name (`names_of_ofProgram`).
-/

namespace BlockScript

open BlockScript.Graph (LeadsTo)
open Script (Name Line)

inductive Role where
  /-- A variable, a temporary or the counter of a loop. -/
  | var
  /-- A function or an event handler. -/
  | func
  | lock
  /-- The bound of a counted loop. -/
  | limit
deriving DecidableEq, Repr

def Role.name : Role → Nat → Name
  | var => .var
  | func => .func
  | lock => .lock
  | limit => .limit

theorem Role.name_inj {r s : Role} {m n : Nat} : r.name m = s.name n ↔ r = s ∧ m = n := by
  cases r <;> cases s <;> simp [name]

namespace Numbering

variable {g : Graph} {ns : Numbering} {id : NodeId} {all : List NodeId}

/-! ## Bearers -/

namespace Noted

variable (h : Noted g all all ns)
include h

theorem leadsTo_bearer (hid : id ∈ ns.sequence.toList) : LeadsTo g id (ns.bearer id) := by
  by_cases hall : id ∈ all
  · exact h.leadsTo id hall
  · rw [bearer_of_referent?_none (h.referent? id hall)]
    exact h.late id hid hall

theorem bearer_bearer (id : NodeId) : ns.bearer (ns.bearer id) = ns.bearer id := by
  by_cases hall : id ∈ all
  · have hlast := h.leadsTo id hall
    have hself := h.leadsTo_bearer (h.numbered id hall)
    exact hself.unique hlast.target_self
  · rw [bearer_of_referent?_none (h.referent? id hall)]
    exact bearer_of_referent?_none (h.referent? id hall)

theorem serial_bearer (id : NodeId) {k : Nat} (hk : ns.serial id = .ok k) :
    ns.serial (ns.bearer id) = .ok k := by
  rw [serial_eq_ok_iff] at hk ⊢
  rw [h.bearer_bearer]
  exact hk

end Noted

theorem Indexed.serial_eq_iff {a b : NodeId} {m n : Nat} (h : Indexed g ns)
    (ha : ns.serial a = .ok m) (hb : ns.serial b = .ok n) :
    m = n ↔ ns.bearer a = ns.bearer b := by
  rw [serial_eq_ok_iff] at ha hb
  constructor
  · rintro rfl
    exact h.own?_injective ha hb
  · intro hbearer
    rw [hbearer] at ha
    exact Option.some.inj (ha.symm.trans hb)

/-! ## Names -/

/-- Nodes are told apart by their names as far as their bearers differ. -/
structure Distinguishes (g : Graph) (ns : Numbering) : Prop where
  bearer_bearer : ∀ id, ns.bearer (ns.bearer id) = ns.bearer id
  leadsTo : ∀ id, (ns.own? id).isSome → LeadsTo g id (ns.bearer id)
  serial_bearer : ∀ id k, ns.serial id = .ok k → ns.serial (ns.bearer id) = .ok k
  /-- In one role the names are those of the bearers; in two roles there is no common name. -/
  render_eq_iff : ∀ (r s : Role) (a b : NodeId) (m n : Nat), ns.serial a = .ok m →
    ns.serial b = .ok n →
      ((r.name m).render = (s.name n).render ↔ r = s ∧ ns.bearer a = ns.bearer b)

theorem distinguishes_of_noted (h : Noted g all all ns) : Distinguishes g ns := by
  refine ⟨h.bearer_bearer, fun id hid => ?_, fun id k => h.serial_bearer id, ?_⟩
  · exact h.leadsTo_bearer (h.indexed.own?_isSome_iff.mp hid)
  · intro r s a b m n ha hb
    rw [Name.render_inj, Role.name_inj, h.indexed.serial_eq_iff ha hb]

end Numbering

namespace Emission

/-- Uses are written under the names of the nodes they refer to. -/
structure SpellsReferents (c : Context) : Prop where
  read : ∀ depth operand id ls a, Gives (c.expressionCode depth operand id .read) ls a →
    ∃ d n, c.graph.declaration (c.numbering.bearer id) = .ok (some d) ∧
      Gives (c.declaration depth (c.numbering.bearer id) d)
        [⟨depth, .declare n d.type.initial (c.note d.name)⟩] () ∧
      a = .name (.var n)
  assignment : ∀ depth target value code ls, Gives (c.assignment depth target value code) ls () →
    ∃ d n a, c.graph.declaration (c.numbering.bearer target) = .ok (some d) ∧
      Gives (c.declaration depth (c.numbering.bearer target) d)
        [⟨depth, .declare n d.type.initial (c.note d.name)⟩] () ∧
      ls.getLast? = some ⟨depth, code n a⟩
  call : ∀ depth operand id args target ls,
    Gives (c.userCall depth operand id args target) ls () →
      ∃ d n values, c.graph.definition (c.numbering.bearer id) = .ok d ∧
        ⟨depth, Context.callCode ⟨.user n, values⟩ target⟩ ∈ ls ∧
        ∀ depth' code, Gives (c.definition depth' (c.numbering.bearer id) d) code () →
          ∃ params, code.head? = some ⟨depth', .openFunction n params (c.note d.name)⟩

theorem spellsReferents_of_distinguishes {c : Context}
    (h : Numbering.Distinguishes c.graph c.numbering) : SpellsReferents c := by
  refine ⟨?_, ?_, ?_⟩
  · intro depth operand id ls a hgives
    obtain ⟨n, _, _, hread, hname, _⟩ := gives_bind.mp hgives
    obtain ⟨⟨d, hd⟩, hserial, _⟩ := Context.gives_variableRead.mp hread
    refine ⟨d, n, hd, ?_, (gives_pure.mp hname).1⟩
    exact Context.gives_declaration.mpr ⟨n, h.serial_bearer id n hserial, rfl⟩
  · intro depth target value code ls hgives
    obtain ⟨d, n, a, hd, hserial, hlast⟩ := Context.declaration_of_gives_assignment hgives
    refine ⟨d, n, a, hd, ?_, hlast⟩
    exact Context.gives_declaration.mpr ⟨n, h.serial_bearer target n hserial, rfl⟩
  · intro depth operand id args target ls hgives
    obtain ⟨d, n, values, hd, hserial, hmem⟩ := Context.definition_of_gives_userCall hgives
    refine ⟨d, n, values, hd, hmem, fun depth' code hcode => ?_⟩
    obtain ⟨k, params, hk, hhead⟩ := Context.head?_of_gives_definition hcode
    obtain rfl : n = k := Except.ok.inj ((h.serial_bearer id n hserial).symm.trans hk)
    exact ⟨params, hhead⟩

end Emission

/-- The names of a program: nodes are named by their bearers, no role's name is another role's, no
name is a word of the built-in library, and uses are written under the names of what they use. -/
theorem names_of_ofProgram {g : Graph} {run : NodeId} {roots : List NodeId} {ns : Numbering}
    (h : Numbering.ofProgram g run roots = .ok ns) :
    Numbering.Distinguishes g ns ∧
      (∀ n, (Name.limit n).render = "_" ++ (Name.var n).render) ∧
      (∀ (r : Role) (n : Nat) (isLocal : Bool),
        (r.name n).render ∉ Script.words (Library.builtin.source isLocal)) ∧
      ∀ options, Emission.SpellsReferents ⟨g, ns, options⟩ := by
  obtain ⟨all, _, _, hnoted⟩ := Numbering.exists_noted h
  have hdistinguishes := Numbering.distinguishes_of_noted hnoted
  refine ⟨hdistinguishes, fun n => ?_, fun r n isLocal => ?_, fun options => ?_⟩
  · rw [Name.render, Name.render, ← String.append_assoc]
    rfl
  · exact (r.name n).render_not_mem_words isLocal
  · exact Emission.spellsReferents_of_distinguishes hdistinguishes

/-- A use of a use of a declaration that stands in no tree of the program: the statement at 4
returns the use at 3. -/
def outsideDeclaration : Graph :=
  ⟨#[⟨.declaration ⟨.single .number, "x", ⟨1⟩⟩, .onWorkspace, none⟩,
    .ofKind .declarationEnd,
    ⟨.expression .read, .child, some ⟨0⟩⟩,
    ⟨.expression .read, .child, some ⟨2⟩⟩,
    ⟨.statement ⟨.returnValue (some ⟨3⟩), ⟨5⟩⟩, .onWorkspace, none⟩,
    .ofKind .statementEnd]⟩

theorem names_of_outsideDeclaration :
    ∃ ns, Numbering.ofProgram outsideDeclaration ⟨4⟩ [] = .ok ns ∧
      ns.bearer ⟨3⟩ = ⟨0⟩ ∧ ns.serial ⟨3⟩ = .ok 4 ∧
      Numbering.Distinguishes outsideDeclaration ns ∧
      (∀ n, (Name.limit n).render = "_" ++ (Name.var n).render) ∧
      (∀ (r : Role) (n : Nat) (isLocal : Bool),
        (r.name n).render ∉ Script.words (Library.builtin.source isLocal)) ∧
      ∀ options, Emission.SpellsReferents ⟨outsideDeclaration, ns, options⟩ := by
  refine ⟨_, rfl, by decide, by decide, ?_⟩
  exact names_of_ofProgram
    (show Numbering.ofProgram outsideDeclaration ⟨4⟩ [] = .ok _ from rfl)

end BlockScript
