import BlockScript.Proofs.Emission.Repeats
import BlockScript.Proofs.Graph.Chain
/-!
# Global declarations

The roots are walked in order, and from each root that is a declaration its chain: `Visits` gives
the nodes that are visited, as often as they are.  A node is declared where it is visited first, and
each later visit gives a warning instead (`globalDeclarations_visits`).
-/

namespace BlockScript

/-! ## Later visits -/

section Lists

variable {α : Type} [DecidableEq α]

/-- The entries of a list that stand in it before, or have been seen before it. -/
def repeatsAfter : List α → List α → List α
  | _, [] => []
  | seen, a :: r => if a ∈ seen then a :: repeatsAfter seen r else repeatsAfter (a :: seen) r

def repeats (as : List α) : List α :=
  repeatsAfter [] as

def firstsAfter (seen as : List α) : List α :=
  (as.filter fun a => !decide (a ∈ seen)).eraseDups

theorem firstsAfter_nil (as : List α) : firstsAfter [] as = as.eraseDups := by
  simp [firstsAfter]

theorem firstsAfter_cons_of_mem {seen : List α} {a : α} (h : a ∈ seen) (as : List α) :
    firstsAfter seen (a :: as) = firstsAfter seen as := by
  simp [firstsAfter, h]

theorem firstsAfter_cons_of_not_mem {seen : List α} {a : α} (h : a ∉ seen) (as : List α) :
    firstsAfter seen (a :: as) = a :: firstsAfter (a :: seen) as := by
  rw [firstsAfter, firstsAfter, List.filter_cons_of_pos (by simpa using h), List.eraseDups_cons,
    List.filter_filter]
  refine congrArg (fun p => a :: (List.filter p as).eraseDups) (funext fun b => ?_)
  by_cases hba : b = a <;> simp [hba]

/-- Each entry is a first one or a repeated one. -/
theorem length_firstsAfter_add_repeatsAfter (seen as : List α) :
    (firstsAfter seen as).length + (repeatsAfter seen as).length = as.length := by
  induction as generalizing seen with
  | nil => rfl
  | cons a as ih =>
      rw [repeatsAfter]
      split_ifs with ha
      · rw [firstsAfter_cons_of_mem ha, List.length_cons, List.length_cons, ← ih seen]
        omega
      · rw [firstsAfter_cons_of_not_mem ha, List.length_cons, List.length_cons, ← ih (a :: seen)]
        omega

end Lists

/-! ## Visits -/

namespace Graph

variable {g : Graph}

/-- From a declaration another is reached, or the same, along the chain that the first starts. -/
inductive Leads (g : Graph) : NodeId → NodeId → Prop where
  | here {id : NodeId} {d : Declaration} (hd : g.declaration id = .ok (some d)) : Leads g id id
  | next {root id : NodeId} {d : Declaration} (hd : g.declaration root = .ok (some d))
      (hrest : Leads g d.next id) : Leads g root id

/-- The declarations that are visited when the roots are walked: those of the whole chain from each
root that is a declaration, and none from any other root. -/
inductive Visits (g : Graph) : List NodeId → List NodeId → Prop where
  | nil : Visits g [] []
  | chain {root : NodeId} {roots visits : List NodeId} {d : Declaration}
      {entries : List (NodeId × Declaration)} (hroot : g.declaration root = .ok (some d))
      (hchain : Chained g.declaration Declaration.next root entries)
      (hrest : Visits g roots visits) :
      Visits g (root :: roots) (entries.map Prod.fst ++ visits)
  | other {root : NodeId} {roots visits : List NodeId} {n : Node} (hroot : g.node? root = some n)
      (hother : ∀ d, n.kind ≠ .declaration d) (hrest : Visits g roots visits) :
      Visits g (root :: roots) visits

theorem Leads.exists_declaration {root id : NodeId} (h : g.Leads root id) :
    ∃ d, g.declaration root = .ok (some d) := by
  cases h with
  | here hd => exact ⟨_, hd⟩
  | next hd _ => exact ⟨_, hd⟩

theorem leads_iff_mem {root id : NodeId} {entries : List (NodeId × Declaration)}
    (h : Chained g.declaration Declaration.next root entries) :
    g.Leads root id ↔ id ∈ entries.map Prod.fst := by
  induction h with
  | nil hread =>
      simp only [List.map_nil, List.not_mem_nil, iff_false]
      intro hleads
      obtain ⟨d, hd⟩ := hleads.exists_declaration
      cases hread.symm.trans hd
  | cons hread _ ih =>
      rw [List.map_cons, List.mem_cons, ← ih]
      constructor
      · intro hleads
        cases hleads with
        | here _ => exact .inl rfl
        | next hd hrest =>
            obtain rfl := Option.some.inj (Except.ok.inj (hread.symm.trans hd))
            exact .inr hrest
      · rintro (rfl | hrest)
        · exact .here hread
        · exact .next hread hrest

/-- The visited nodes are the declarations that the roots lead to. -/
theorem Visits.mem_iff {roots visits : List NodeId} {id : NodeId} (h : g.Visits roots visits) :
    id ∈ visits ↔ ∃ root ∈ roots, g.Leads root id := by
  induction h with
  | nil => simp
  | chain _ hchain _ ih => simp [ih, leads_iff_mem hchain]
  | @other root _ _ n hroot hother _ ih =>
      have hleads : ¬g.Leads root id := by
        intro hleads
        obtain ⟨d, hd⟩ := hleads.exists_declaration
        obtain ⟨m, hm, hkind⟩ := declaration_eq_some_iff.mp hd
        obtain rfl := Option.some.inj (hroot.symm.trans hm)
        exact hother d hkind
      simp [ih, hleads]

end Graph

/-! ## The walk -/

namespace Emission.Context

open Script (Line)

variable {c : Context} {depth : Nat}

def Declares (c : Context) (depth : Nat) (id : NodeId) (l : Line) : Prop :=
  ∃ d n, c.graph.declaration id = .ok (some d) ∧ c.numbering.serial id = .ok n ∧
    l = ⟨depth, .declare n d.type.initial (c.note d.name)⟩

def WarnsOf (c : Context) (id : NodeId) (e : Event) : Prop :=
  ∃ d, c.graph.declaration id = .ok (some d) ∧ e = .declaredTwice id d.name

theorem declaration_of_serial {id : NodeId} {n : Nat} (h : c.numbering.serial id = .ok n)
    (d : Declaration) :
    c.declaration depth id d = .line depth (.declare n d.type.initial (c.note d.name)) := by
  rw [declaration, serial, h, lift_ok, pure_bind]

theorem globalEntries_append (a b : List (NodeId × Declaration)) (declared : List NodeId) :
    c.globalEntries depth (a ++ b) declared =
      c.globalEntries depth a declared >>= c.globalEntries depth b := by
  induction a generalizing declared with
  | nil => exact (pure_bind declared _).symm
  | cons entry a ih =>
      rw [List.cons_append, globalEntries, globalEntries]
      split
      · simp only [ih, bind_assoc]
      · simp only [ih, bind_assoc]

/-- The walk over the roots is one over all entries that it visits. -/
theorem exists_visits_of_globals {roots declared declared' : List NodeId}
    (h : (c.globals depth roots declared).result = .ok declared') :
    ∃ entries : List (NodeId × Declaration), c.graph.Visits roots (entries.map Prod.fst) ∧
      (∀ entry ∈ entries, c.graph.declaration entry.1 = .ok (some entry.2)) ∧
      c.globals depth roots declared = c.globalEntries depth entries declared := by
  induction roots generalizing declared with
  | nil => exact ⟨[], .nil, List.forall_mem_nil _, rfl⟩
  | cons root roots ih =>
      unfold globals at h ⊢
      obtain ⟨n, hn, h⟩ := result_bind_eq_ok.mp h
      rw [show c.graph.node root = .ok n from hn, lift_ok, pure_bind]
      have hroot := Graph.node_eq_ok_iff.mp hn
      cases hkind : n.kind with
      | declaration d =>
          simp only [hkind] at h ⊢
          obtain ⟨declared₁, hchain, hrest⟩ := result_bind_eq_ok.mp h
          obtain ⟨u, hending, hroots⟩ := result_bind_eq_ok.mp hrest
          obtain ⟨entries, hvisits, hentries, heq⟩ := ih hroots
          have hended : (c.graph.declarations root).ending = .ok () := hending
          have hchained := Chained.of_follow hended
          have hdeclaration := Graph.declaration_eq_some_iff.mpr ⟨n, hroot, hkind⟩
          refine ⟨(c.graph.declarations root).entries ++ entries, ?_, ?_, ?_⟩
          · rw [List.map_append]
            exact .chain hdeclaration hchained hvisits
          · exact List.forall_mem_append.mpr ⟨hchained.read_of_mem, hentries⟩
          · rw [globalEntries_append, bind_of_ok hchain, bind_of_ok hchain, hended, lift_ok,
              pure_bind, heq]
      | statement _ | declarationEnd | statementEnd | expression _ | argument _ | argumentEnd
        | definition _ | handler _ =>
          simp only [hkind] at h ⊢
          obtain ⟨entries, hvisits, hentries, heq⟩ := ih h
          exact ⟨entries, .other hroot (by simp [hkind]) hvisits, hentries, heq⟩

theorem globalEntries_visits {entries : List (NodeId × Declaration)}
    {declared declared' : List NodeId}
    (hentries : ∀ entry ∈ entries, c.graph.declaration entry.1 = .ok (some entry.2))
    (h : (c.globalEntries depth entries declared).result = .ok declared') :
    List.Forall₂ (c.Declares depth) (firstsAfter declared (entries.map Prod.fst))
        (c.globalEntries depth entries declared).output.lines ∧
      List.Forall₂ c.WarnsOf (repeatsAfter declared (entries.map Prod.fst))
        (c.globalEntries depth entries declared).output.events := by
  induction entries generalizing declared with
  | nil => exact ⟨.nil, .nil⟩
  | cons entry entries ih =>
      rw [List.forall_mem_cons] at hentries
      unfold globalEntries at h ⊢
      rw [List.map_cons, repeatsAfter]
      by_cases hmem : entry.1 ∈ declared
      · rw [if_pos (List.contains_iff_mem.mpr hmem)] at h ⊢
        rw [firstsAfter_cons_of_mem hmem, if_pos hmem]
        obtain ⟨u, hevent, hrest⟩ := result_bind_eq_ok.mp h
        obtain ⟨hlines, hevents⟩ := ih hentries.2 hrest
        rw [output_bind hevent]
        exact ⟨hlines, .cons ⟨entry.2, hentries.1, rfl⟩ hevents⟩
      · rw [if_neg (fun hcontains => hmem (List.contains_iff_mem.mp hcontains))] at h ⊢
        rw [firstsAfter_cons_of_not_mem hmem, if_neg hmem]
        obtain ⟨u, hdeclaration, hrest⟩ := result_bind_eq_ok.mp h
        obtain ⟨hlines, hevents⟩ := ih hentries.2 hrest
        obtain ⟨n, hserial, -⟩ := gives_declaration.mp ⟨hdeclaration, rfl⟩
        rw [declaration_of_serial hserial]
        exact ⟨.cons ⟨entry.2, n, hentries.1, hserial, rfl⟩ hlines, hevents⟩

/-- Where the global declarations of a list of roots are generated, there is one line for each
declaration that the roots lead to, in the order of the first visits, and one warning for each later
visit; so lines and warnings are as many as the visits. -/
theorem globalDeclarations_visits {roots : List NodeId}
    (h : (c.globalDeclarations depth roots).result = .ok ()) :
    ∃ visits, c.graph.Visits roots visits ∧
      (∀ id, id ∈ visits ↔ ∃ root ∈ roots, c.graph.Leads root id) ∧
      List.Forall₂ (c.Declares depth) visits.eraseDups
        (c.globalDeclarations depth roots).output.lines ∧
      List.Forall₂ c.WarnsOf (repeats visits)
        (c.globalDeclarations depth roots).output.events ∧
      (c.globalDeclarations depth roots).output.lines.length +
        (c.globalDeclarations depth roots).output.events.length = visits.length := by
  obtain ⟨declared, hglobals, -⟩ := result_bind_eq_ok.mp h
  obtain ⟨entries, hvisits, hentries, heq⟩ := exists_visits_of_globals hglobals
  rw [heq] at hglobals
  obtain ⟨hlines, hevents⟩ := globalEntries_visits hentries hglobals
  have houtput : (c.globalDeclarations depth roots).output =
      (c.globalEntries depth entries []).output := by
    rw [globalDeclarations, heq, output_bind hglobals]
    exact Output.append_empty _
  have hlength := length_firstsAfter_add_repeatsAfter [] (entries.map Prod.fst)
  rw [firstsAfter_nil] at hlines hlength
  rw [houtput]
  refine ⟨_, hvisits, fun id => hvisits.mem_iff, hlines, hevents, ?_⟩
  rw [← hlines.length_eq, ← hevents.length_eq]
  exact hlength

end Emission.Context

def twoDeclarations : Graph :=
  ⟨#[⟨.declaration ⟨.single .number, "x", ⟨1⟩⟩, .onWorkspace, none⟩,
    .ofKind (.declaration ⟨.single .text, "y", ⟨2⟩⟩),
    .ofKind .declarationEnd,
    ⟨.statement ⟨.breakLoop, ⟨4⟩⟩, .onWorkspace, none⟩,
    .ofKind .statementEnd]⟩

/-- The second declaration of the chain is a root of its own, before and after the whole chain, and
the chain is a root twice. -/
theorem globalDeclarations_twoDeclarations :
    ∃ ns, Numbering.ofProgram twoDeclarations ⟨3⟩ [⟨0⟩, ⟨1⟩] = .ok ns ∧
      let c : Emission.Context := ⟨twoDeclarations, ns, .standard⟩
      let roots : List NodeId := [⟨1⟩, ⟨0⟩, ⟨3⟩, ⟨1⟩, ⟨0⟩]
      let x := c.globalDeclarations 1 roots
      x.result = .ok () ∧
      x.output = ⟨[⟨1, .declare 4 (.text "") none⟩, ⟨1, .declare 3 .zero none⟩],
        [.declaredTwice ⟨1⟩ "y", .declaredTwice ⟨1⟩ "y", .declaredTwice ⟨0⟩ "x",
          .declaredTwice ⟨1⟩ "y"]⟩ ∧
      ∃ visits, c.graph.Visits roots visits ∧
        (∀ id, id ∈ visits ↔ ∃ root ∈ roots, c.graph.Leads root id) ∧
        List.Forall₂ (c.Declares 1) visits.eraseDups x.output.lines ∧
        List.Forall₂ c.WarnsOf (repeats visits) x.output.events ∧
        x.output.lines.length + x.output.events.length = visits.length := by
  refine ⟨_, rfl, ?_⟩
  intro c roots x
  exact ⟨rfl, rfl, c.globalDeclarations_visits (show x.result = .ok () from rfl)⟩

end BlockScript
