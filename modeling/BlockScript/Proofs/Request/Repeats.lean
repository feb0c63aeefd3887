import BlockScript.Proofs.Emission.Repeats
import BlockScript.Proofs.Numbering.Walk
import BlockScript.Proofs.Request.Answer
/-!
# Programs of repeated roots

Roots that are repeated change neither the numbers of the nodes nor whether the program is
generated.  Its text stays the same exactly if no root for which it defines a function is repeated
(`generate_eraseDups`): such a function is defined each time, and a handler is registered each time.
-/

namespace BlockScript

open BlockScript.Graph (Distinct Traversal)
open Emission (Context Gives LineRelation Matches Settles)

/-- A node for which a program defines a function: a definition or an event handler. -/
def Graph.IsFunction (g : Graph) (id : NodeId) : Prop :=
  ∃ n, g.node? id = some n ∧ ((∃ d, n.kind = .definition d) ∨ ∃ h, n.kind = .handler h)

namespace Script

theorem Line.length_render_pos (l : Line) : 0 < l.render.length := by
  rw [Line.render, String.length_append]
  exact Nat.lt_of_lt_of_le Nat.zero_lt_one (Nat.le_add_left 1 _)

theorem length_render_le {a b : List Line} (h : a.Sublist b) :
    (render a).length ≤ (render b).length := by
  induction h with
  | slnil => exact Nat.le_refl _
  | cons l _ ih =>
      rw [render_cons, String.length_append]
      omega
  | cons_cons l _ ih =>
      rw [render_cons, render_cons, String.length_append, String.length_append]
      omega

/-- Lines that are left out are missing in the text. -/
theorem eq_of_render_eq {a b : List Line} (h : a.Sublist b) (heq : render a = render b) :
    a = b := by
  have hlength := congrArg String.length heq
  clear heq
  induction h with
  | slnil => rfl
  | cons l hsub ih =>
      have hle := length_render_le hsub
      have hpos := l.length_render_pos
      rw [render_cons, String.length_append] at hlength
      omega
  | cons_cons l hsub ih =>
      rw [render_cons, render_cons, String.length_append, String.length_append] at hlength
      rw [ih (by omega)]

end Script

/-! ## Numbers -/

namespace Numbering

variable {g : Graph}

theorem traversal_of_addTree {met : List NodeId} {ns : Numbering} {root : NodeId}
    (hmet : Distinct g met) (h : addTree g (ofList g met) root = .ok ns) :
    ∃ all, Traversal g met [root] all ∧ ns = ofList g all := by
  refine (foldlM_addTree_eq_ok_iff hmet).mp ?_
  rw [List.foldlM_cons, h]
  rfl

theorem settles_addTree (g : Graph) :
    Settles .same (fun ns => ∃ met, Distinct g met ∧ ns = ofList g met)
      (fun ns id => (ns.own? id).isSome) (fun ns root => .lift (addTree g ns root)) where
  refl _ := rfl
  trans h h' := h.trans h'
  inv := by
    rintro _ ns' root ⟨met, hmet, rfl⟩ h
    obtain ⟨all, hall, rfl⟩ := traversal_of_addTree hmet h
    exact ⟨all, hall.distinct hmet, rfl⟩
  done := by
    rintro _ ns' root ⟨met, hmet, rfl⟩ h
    obtain ⟨all, hall, rfl⟩ := traversal_of_addTree hmet h
    exact (own?_ofList_isSome_iff (hall.distinct hmet)).mpr
      (hall.root_mem (List.mem_singleton_self root))
  keeps := by
    rintro _ ns' root id ⟨met, hmet, rfl⟩ h hid
    obtain ⟨all, hall, rfl⟩ := traversal_of_addTree hmet h
    exact (own?_ofList_isSome_iff (hall.distinct hmet)).mpr
      (hall.prefix_of.subset ((own?_ofList_isSome_iff hmet).mp hid))
  again := by
    intro ns id hid
    have hskip : addTree g ns id = .ok ns := by
      rw [addTree, if_pos hid]
    rw [hskip]
    exact ⟨rfl, rfl⟩

theorem foldlM_addTree_eraseDups {met : List NodeId} (h : Distinct g met) (roots : List NodeId) :
    roots.eraseDups.foldlM (addTree g) (ofList g met) =
      roots.foldlM (addTree g) (ofList g met) := by
  have hroots := (settles_addTree g).matches_eraseDups ⟨met, h, rfl⟩ roots
  rw [← Emission.lift_foldlM, ← Emission.lift_foldlM] at hroots
  exact hroots.result

theorem ofProgram_eraseDups (g : Graph) (run : NodeId) (roots : List NodeId) :
    ofProgram g run roots.eraseDups = ofProgram g run roots := by
  have hempty : Distinct g [] := ⟨List.nodup_nil, fun _ hx => nomatch hx⟩
  have htrees : (run :: roots.eraseDups).foldlM (addTree g) (empty g) =
      (run :: roots).foldlM (addTree g) (empty g) := by
    rw [List.foldlM_cons, List.foldlM_cons]
    cases hrun : addTree g (empty g) run with
    | error e => rfl
    | ok ns =>
        obtain ⟨all, hall, rfl⟩ := traversal_of_addTree hempty hrun
        exact foldlM_addTree_eraseDups (hall.distinct hempty) roots
  rw [ofProgram, ofProgram, htrees]

end Numbering

/-! ## Lines -/

namespace Emission.Context

variable {c : Context} {depth : Nat} {root : NodeId}

def functionLines (c : Context) (depth : Nat) (root : NodeId) : Nat :=
  (c.rootDefinition depth root).output.lines.length +
    (c.rootHandler depth root).output.lines.length

theorem lines_ne_nil_of_gives_definition {d : Definition} {u : Unit} {ls : List Script.Line}
    (h : Gives (c.definition depth root d) ls u) : ls ≠ [] := by
  obtain ⟨n, params, _, hhead⟩ := head?_of_gives_definition h
  rintro rfl
  cases hhead

theorem lines_ne_nil_of_gives_handler {h : Handler} {u : Unit} {ls : List Script.Line}
    (hgives : Gives (c.handler depth root h) ls u) : ls ≠ [] := by
  obtain ⟨_, _, _, _, _, _, _, _, rfl⟩ := lines_of_gives_handler hgives
  exact List.cons_ne_nil _ _

/-- A root has such lines exactly if the program defines a function for it. -/
theorem functionLines_ne_zero_iff (hdefinition : (c.rootDefinition depth root).result = .ok ())
    (hhandler : (c.rootHandler depth root).result = .ok ()) :
    c.functionLines depth root ≠ 0 ↔ c.graph.IsFunction root := by
  have hdefined : Gives (c.rootDefinition depth root) _ () := ⟨hdefinition, rfl⟩
  have hhandled : Gives (c.rootHandler depth root) _ () := ⟨hhandler, rfl⟩
  unfold functionLines
  generalize (c.rootDefinition depth root).output.lines = defined at hdefined ⊢
  generalize (c.rootHandler depth root).output.lines = handled at hhandled ⊢
  obtain ⟨n, hn, hdefined⟩ := gives_lift_bind.mp hdefined
  obtain ⟨n', hn', hhandled⟩ := gives_lift_bind.mp hhandled
  obtain rfl := Except.ok.inj (hn.symm.trans hn')
  have hread := Graph.node_eq_ok_iff.mp hn
  have hkinds : c.graph.IsFunction root ↔
      (∃ d, n.kind = .definition d) ∨ ∃ h, n.kind = .handler h := by
    constructor
    · rintro ⟨m, hm, hkind⟩
      obtain rfl := Option.some.inj (hread.symm.trans hm)
      exact hkind
    · exact fun hkind => ⟨n, hread, hkind⟩
  rw [hkinds]
  cases hkind : n.kind with
  | definition d =>
      simp only [hkind] at hdefined
      have hlines := List.length_pos_iff.mpr (lines_ne_nil_of_gives_definition hdefined)
      simp only [NodeKind.definition.injEq, exists_eq', true_or, iff_true]
      omega
  | handler h =>
      simp only [hkind] at hhandled
      have hlines := List.length_pos_iff.mpr (lines_ne_nil_of_gives_handler hhandled)
      simp only [NodeKind.handler.injEq, exists_eq', or_true, iff_true]
      omega
  | statement _ | declarationEnd | statementEnd | expression _ | argument _ | argumentEnd
    | declaration _ =>
      simp only [hkind] at hdefined hhandled
      rw [(gives_pure.mp hdefined).2, (gives_pure.mp hhandled).2]
      simp

end Emission.Context

namespace Request

variable {r : Request} {ns : Numbering}

/-- The same program with only the first of each root among the roots. -/
def withoutRepeats (r : Request) : Request :=
  { r with roots := r.roots.eraseDups }

theorem numbering_withoutRepeats (r : Request) : r.withoutRepeats.numbering = r.numbering := by
  have hns := Numbering.ofProgram_eraseDups r.graph r.run r.roots
  have hrun : r.withoutRepeats.checkRun = r.checkRun := rfl
  unfold numbering
  rw [hrun]
  show (r.checkRun >>= fun _ => (Numbering.ofProgram r.graph r.run r.roots.eraseDups).mapError _) =
    _
  rw [hns]

theorem matches_withoutRepeats (r : Request) (ns : Numbering) :
    Matches .fewer (r.code ns) (r.withoutRepeats.code ns) := by
  have hglobals := Context.matches_globalDeclarations_eraseDups (r.context ns) bodyDepth r.roots
  have hsame := hglobals.lines
  refine Matches.bind ⟨hglobals.result, ?_⟩ fun _ _ => ?_
  · exact (show _ = _ from hsame) ▸ List.Sublist.refl _
  refine (Emission.matches_each_eraseDups _ r.roots).bind fun _ _ => ?_
  refine (Emission.matches_each_eraseDups _ r.roots).bind fun _ _ => ?_
  exact ⟨rfl, List.Sublist.refl _⟩

theorem length_code (h : (r.code ns).result = .ok ()) :
    (r.code ns).output.lines.length =
      ((r.context ns).globalDeclarations bodyDepth r.roots).output.lines.length +
        (r.roots.map ((r.context ns).functionLines bodyDepth)).sum +
        ((r.context ns).statements bodyDepth r.run).output.lines.length := by
  obtain ⟨_, hglobals, hrest⟩ := Emission.result_bind_eq_ok.mp h
  obtain ⟨_, hdefinitions, hrest'⟩ := Emission.result_bind_eq_ok.mp hrest
  obtain ⟨_, hhandlers, _⟩ := Emission.result_bind_eq_ok.mp hrest'
  have hdefined := Emission.length_each (f := (r.context ns).rootDefinition bodyDepth) hdefinitions
  have hhandled := Emission.length_each (f := (r.context ns).rootHandler bodyDepth) hhandlers
  have hfunctions : (r.roots.map ((r.context ns).functionLines bodyDepth)).sum = _ + _ :=
    List.sum_map_add
  rw [hfunctions, ← hdefined, ← hhandled]
  unfold code
  simp only [Emission.output_bind hglobals, Emission.output_bind hdefinitions,
    Emission.output_bind hhandlers, Output.lines_append, List.length_append,
    ← Context.definitions_eq_each, ← Context.handlers_eq_each]
  omega

theorem result_functions (h : (r.code ns).result = .ok ()) {root : NodeId} (hroot : root ∈ r.roots) :
    ((r.context ns).rootDefinition bodyDepth root).result = .ok () ∧
      ((r.context ns).rootHandler bodyDepth root).result = .ok () := by
  obtain ⟨_, _, hrest⟩ := Emission.result_bind_eq_ok.mp h
  obtain ⟨_, hdefinitions, hrest'⟩ := Emission.result_bind_eq_ok.mp hrest
  obtain ⟨_, hhandlers, _⟩ := Emission.result_bind_eq_ok.mp hrest'
  exact ⟨Emission.result_of_each hdefinitions root hroot,
    Emission.result_of_each hhandlers root hroot⟩

/-- The lines stay the same exactly if no function is repeated. -/
theorem lines_withoutRepeats_iff (h : (r.code ns).result = .ok ()) :
    (r.withoutRepeats.code ns).output.lines = (r.code ns).output.lines ↔
      ∀ id, r.graph.IsFunction id → r.roots.count id ≤ 1 := by
  have hmatches := matches_withoutRepeats r ns
  have hglobals := Context.matches_globalDeclarations_eraseDups (r.context ns) bodyDepth r.roots
  have hsame : ((r.context ns).globalDeclarations bodyDepth r.roots).output.lines =
    ((r.context ns).globalDeclarations bodyDepth r.roots.eraseDups).output.lines := hglobals.lines
  have hlength := length_code h
  have hlength' : (r.withoutRepeats.code ns).output.lines.length =
      ((r.context ns).globalDeclarations bodyDepth r.roots.eraseDups).output.lines.length +
        (r.roots.eraseDups.map ((r.context ns).functionLines bodyDepth)).sum +
        ((r.context ns).statements bodyDepth r.run).output.lines.length :=
    length_code (hmatches.result.trans h)
  have hsum : (r.withoutRepeats.code ns).output.lines = (r.code ns).output.lines ↔
      (r.roots.eraseDups.map ((r.context ns).functionLines bodyDepth)).sum =
        (r.roots.map ((r.context ns).functionLines bodyDepth)).sum := by
    rw [← hsame] at hlength'
    constructor
    · intro heq
      rw [heq] at hlength'
      omega
    · intro heq
      exact hmatches.lines.eq_of_length (by omega)
  rw [hsum, sum_eraseDups_iff]
  refine forall_congr' fun id => ?_
  by_cases hid : id ∈ r.roots
  · obtain ⟨hdefinition, hhandler⟩ := result_functions h hid
    rw [Context.functionLines_ne_zero_iff hdefinition hhandler]
    rfl
  · simp [List.count_eq_zero_of_not_mem hid]

theorem lines_eq_of_wrap_eq {source : String} {a b : List Script.Line} (h : a.Sublist b)
    (heq : wrap source a = wrap source b) : a = b := by
  have hlines := (String.append_left_inj _).mp heq
  exact Script.eq_of_render_eq h ((String.append_right_inj _).mp hlines)

/-- Whatever roots are repeated, without the repetitions a program fails with the same error or is
generated again; its text is the same exactly if no definition and no handler is repeated. -/
theorem generate_eraseDups (r : Request) (library : Library) :
    (∃ e, (r.generate library).result = .error e ∧
      (r.withoutRepeats.generate library).result = .error e) ∨
    ∃ text text', (r.generate library).result = .ok text ∧
      (r.withoutRepeats.generate library).result = .ok text' ∧
      (text' = text ↔ ∀ id, r.graph.IsFunction id → r.roots.count id ≤ 1) := by
  have hnumbering := numbering_withoutRepeats r
  cases hns : r.numbering with
  | error e =>
      exact .inl ⟨e, result_generate_of_error hns, result_generate_of_error (hnumbering.trans hns)⟩
  | ok ns =>
      have hmatches := matches_withoutRepeats r ns
      rw [result_generate hns, result_generate (hnumbering.trans hns), hmatches.result]
      cases hcode : (r.code ns).result with
      | error e => exact .inl ⟨_, rfl, rfl⟩
      | ok u =>
          right
          refine ⟨_, _, rfl, rfl, ?_⟩
          rw [← lines_withoutRepeats_iff hcode]
          constructor
          · intro htext
            exact lines_eq_of_wrap_eq hmatches.lines htext
          · intro hlines
            rw [hlines]
            rfl

def handlerTwice : Request where
  graph := ⟨#[⟨.handler ⟨.keyPressed "A", ⟨1⟩⟩, .onWorkspace, none⟩,
    .ofKind .statementEnd,
    ⟨.statement ⟨.returnValue none, ⟨3⟩⟩, .onWorkspace, none⟩,
    .ofKind .statementEnd]⟩
  run := ⟨2⟩
  roots := [⟨0⟩, ⟨0⟩]
  options := .standard

/-- Its lock is created twice and it is registered twice, other than in the program of one root. -/
theorem handlerTwice_generate_ne :
    (∃ ns, handlerTwice.numbering = .ok ns ∧
      (handlerTwice.code ns).output.lines.countP (fun l => l.code = .createLock 3) = 2 ∧
      (handlerTwice.code ns).output.lines.countP
        (fun l => l.code = .register 3 "KEY_A_PRESSED") = 2) ∧
    ∃ text text', (handlerTwice.generate ⟨"", "", ""⟩).result = .ok text ∧
      (handlerTwice.withoutRepeats.generate ⟨"", "", ""⟩).result = .ok text' ∧ text' ≠ text := by
  refine ⟨⟨_, rfl, by decide, by decide⟩, _, _, rfl, rfl, fun htext => ?_⟩
  have hlines := lines_eq_of_wrap_eq (matches_withoutRepeats handlerTwice _).lines htext
  revert hlines
  decide

end Request

end BlockScript
