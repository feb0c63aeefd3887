import BlockScript.Emission.Roots
import BlockScript.Proofs.Emission.Layout
/-!
# The sites of roots

Around the statements to run a program's own part binds its global variables, functions and locks.
Where only reads and calls have referents and no root is given twice, all of these are bound at
sites of their own (`lays_globals`, `binds_definitions`, `binds_handlers`).
-/

namespace BlockScript.Emission.Context

open BlockScript.Graph (PreOrder)
open Script (Line Code Name)

variable {c : Context} {depth : Nat} {id : NodeId} {nodes roots : List NodeId} {ls : List Line}

/-! ## Global variables -/

section

variable (h : c.Plain nodes)
include h

/-- The declarations of a chain bind those that are new among the declared. -/
theorem lays_globalEntries {entries : List (NodeId × Declaration)} {declared all : List NodeId}
    (hentries : ∀ entry ∈ entries,
      entry.1 ∈ nodes ∧ c.graph.declaration entry.1 = .ok (some entry.2))
    (hdeclared : declared.Nodup) (hgives : Gives (c.globalEntries depth entries declared) ls all) :
    all.Nodup ∧ ∃ new, all = new ++ declared ∧ c.Lays c.Declared new ls := by
  induction entries generalizing declared ls with
  | nil =>
      obtain ⟨rfl, rfl⟩ := gives_pure.mp hgives
      exact ⟨hdeclared, [], rfl, .nil c _ _⟩
  | cons entry entries ih =>
      rw [List.forall_mem_cons] at hentries
      unfold globalEntries at hgives
      split at hgives
      · exact ih hentries.2 hdeclared (gives_event_bind.mp hgives)
      · next hnot =>
          obtain ⟨_, l₁, l₂, hline, hrest, rfl⟩ := gives_bind.mp hgives
          have hfresh : entry.1 ∉ declared := by simpa using hnot
          obtain ⟨hall, new, rfl, hnew⟩ :=
            ih hentries.2 (List.nodup_cons.mpr ⟨hfresh, hdeclared⟩) hrest
          have hfirst := h.lays_declare hentries.1.1 hentries.1.2 hline
          refine ⟨hall, new ++ [entry.1], by simp, ?_⟩
          exact (hfirst.append hnew).mono List.perm_append_comm.subperm

theorem lays_globals {roots declared all : List NodeId} (hroots : ∀ x ∈ roots, x ∈ nodes)
    (hdeclared : declared.Nodup) (hgives : Gives (c.globals depth roots declared) ls all) :
    all.Nodup ∧ ∃ new, all = new ++ declared ∧ c.Lays c.Declared new ls := by
  induction roots generalizing declared ls with
  | nil =>
      obtain ⟨rfl, rfl⟩ := gives_pure.mp hgives
      exact ⟨hdeclared, [], rfl, .nil c _ _⟩
  | cons root roots ih =>
      rw [List.forall_mem_cons] at hroots
      unfold globals at hgives
      obtain ⟨n, _, hcode⟩ := gives_lift_bind.mp hgives
      cases hkind : n.kind with
      | declaration d =>
          simp only [hkind] at hcode
          obtain ⟨declared', l₁, l₂, hentries, hrest, rfl⟩ := gives_bind.mp hcode
          obtain ⟨_, _, hrest⟩ := gives_lift_bind.mp hrest
          have hslots := Graph.followsSlots_declaration c.graph
          obtain ⟨hnodup, new, rfl, hnew⟩ := lays_globalEntries h (fun entry hentry => by
            obtain ⟨l, hl, _⟩ := h.covers.tree root hroots.1
            exact ⟨h.covers.entry_mem hroots.1 hslots hentry, (hl.mem_of_entry hslots hentry).2⟩)
            hdeclared hentries
          obtain ⟨hall, new', rfl, hnew'⟩ := ih hroots.2 hnodup hrest
          refine ⟨hall, new' ++ new, by simp, ?_⟩
          exact (hnew.append hnew').mono List.perm_append_comm.subperm
      | statement _ | declarationEnd | statementEnd | expression _ | argument _ | argumentEnd
        | definition _ | handler _ =>
          simp only [hkind] at hcode
          exact ih hroots.2 hdeclared hcode

end

/-! ## Functions -/

structure Defined (c : Context) (s : Site) : Prop where
  role : s.role = .func
  node : ∃ d, c.graph.definition s.node = .ok d

/-- A handler's lock, and its function's own site. -/
structure Handles (c : Context) (s : Site) : Prop where
  role : s.role = .lock ∨ s.role = .func
  node : ∃ h n, c.graph.node? s.node = some n ∧ n.kind = .handler h

section

variable {s : Site}

theorem Declared.not_defined (h : c.Declared s) : ¬c.Defined s := by
  rintro ⟨hrole, _⟩
  simp [h.role] at hrole

theorem Declared.not_handles (h : c.Declared s) : ¬c.Handles s := by
  rintro ⟨hrole, _⟩
  simp [h.role] at hrole

theorem Declared.not_temporary (h : c.Declared s) : ¬c.Temporary s := by
  intro htemporary
  obtain ⟨d, hd⟩ := h.node
  exact htemporary.node _ hd

theorem Defined.not_handles (h : c.Defined s) : ¬c.Handles s := by
  rintro ⟨_, hd, n, hn, hkind⟩
  obtain ⟨d, hdefinition⟩ := h.node
  obtain ⟨m, hm, hkind'⟩ := Graph.definition_eq_ok_iff.mp hdefinition
  obtain rfl := Option.some.inj (hn.symm.trans hm)
  rw [hkind] at hkind'
  cases hkind'

theorem Defined.not_temporary (h : c.Defined s) : ¬c.Temporary s := by
  rintro ⟨hrole, _⟩
  simp [h.role] at hrole

theorem Handles.not_temporary (h : c.Handles s) : ¬c.Temporary s := by
  rintro ⟨hrole, _⟩
  rcases h.role with hs | hs <;> simp [hs] at hrole

end

theorem lays_delay {P : Site → Prop} {trigger : Trigger} {u : Unit}
    (hgives : Gives (delay depth id trigger) ls u) : c.Lays P [] ls := by
  cases trigger with
  | keyPressed _ =>
      obtain ⟨_, rfl⟩ := gives_pure.mp hgives
      exact .nil c _ _
  | delayedStart _ =>
      obtain ⟨_, _, hline⟩ := gives_lift_bind.mp hgives
      obtain rfl := gives_line.mp hline
      exact .line rfl rfl

theorem lays_registration {P : Site → Prop} {k : Nat} {trigger : Trigger} {u : Unit}
    (hgives : Gives (registration depth id k trigger) ls u) : c.Lays P [] ls := by
  unfold registration at hgives
  split at hgives
  · obtain rfl := gives_line.mp hgives
    exact .line rfl rfl
  · obtain rfl := gives_event.mp hgives
    exact .nil c _ _

/-- A handler's function: a body that runs if the lock was free, and a release of the lock. -/
theorem lays_handlerFunction {k : Nat} {lb : List NodeId} {body : List Line} (depth : Nat)
    (hnodup : lb.Nodup) (hbody : c.Lays c.Temporary lb body) (hk : c.numbering.serial id = .ok k)
    (hproper : c.Proper ⟨.func, id⟩) (hcall : c.graph.isCall id = false) :
    c.Lays (fun s => s = ⟨.func, id⟩) [id]
      (⟨depth, .openFunction k [] none⟩ ::
        (⟨depth + 1, .openTryLock k⟩ :: (⟨depth + 2, .openTry⟩ :: (body ++ [⟨depth + 2, .close⟩]) ++
          ⟨depth + 2, .openFinally⟩ :: ([⟨depth + 3, .unlock k⟩] ++ [⟨depth + 2, .close⟩]) ++
          [⟨depth + 1, .close⟩]) ++ [⟨depth, .close⟩])) := by
  have htry : c.Lays c.Temporary [] _ := hbody.block (depth + 2) .openTry hnodup rfl rfl
  have hunlock : c.Lays c.Temporary [] [⟨depth + 3, .unlock k⟩] := Lays.line rfl rfl
  have hfinally : c.Lays c.Temporary [] _ :=
    hunlock.block (depth + 2) .openFinally List.nodup_nil rfl rfl
  have hlocked : c.Lays c.Temporary [] _ :=
    (htry.append hfinally).block (depth + 1) (.openTryLock k) List.nodup_nil rfl rfl
  refine Lays.nested [] [⟨.func, id⟩] rfl ?_ hlocked List.nodup_nil (by simp) ?_
  · rw [siteBlock_of_isCall_eq_false hcall hk]
    rfl
  · simpa using hproper

/-- Roots that are given once each have sites apart. -/
theorem binds_each {f : NodeId → Emission Unit} {P : Site → Prop} {u : Unit} (hnodup : roots.Nodup)
    (hf : ∀ x ∈ roots, ∀ ls u, Gives (f x) ls u → c.Binds (fun s => s.node = x ∧ P s) ls)
    (hgives : Gives (each f roots) ls u) : c.Binds (fun s => s.node ∈ roots ∧ P s) ls := by
  induction roots generalizing ls u with
  | nil =>
      obtain ⟨_, rfl⟩ := gives_pure.mp hgives
      exact .nil c _
  | cons root roots ih =>
      obtain ⟨hnot, hrest⟩ := List.nodup_cons.mp hnodup
      obtain ⟨_, l₁, l₂, hroot, hroots, rfl⟩ := gives_bind.mp hgives
      have hfirst := hf root List.mem_cons_self l₁ _ hroot
      have hothers := ih hrest (fun x hx => hf x (List.mem_cons_of_mem root hx)) hroots
      refine (hfirst.append hothers fun s hs hs' => ?_).imp fun s hs => ?_
      · rw [hs.1] at hs'
        exact hnot hs'.1
      · rcases hs with ⟨rfl, hP⟩ | ⟨hmem, hP⟩
        · exact ⟨List.mem_cons_self, hP⟩
        · exact ⟨List.mem_cons_of_mem root hmem, hP⟩

theorem map_siteName_of_serials {entries : List (NodeId × Declaration)}
    {params : List Script.Param}
    (h : List.Forall₂ (fun entry p => c.numbering.serial entry.1 = .ok p.serial ∧
      p.note = c.note entry.2.name) entries params) :
    entries.map (c.siteName ∘ fun entry => ⟨.var, entry.1⟩) =
      params.map fun p => .var p.serial := by
  induction h with
  | nil => rfl
  | cons hserial _ ih =>
      rw [List.map_cons, List.map_cons, ih]
      exact congrArg (Name.var · :: _) (number_eq hserial.1)

section

variable (h : c.Plain nodes)
include h

theorem lays_definition {n : Node} {d : Definition} {u : Unit} (hid : id ∈ nodes)
    (hn : c.graph.node? id = some n) (hkind : n.kind = .definition d)
    (hgives : Gives (c.definition depth id d) ls u) :
    c.Lays (fun s => s.node = id ∧ c.Defined s) [id] ls := by
  obtain ⟨l, hl, hnodup⟩ := h.covers.tree id hid
  obtain ⟨below, htrees, rfl⟩ := hl.slots hn
  have hslots : ∀ x ∈ [d.params, d.body], x ∈ nodes := by
    have hchild := h.covers.child id hid n hn
    rw [hkind] at hchild
    exact hchild
  rw [hkind] at htrees
  obtain ⟨lp, lb, hlp, hlb, rfl⟩ := PreOrder.exists_of_cons htrees
  obtain ⟨k, hk, hevent⟩ := gives_serial_bind.mp hgives
  obtain ⟨params, l₁, l₂, hparams, hopen, rfl⟩ := gives_bind.mp (gives_event_bind.mp hevent)
  obtain ⟨rfl, _, hserials⟩ := forall₂_of_gives_params hparams
  obtain ⟨lx, hx, rfl⟩ := exists_of_gives_last_block hopen
  have hbody := lays_statements h (hslots d.body (by simp)) lb lx () hlb hx
  have huse : n.kind.isUse = false := by
    rw [hkind]
    rfl
  have hchain := Graph.followsSlots_declaration c.graph
  have hlays : c.Lays (fun s => s.node = id ∧ c.Defined s) [id]
      (⟨depth, .openFunction k params (c.note d.name)⟩ :: (lx ++ [⟨depth, .close⟩])) := by
    refine Lays.nested ((c.graph.declarations d.params).entries.map fun e => ⟨.var, e.1⟩)
      [⟨.func, id⟩] ?_ ?_ hbody ?_ ?_ ?_
    · rw [Code.nesting, List.map_map]
      exact congrArg Script.Nesting.opens (map_siteName_of_serials hserials).symm
    · rw [siteBlock_of_isCall_eq_false (isCall_eq_false hn huse) hk]
      rfl
    · rw [List.map_map]
      exact hnodup.of_cons.sublist
        ((hlp.entries_sublist hchain c.graph.budget).append (List.Sublist.refl lb))
    · intro s hs
      obtain ⟨entry, hentry, rfl⟩ := List.mem_map.mp hs
      exact h.proper_declared (h.covers.entry_mem (hslots d.params (by simp)) hchain hentry)
        (hlp.mem_of_entry hchain hentry).2
    · intro s hs
      obtain rfl := List.mem_singleton.mp hs
      refine ⟨h.proper hid hn huse fun hrole => ?_, rfl, rfl, d, ?_⟩
      · cases hrole
      · exact Graph.definition_eq_ok_iff.mpr ⟨n, hn, hkind⟩
  exact hlays

/-! ## Event handlers -/

theorem binds_handler {n : Node} {hd : Handler} {u : Unit} (hid : id ∈ nodes)
    (hn : c.graph.node? id = some n) (hkind : n.kind = .handler hd)
    (hgives : Gives (c.handler depth id hd) ls u) :
    c.Binds (fun s => s.node = id ∧ c.Handles s) ls := by
  obtain ⟨l, hl, hnodup⟩ := h.covers.tree id hid
  obtain ⟨below, htrees, rfl⟩ := hl.slots hn
  have hbody : hd.body ∈ nodes := by
    apply h.covers.child id hid n hn hd.body
    rw [hkind]
    exact List.mem_singleton_self hd.body
  rw [hkind] at htrees
  have huse : n.kind.isUse = false := by
    rw [hkind]
    rfl
  have hcall := isCall_eq_false hn huse
  have hproper : ∀ role, c.Proper ⟨role, id⟩ := fun role =>
    h.proper hid hn huse fun _ => by simp [hkind]
  obtain ⟨k, wait, body, registered, hk, hwait, hstatements, hregistered, rfl⟩ :=
    lines_of_gives_handler hgives
  have hlock : c.Lays (fun s => s = ⟨.lock, id⟩) [id] [⟨depth, .createLock k⟩] := by
    refine Lays.site (s := ⟨.lock, id⟩) rfl ?_ (hproper .lock) rfl
    rw [siteBlock_of_isCall_eq_false hcall hk]
    rfl
  have hinside := (lays_delay hwait).append
    (lays_statements h hbody below body () htrees hstatements)
  have hfunction := lays_handlerFunction depth hnodup.of_cons hinside hk
    (hproper .func) hcall
  have hregistration := hfunction.append (lays_registration hregistered)
  have hbinds := (hlock.binds (by simp)).append (hregistration.binds (by simp)) fun s hs hs' => by
    rw [hs] at hs'
    cases hs'
  apply Binds.imp (by simpa using hbinds)
  intro s hs
  rcases hs with rfl | rfl
  · exact ⟨rfl, .inl rfl, hd, n, hn, hkind⟩
  · exact ⟨rfl, .inr rfl, hd, n, hn, hkind⟩

/-! ## All roots -/

theorem binds_globalDeclarations {u : Unit} (hroots : ∀ x ∈ roots, x ∈ nodes)
    (hgives : Gives (c.globalDeclarations depth roots) ls u) : c.Binds c.Declared ls := by
  obtain ⟨all, l₁, l₂, hglobals, hpure, rfl⟩ := gives_bind.mp hgives
  obtain ⟨_, rfl⟩ := gives_pure.mp hpure
  obtain ⟨hnodup, new, rfl, hlays⟩ := lays_globals h hroots List.nodup_nil hglobals
  rw [List.append_nil] at hnodup ⊢
  exact hlays.binds hnodup

theorem binds_definitions {u : Unit} (hnodup : roots.Nodup) (hroots : ∀ x ∈ roots, x ∈ nodes)
    (hgives : Gives (c.definitions depth roots) ls u) :
    c.Binds (fun s => s.node ∈ roots ∧ c.Defined s) ls := by
  refine binds_each hnodup (fun root hroot ls u hcode => ?_) hgives
  obtain ⟨n, hn, hcode⟩ := gives_lift_bind.mp hcode
  have hnode := Graph.node_eq_ok_iff.mp hn
  cases hkind : n.kind with
  | definition d =>
      simp only [hkind] at hcode
      exact (lays_definition h (hroots root hroot) hnode hkind hcode).binds (by simp)
  | declaration _ | statement _ | declarationEnd | statementEnd | expression _ | argument _
    | argumentEnd | handler _ =>
      simp only [hkind] at hcode
      obtain ⟨_, rfl⟩ := gives_pure.mp hcode
      exact .nil c _

theorem binds_handlers {u : Unit} (hnodup : roots.Nodup) (hroots : ∀ x ∈ roots, x ∈ nodes)
    (hgives : Gives (c.handlers depth roots) ls u) :
    c.Binds (fun s => s.node ∈ roots ∧ c.Handles s) ls := by
  refine binds_each hnodup (fun root hroot ls u hcode => ?_) hgives
  obtain ⟨n, hn, hcode⟩ := gives_lift_bind.mp hcode
  have hnode := Graph.node_eq_ok_iff.mp hn
  cases hkind : n.kind with
  | handler hd =>
      simp only [hkind] at hcode
      exact binds_handler h (hroots root hroot) hnode hkind hcode
  | declaration _ | statement _ | declarationEnd | statementEnd | expression _ | argument _
    | argumentEnd | definition _ =>
      simp only [hkind] at hcode
      obtain ⟨_, rfl⟩ := gives_pure.mp hcode
      exact .nil c _

end

end BlockScript.Emission.Context
