import BlockScript.Proofs.Emission.Lines
import BlockScript.Proofs.Emission.Options
import Mathlib.Algebra.GroupWithZero.Nat
import Mathlib.Algebra.Order.BigOperators.Group.Finset
/-!
# Code of repeated roots

A step that leaves an entry done, and passes over what is done, gives nothing new for an entry that
is repeated: the list without its repetitions gives matching code (`Settles.matches_eraseDups`).
So it is with the global declarations, whose code stays as it is.  The functions of a root that is
repeated are defined again: without repetitions there are fewer lines, as many as those functions
have (`length_each`, `sum_eraseDups_iff`).
-/

namespace BlockScript

/-! ## Lists without repetitions -/

section Lists

variable {α : Type} [DecidableEq α]

theorem nodup_eraseDups (as : List α) : as.eraseDups.Nodup := by
  cases as with
  | nil => exact List.nodup_nil
  | cons a as =>
      rw [List.eraseDups_cons, List.nodup_cons]
      exact ⟨by simp [List.mem_eraseDups], nodup_eraseDups _⟩
termination_by as.length
decreasing_by exact Nat.lt_succ_of_le (List.length_filter_le _ _)

/-- Repetitions add to a sum, unless they add nothing. -/
theorem sum_eraseDups_iff (as : List α) (w : α → Nat) :
    (as.eraseDups.map w).sum = (as.map w).sum ↔ ∀ a, w a ≠ 0 → as.count a ≤ 1 := by
  have hmembers : as.eraseDups.toFinset = as.toFinset := by
    ext a
    simp [List.mem_eraseDups]
  have hone : ∀ a ∈ as.toFinset, as.eraseDups.count a = 1 := fun a ha =>
    List.count_eq_one_of_mem (nodup_eraseDups as) (by simpa [List.mem_eraseDups] using ha)
  have hpos : ∀ a ∈ as.toFinset, 1 ≤ as.count a := fun a ha =>
    List.count_pos_iff.mpr (List.mem_toFinset.mp ha)
  have hle : ∀ a ∈ as.toFinset, as.eraseDups.count a • w a ≤ as.count a • w a := fun a ha =>
    Nat.mul_le_mul_right _ ((hone a ha).trans_le (hpos a ha))
  rw [Finset.sum_list_map_count, Finset.sum_list_map_count, hmembers,
    Finset.sum_eq_sum_iff_of_le hle]
  constructor
  · intro h a hweight
    by_cases ha : a ∈ as
    · have hmem := List.mem_toFinset.mpr ha
      have heq := h a hmem
      rw [hone a hmem] at heq
      exact (Nat.eq_of_mul_eq_mul_right (Nat.pos_of_ne_zero hweight) heq).ge
    · rw [List.count_eq_zero_of_not_mem ha]
      exact Nat.zero_le 1
  · intro h a ha
    by_cases hweight : w a = 0
    · simp [hweight]
    · rw [hone a ha, (h a hweight).antisymm (hpos a ha)]

end Lists

namespace Emission

open Script (Line)

variable {α σ : Type}

def LineRelation.fewer : LineRelation where
  rel := fun a b => b.Sublist a
  nil := .slnil
  append := List.Sublist.append

/-! ## Steps that settle -/

/-- An emission for each entry of a list, each with the state that the one before left. -/
def thread (step : σ → α → Emission σ) : List α → σ → Emission σ
  | [], st => pure st
  | a :: r, st => do thread step r (← step st a)

/-- A step settles its entry: what it leaves done stays done, and is passed over. -/
structure Settles (R : LineRelation) (Inv : σ → Prop) (Done : σ → α → Prop)
    (step : σ → α → Emission σ) : Prop where
  refl : ∀ ls, R.rel ls ls
  trans : ∀ {a b c}, R.rel a b → R.rel b c → R.rel a c
  inv : ∀ {st st' a}, Inv st → (step st a).result = .ok st' → Inv st'
  done : ∀ {st st' a}, Inv st → (step st a).result = .ok st' → Done st' a
  keeps : ∀ {st st' a b}, Inv st → (step st a).result = .ok st' → Done st b → Done st' b
  again : ∀ {st a}, Done st a → Matches R (step st a) (pure st)

namespace Settles

variable {R : LineRelation} {Inv : σ → Prop} {Done : σ → α → Prop} {step : σ → α → Emission σ}
  [DecidableEq α] (h : Settles R Inv Done step)
include h

theorem matches_filter {st : σ} {a : α} (hinv : Inv st) (hdone : Done st a) (as : List α) :
    Matches R (thread step as st) (thread step (as.filter fun b => !b == a) st) := by
  induction as generalizing st with
  | nil => exact ⟨rfl, h.refl _⟩
  | cons b as ih =>
      by_cases heq : b = a
      · -- the entry is passed over: the state stays as it is
        subst heq
        have hagain := (h.again hdone).bind (f := thread step as) (k := fun st' =>
          thread step (as.filter fun x => !x == b) st') fun st' hst' => by
            obtain rfl := Except.ok.inj ((h.again hdone).result.trans hst')
            exact ih hinv hdone
        simpa [thread] using hagain
      · -- another entry runs on both sides, and keeps `a` done
        rw [List.filter_cons_of_pos (by simpa using heq)]
        exact Matches.bind ⟨rfl, h.refl _⟩ fun st' hst' =>
          ih (h.inv hinv hst') (h.keeps hinv hst' hdone)

theorem matches_eraseDups {st : σ} (hinv : Inv st) (as : List α) :
    Matches R (thread step as st) (thread step as.eraseDups st) := by
  cases as with
  | nil => exact ⟨rfl, h.refl _⟩
  | cons a as =>
      rw [List.eraseDups_cons]
      refine Matches.bind ⟨rfl, h.refl _⟩ fun st' hst' => ?_
      have hinv' := h.inv hinv hst'
      have hfilter := h.matches_filter hinv' (h.done hinv hst') as
      have hrest := matches_eraseDups hinv' (as.filter fun b => !b == a)
      exact ⟨hrest.result.trans hfilter.result, h.trans hfilter.lines hrest.lines⟩
termination_by as.length
decreasing_by exact Nat.lt_succ_of_le (List.length_filter_le _ _)

end Settles

/-- A fold as a thread without lines. -/
theorem lift_foldlM (f : σ → α → Except GraphFault σ) (as : List α) (st : σ) :
    lift (as.foldlM f st) = thread (fun st a => lift (f st a)) as st := by
  induction as generalizing st with
  | nil => rfl
  | cons a as ih =>
      rw [List.foldlM_cons, thread]
      cases h : f st a with
      | error e => rfl
      | ok st' =>
          rw [lift_ok, pure_bind, ← ih]
          rfl

/-! ## Entries that are generated each time -/

theorem each_eq_thread (f : α → Emission Unit) (as : List α) :
    each f as = thread (fun _ a => f a) as () := by
  induction as with
  | nil => rfl
  | cons a as ih =>
      rw [each, thread, ih]

theorem settles_each (f : α → Emission Unit) :
    Settles .fewer (fun _ => True) (fun _ a => (f a).result = .ok ()) (fun _ a => f a) where
  refl := List.Sublist.refl
  trans h h' := h'.trans h
  inv _ _ := trivial
  done _ h := h
  keeps _ _ h := h
  again h := ⟨h.symm, List.nil_sublist _⟩

/-- Without repetitions the result is the same, and there are no other lines. -/
theorem matches_each_eraseDups [DecidableEq α] (f : α → Emission Unit) (as : List α) :
    Matches .fewer (each f as) (each f as.eraseDups) := by
  rw [each_eq_thread, each_eq_thread]
  exact (settles_each f).matches_eraseDups trivial as

theorem result_of_each {f : α → Emission Unit} {as : List α} (h : (each f as).result = .ok ()) :
    ∀ a ∈ as, (f a).result = .ok () := by
  induction as with
  | nil => exact fun _ ha => nomatch ha
  | cons a as ih =>
      obtain ⟨u, ha, hrest⟩ := result_bind_eq_ok.mp h
      exact List.forall_mem_cons.mpr ⟨ha, ih hrest⟩

theorem length_each {f : α → Emission Unit} {as : List α} (h : (each f as).result = .ok ()) :
    (each f as).output.lines.length = (as.map fun a => (f a).output.lines.length).sum := by
  induction as with
  | nil => rfl
  | cons a as ih =>
      obtain ⟨u, ha, hrest⟩ := result_bind_eq_ok.mp h
      rw [each, output_bind ha, Output.lines_append, List.length_append, ih hrest, List.map_cons,
        List.sum_cons]

namespace Context

variable {c : Context} {depth : Nat}

/-! ## Global declarations -/

/-- The declarations of the chain that starts at a root, if one does. -/
def globalStep (c : Context) (depth : Nat) (declared : List NodeId) (root : NodeId) :
    Emission (List NodeId) := do
  match (← .lift (c.graph.node root)).kind with
  | .declaration _ => do
    let declared ← c.globalEntries depth (c.graph.declarations root).entries declared
    .lift (c.graph.declarations root).ending
    pure declared
  | _ => pure declared

theorem globals_eq_thread (c : Context) (depth : Nat) (roots declared : List NodeId) :
    c.globals depth roots declared = thread (c.globalStep depth) roots declared := by
  induction roots generalizing declared with
  | nil => rfl
  | cons root roots ih =>
      rw [globals, thread, globalStep, bind_assoc]
      refine congrArg _ (funext fun n => ?_)
      cases n.kind <;> simp [ih]

theorem globalEntries_of_declared {entries : List (NodeId × Declaration)} {declared : List NodeId}
    (h : ∀ entry ∈ entries, entry.1 ∈ declared) :
    Gives (c.globalEntries depth entries declared) [] declared := by
  induction entries with
  | nil => exact gives_pure.mpr ⟨rfl, rfl⟩
  | cons entry entries ih =>
      rw [List.forall_mem_cons] at h
      unfold globalEntries
      rw [if_pos (List.contains_iff_mem.mpr h.1)]
      exact gives_event_bind.mpr (ih h.2)

theorem declared_of_globalEntries {entries : List (NodeId × Declaration)}
    {declared declared' : List NodeId}
    (h : (c.globalEntries depth entries declared).result = .ok declared') :
    declared ⊆ declared' ∧ ∀ entry ∈ entries, entry.1 ∈ declared' := by
  induction entries generalizing declared with
  | nil =>
      obtain rfl := Except.ok.inj h
      exact ⟨List.Subset.refl _, fun _ hentry => nomatch hentry⟩
  | cons entry entries ih =>
      unfold globalEntries at h
      split at h
      next hmem =>
        obtain ⟨_, _, hrest⟩ := result_bind_eq_ok.mp h
        obtain ⟨hsub, hentries⟩ := ih hrest
        exact ⟨hsub, List.forall_mem_cons.mpr
          ⟨hsub (List.contains_iff_mem.mp hmem), hentries⟩⟩
      next =>
        obtain ⟨_, _, hrest⟩ := result_bind_eq_ok.mp h
        obtain ⟨hsub, hentries⟩ := ih hrest
        exact ⟨fun x hx => hsub (List.mem_cons_of_mem _ hx), List.forall_mem_cons.mpr
          ⟨hsub List.mem_cons_self, hentries⟩⟩

/-- The root is no declaration, or all declarations of its chain have been met. -/
def DeclaredBefore (c : Context) (declared : List NodeId) (root : NodeId) : Prop :=
  ∃ n, c.graph.node root = .ok n ∧ ∀ d, n.kind = .declaration d →
    (c.graph.declarations root).ending = .ok () ∧
      ∀ entry ∈ (c.graph.declarations root).entries, entry.1 ∈ declared

theorem declared_of_globalStep {declared declared' : List NodeId} {root : NodeId}
    (h : (c.globalStep depth declared root).result = .ok declared') :
    declared ⊆ declared' ∧ c.DeclaredBefore declared' root := by
  obtain ⟨n, hn, h⟩ := result_bind_eq_ok.mp h
  cases hkind : n.kind with
  | declaration d =>
      simp only [hkind] at h
      obtain ⟨_, hentries, hrest⟩ := result_bind_eq_ok.mp h
      obtain ⟨_, hending, hpure⟩ := result_bind_eq_ok.mp hrest
      obtain rfl := Except.ok.inj hpure
      obtain ⟨hsub, hmem⟩ := declared_of_globalEntries hentries
      exact ⟨hsub, n, hn, fun _ _ => ⟨hending, hmem⟩⟩
  | statement _ | declarationEnd | statementEnd | expression _ | argument _ | argumentEnd
    | definition _ | handler _ =>
      simp only [hkind] at h
      obtain rfl := Except.ok.inj h
      exact ⟨List.Subset.refl _, n, hn, fun d hd => by rw [hkind] at hd; cases hd⟩

theorem globalStep_of_declared (depth : Nat) {declared : List NodeId} {root : NodeId}
    (h : c.DeclaredBefore declared root) : Gives (c.globalStep depth declared root) [] declared := by
  obtain ⟨n, hn, hchain⟩ := h
  refine gives_lift_bind.mpr ⟨n, hn, ?_⟩
  cases hkind : n.kind with
  | declaration d =>
      obtain ⟨hending, hmem⟩ := hchain d hkind
      refine gives_bind.mpr ⟨declared, [], [], globalEntries_of_declared hmem, ?_, rfl⟩
      exact gives_lift_bind.mpr ⟨(), hending, gives_pure.mpr ⟨rfl, rfl⟩⟩
  | statement _ | declarationEnd | statementEnd | expression _ | argument _ | argumentEnd
    | definition _ | handler _ => exact gives_pure.mpr ⟨rfl, rfl⟩

theorem settles_globals (c : Context) (depth : Nat) :
    Settles .same (fun _ => True) c.DeclaredBefore (c.globalStep depth) where
  refl _ := rfl
  trans h h' := h.trans h'
  inv _ _ := trivial
  done _ h := (declared_of_globalStep h).2
  keeps := by
    rintro st st' a b - h ⟨n, hn, hchain⟩
    refine ⟨n, hn, fun d hd => ?_⟩
    obtain ⟨hending, hmem⟩ := hchain d hd
    exact ⟨hending, fun entry hentry => (declared_of_globalStep h).1 (hmem entry hentry)⟩
  again h := by
    obtain ⟨hresult, hlines⟩ := globalStep_of_declared depth h
    exact ⟨hresult.symm, hlines⟩

/-- Repeated roots declare nothing again. -/
theorem matches_globalDeclarations_eraseDups (c : Context) (depth : Nat) (roots : List NodeId) :
    Matches .same (c.globalDeclarations depth roots)
      (c.globalDeclarations depth roots.eraseDups) := by
  have hglobals : Matches .same (thread (c.globalStep depth) roots [])
      (thread (c.globalStep depth) roots.eraseDups []) :=
    (settles_globals c depth).matches_eraseDups trivial roots
  rw [← globals_eq_thread, ← globals_eq_thread] at hglobals
  exact hglobals.bind fun _ _ => ⟨rfl, rfl⟩

end Context

end Emission

end BlockScript
