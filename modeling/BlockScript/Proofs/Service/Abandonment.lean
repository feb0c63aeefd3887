import BlockScript.Proofs.Service.Sequential
/-!
# Callers who leave a service

The lock is held for a caller, not for a compile: a caller who leaves while the own compile runs
releases the lock, and the compile runs on.  Nothing else lets two compiles run at once
(`exclusive_iff`): callers may leave while they wait, when the lock has come to them and after their
compile has ended.
-/

namespace BlockScript.Service

variable {s s' mid next : Service} {e : Step} {steps : List Step}

/-- At most one compile runs, and the service is busy while one does. -/
structure Exclusive (s : Service) : Prop where
  single : s.running ≤ 1
  busy : 0 < s.running → s.isBusy = true

/-- The event takes away the caller for whom the compile runs that holds the lock. -/
def Orphans (s : Service) (e : Step) : Prop :=
  ∃ t, s.holder = some (t, .running) ∧ e = .abandon t.number

/-- An event among those that happen from a state on, with the states before and after it. -/
inductive Occurs : Service → List Step → Service → Step → Service → Prop where
  | now {s next : Service} {e : Step} {steps : List Step} (hstep : s.step? e = some next) :
      Occurs s (e :: steps) s e next
  | later {s s' mid next : Service} {e e' : Step} {steps : List Step} (hstep : s.step? e = some s')
      (hrest : Occurs s' steps mid e' next) : Occurs s (e :: steps) mid e' next

theorem Occurs.step?_eq (h : Occurs s steps mid e next) : mid.step? e = some next := by
  induction h with
  | now hstep => exact hstep
  | later _ _ ih => exact ih

/-! ## What one event does -/

theorem exclusive_of_stay (h : s.abandoned = []) : s.Exclusive := by
  constructor
  · rw [running, h]
    split <;> simp
  · rw [running, h, isBusy]
    cases s.holder <;> simp

theorem running_eq_zero_of_begin (hstep : s.step? .begin = some s') (h : s.abandoned = []) :
    s.running = 0 := by
  have hhappens := happens_of_step? hstep h fun _ => nofun
  cases hhappens with
  | begin hholder => simp [running, h, hholder]

/-- A compile is left behind only if its caller leaves while it runs. -/
theorem abandoned_of_step? (hstep : s.step? e = some s') (h : s.abandoned = [])
    (hstay : ¬ s.Orphans e) : s'.abandoned = [] := by
  by_cases hleaves : ∃ n, e = .abandon n
  · obtain ⟨n, rfl⟩ := hleaves
    simp only [step?] at hstep
    split at hstep
    · rename_i t phase hholder
      split at hstep
      · rename_i hnumber
        have hphase : phase ≠ .running := by
          rintro rfl
          exact hstay ⟨t, hholder, hnumber ▸ rfl⟩
        cases hstep
        simp [h, hphase]
      · cases hstep
        exact h
    · cases hstep
      exact h
  · have hhappens := happens_of_step? hstep h fun n heq => hleaves ⟨n, heq⟩
    cases hhappens <;> exact h

/-- The compile that is left behind runs on while the lock is free. -/
theorem Orphans.exists_not_exclusive (h : s.Orphans e) :
    ∃ s', s.step? e = some s' ∧ ¬ s'.Exclusive := by
  obtain ⟨t, hholder, rfl⟩ := h
  refine ⟨{ s with holder := none, abandoned := s.abandoned ++ [t] }, by simp [step?, hholder],
    fun hexclusive => ?_⟩
  have hbusy := hexclusive.busy (by simp [running])
  simp [isBusy] at hbusy

/-! ## Runs -/

theorem Occurs.abandoned (h : Occurs s steps mid e next) (hs : s.abandoned = [])
    (hstay : ∀ mid e next, Occurs s steps mid e next → ¬ mid.Orphans e) : mid.abandoned = [] := by
  induction h with
  | now _ => exact hs
  | later hstep _ ih =>
      have hnext := abandoned_of_step? hstep hs (hstay _ _ _ (.now hstep))
      exact ih hnext fun mid e next hoccurs => hstay mid e next (.later hstep hoccurs)

/-- Every compile of a run begins after the one before has ended and runs while the service is busy,
exactly if no caller leaves while the own compile runs. -/
theorem exclusive_iff (c : Compiler) (before : FileTree) (steps : List Step) :
    (∀ mid e next, Occurs (start c before) steps mid e next →
      next.Exclusive ∧ (e = .begin → mid.running = 0)) ↔
    ∀ mid e next, Occurs (start c before) steps mid e next → ¬ mid.Orphans e := by
  constructor
  · intro hexclusive mid e next hoccurs horphans
    obtain ⟨s', hstep, hnot⟩ := horphans.exists_not_exclusive
    obtain rfl := Option.some.inj (hstep.symm.trans hoccurs.step?_eq)
    exact hnot (hexclusive mid e _ hoccurs).1
  · intro hstay mid e next hoccurs
    have hmid := hoccurs.abandoned rfl hstay
    have hnext := abandoned_of_step? hoccurs.step?_eq hmid (hstay mid e next hoccurs)
    refine ⟨exclusive_of_stay hnext, ?_⟩
    rintro rfl
    exact running_eq_zero_of_begin hoccurs.step?_eq hmid

/-- Two requests for one file, of which the first is left while its compile runs. -/
def leftRunning : List Step :=
  [.arrive (runEmpty ⟨0⟩), .arrive (runEmpty ⟨0⟩), .acquire, .begin, .abandon 0, .acquire, .begin]

/-- Nobody holds the lock after the caller has left, and then two compiles run at once. -/
theorem leftRunning_not_exclusive :
    ∃ free both, (start ⟨.standard, ⟨"", "", ""⟩⟩ .empty).run? (leftRunning.take 5) = some free ∧
      free.running = 1 ∧ free.isBusy = false ∧
      (start ⟨.standard, ⟨"", "", ""⟩⟩ .empty).run? leftRunning = some both ∧ both.running = 2 :=
  ⟨_, _, rfl, rfl, rfl, rfl, rfl⟩

end BlockScript.Service
