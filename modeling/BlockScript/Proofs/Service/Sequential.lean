import BlockScript.Proofs.Compiler.Run
import BlockScript.Service
/-!
# A service compiles one request after another

Whatever the order in which requests arrive, wait, run and end, a service whose callers all stay
gives the answers and leaves the files of its compiler running the requests one after another, in
the order of their arrival (`ServedInOrder`).  The invariant of a run is `Serves`: some requests are
done, as by the compiler alone, and the others stand in line.
-/

namespace BlockScript.Service

variable {c : Compiler} {before : FileTree} {s s' : Service} {e : Step} {steps rest : List Step}
variable {rs done : List Request} {t : Ticket} {phase : Phase}

/-! ## Events -/

def Step.request? : Step → Option Request
  | .arrive r => some r
  | _ => none

def Step.isAcquire : Step → Bool
  | .acquire => true
  | _ => false

def Step.isRelease : Step → Bool
  | .release => true
  | _ => false

def arrivals (steps : List Step) : List Request := steps.filterMap Step.request?

def acquisitions (steps : List Step) : Nat := steps.countP Step.isAcquire

def releases (steps : List Step) : Nat := steps.countP Step.isRelease

theorem arrivals_append (steps rest : List Step) :
    arrivals (steps ++ rest) = arrivals steps ++ arrivals rest :=
  List.filterMap_append ..

theorem arrivals_concat (steps : List Step) (e : Step) :
    arrivals (steps ++ [e]) = arrivals steps ++ e.request?.toList := by
  rw [arrivals_append]
  cases e <;> rfl

theorem acquisitions_concat (steps : List Step) (e : Step) :
    acquisitions (steps ++ [e]) = acquisitions steps + e.isAcquire.toNat := by
  rw [acquisitions, List.countP_append]
  cases e <;> rfl

theorem releases_concat (steps : List Step) (e : Step) :
    releases (steps ++ [e]) = releases steps + e.isRelease.toNat := by
  rw [releases, List.countP_append]
  cases e <;> rfl

/-- What can happen at a service whose callers all stay. -/
inductive Happens (s : Service) : Step → Service → Prop where
  | arrive (r : Request) : Happens s (.arrive r)
      { s with arrived := s.arrived + 1, waiting := s.waiting ++ [⟨s.arrived, r⟩] }
  | acquire {t : Ticket} {r : List Ticket} (hfree : s.holder = none) (hfirst : s.waiting = t :: r) :
      Happens s .acquire { s with waiting := r, holder := some (t, .acquired) }
  | begin {t : Ticket} (hholder : s.holder = some (t, .acquired)) :
      Happens s .begin { s with holder := some (t, .running) }
  | finish {t : Ticket} (hholder : s.holder = some (t, .running)) : Happens s .finish
      { s with
        files := (s.compiler.compile t.request s.files).1
        holder := some (t, .finished)
        answers := s.answers ++ [(t.number, (s.compiler.compile t.request s.files).2.result)] }
  | release {t : Ticket} (hholder : s.holder = some (t, .finished)) :
      Happens s .release { s with holder := none }

theorem happens_of_step? (hstep : s.step? e = some s') (hstay : s.abandoned = [])
    (he : ∀ n, e ≠ .abandon n) : s.Happens e s' := by
  unfold step? at hstep
  split at hstep
  · cases hstep
    exact .arrive _
  · split at hstep
    · cases hstep
      exact .acquire ‹_› ‹_›
    · cases hstep
  · split at hstep
    · cases hstep
      exact .begin ‹_›
    · cases hstep
  · split at hstep
    · cases hstep
      exact .finish ‹_›
    · cases hstep
  · split at hstep
    · cases hstep
      exact .release ‹_›
    · cases hstep
  · exact absurd rfl (he _)
  · simp [hstay] at hstep

/-! ## Those in line -/

/-- The holder whose compile has not ended. -/
def unanswered (s : Service) : List Ticket :=
  match s.holder with
  | some (t, .acquired) | some (t, .running) => [t]
  | _ => []

/-- Those who have no answer yet, in the order of their turns. -/
def line (s : Service) : List Ticket := s.unanswered ++ s.waiting

theorem line_of_free (h : s.holder = none) : s.line = s.waiting := by
  simp [line, unanswered, h]

theorem line_of_finished (h : s.holder = some (t, .finished)) : s.line = s.waiting := by
  simp [line, unanswered, h]

theorem line_of_running (h : s.holder = some (t, .running)) : s.line = t :: s.waiting := by
  simp [line, unanswered, h]

theorem line_concat (s : Service) (t : Ticket) (n : Nat) :
    line { s with arrived := n, waiting := s.waiting ++ [t] } = s.line ++ [t] :=
  (List.append_assoc ..).symm

/-! ## The invariant -/

/-- The requests that are done have their answers, those of the compiler alone, which has left its
files; the others stand in line in the order of their arrival. -/
structure Serves (c : Compiler) (before : FileTree) (rs done : List Request) (s : Service) :
    Prop where
  compiler : s.compiler = c
  stay : s.abandoned = []
  arrived : s.arrived = rs.length
  requests : rs = done ++ s.line.map (·.request)
  numbers : s.line.map (·.number) = List.range' done.length s.line.length
  finished : ∀ t, s.holder = some (t, .finished) →
    done.getLast? = some t.request ∧ t.number + 1 = done.length
  files : s.files = (c.compileAll done before).1
  answered : s.answers.map (·.1) = List.range done.length
  results : s.answers.map (·.2) = (c.compileAll done before).2

theorem serves_start (c : Compiler) (before : FileTree) :
    Serves c before [] [] (start c before) where
  compiler := rfl
  stay := rfl
  arrived := rfl
  requests := rfl
  numbers := rfl
  finished := fun _ h => nomatch h
  files := rfl
  answered := rfl
  results := rfl

theorem Serves.length_done (h : Serves c before rs done s) : done.length = s.answers.length := by
  simpa using (congrArg List.length h.answered).symm

theorem Serves.numbers_of_line {ts : List Ticket} (h : Serves c before rs done s)
    (hline : s.line = t :: ts) :
    t.number = done.length ∧ ts.map (·.number) = List.range' (done.length + 1) ts.length := by
  have hnumbers := h.numbers
  rw [hline, List.map_cons, List.length_cons, List.range'_succ] at hnumbers
  exact List.cons.inj hnumbers

/-- The lock is taken or released, or a compile begins: the line stays as it is. -/
theorem Serves.passes {waiting : List Ticket} {holder : Option (Ticket × Phase)}
    (h : Serves c before rs done s)
    (hline : line { s with waiting := waiting, holder := holder } = s.line)
    (hholder : ∀ t, holder ≠ some (t, .finished)) :
    Serves c before rs done { s with waiting := waiting, holder := holder } where
  compiler := h.compiler
  stay := h.stay
  arrived := h.arrived
  requests := hline ▸ h.requests
  numbers := hline ▸ h.numbers
  finished := fun t ht => absurd ht (hholder t)
  files := h.files
  answered := h.answered
  results := h.results

/-- A request that arrives stands at the end of the line. -/
theorem Serves.arrive (h : Serves c before rs done s) (r : Request) :
    Serves c before (rs ++ [r]) done
      { s with arrived := s.arrived + 1, waiting := s.waiting ++ [⟨s.arrived, r⟩] } where
  compiler := h.compiler
  stay := h.stay
  arrived := by simp [h.arrived]
  requests := by
    rw [line_concat, List.map_append, ← List.append_assoc, ← h.requests]
    rfl
  numbers := by
    have hlength : s.arrived = done.length + s.line.length := by
      rw [h.arrived, h.requests, List.length_append, List.length_map]
    rw [line_concat, List.map_append, h.numbers, List.length_append, List.length_singleton,
      List.range'_concat, hlength, Nat.one_mul]
    rfl
  finished := h.finished
  files := h.files
  answered := h.answered
  results := h.results

/-- The compile of the first in line ends as one more by the compiler alone. -/
theorem Serves.finish (h : Serves c before rs done s) (hholder : s.holder = some (t, .running)) :
    Serves c before rs (done ++ [t.request])
      { s with
        files := (s.compiler.compile t.request s.files).1
        holder := some (t, .finished)
        answers := s.answers ++ [(t.number, (s.compiler.compile t.request s.files).2.result)] } := by
  have hline := line_of_running hholder
  obtain ⟨hnumber, hnumbers⟩ := h.numbers_of_line hline
  have hrequests := h.requests
  rw [hline, List.map_cons] at hrequests
  exact {
    compiler := h.compiler
    stay := h.stay
    arrived := h.arrived
    requests := by
      rw [line_of_finished rfl, List.append_assoc]
      exact hrequests
    numbers := by
      rw [line_of_finished rfl, List.length_append]
      exact hnumbers
    finished := by
      rintro t' ht'
      cases ht'
      simp [hnumber]
    files := by rw [Compiler.compileAll_append, h.compiler, h.files]; rfl
    answered := by
      rw [List.map_append, h.answered, List.length_append]
      simp [hnumber, List.range_succ]
    results := by rw [List.map_append, h.results, Compiler.compileAll_append, h.compiler, h.files]; rfl }

/-- One step keeps the invariant; the end of a compile adds to what is done. -/
theorem Serves.step (h : Serves c before rs done s) (hstep : s.Happens e s') :
    ∃ done', Serves c before (rs ++ e.request?.toList) done' s' := by
  have hrs (hnone : e.request? = none) : rs ++ e.request?.toList = rs := by simp [hnone]
  cases hstep with
  | arrive r => exact ⟨done, h.arrive r⟩
  | acquire hfree hfirst =>
      rw [hrs rfl]
      exact ⟨done, h.passes (by simp [line, unanswered, hfree, hfirst]) (by simp)⟩
  | begin hholder =>
      rw [hrs rfl]
      exact ⟨done, h.passes (by simp [line, unanswered, hholder]) (by simp)⟩
  | finish hholder =>
      rw [hrs rfl]
      exact ⟨_, h.finish hholder⟩
  | release hholder =>
      rw [hrs rfl]
      exact ⟨done, h.passes (by simp [line, unanswered, hholder]) (by simp)⟩

/-- What is done are the first requests, as many as have an answer. -/
theorem Serves.done_eq (h : Serves c before rs done s) : done = rs.take s.answers.length := by
  rw [h.requests, List.take_left' h.length_done]

/-- The holder of the lock is the last that is done or the first that is not. -/
theorem Serves.holder (h : Serves c before rs done s) (hholder : s.holder = some (t, phase)) :
    rs[t.number]? = some t.request ∧
      t.number + (if phase = .finished then 1 else 0) = done.length := by
  have hfirst (hline : s.line = t :: s.waiting) :
      rs[t.number]? = some t.request ∧ t.number = done.length := by
    have hnumber := (h.numbers_of_line hline).1
    refine ⟨?_, hnumber⟩
    rw [h.requests, hline, hnumber]
    simp
  cases phase with
  | acquired => exact hfirst (by simp [line, unanswered, hholder])
  | running => exact hfirst (by simp [line, unanswered, hholder])
  | finished =>
      obtain ⟨hlast, hnumber⟩ := h.finished t hholder
      refine ⟨?_, hnumber⟩
      obtain ⟨first, rfl⟩ := List.getLast?_eq_some_iff.mp hlast
      have hlength : t.number = first.length := by simpa using hnumber
      rw [h.requests, hlength]
      simp

/-- Where no event of a turn can happen, nobody holds the lock and nobody waits. -/
theorem idle_of_step?_eq_none (h : ∀ e ∈ turn, s.step? e = none) :
    s.holder = none ∧ s.waiting = [] := by
  cases hholder : s.holder with
  | none =>
      refine ⟨rfl, ?_⟩
      have hacquire := h .acquire (by simp [turn])
      cases hwaiting : s.waiting with
      | nil => rfl
      | cons t r => simp [step?, hholder, hwaiting] at hacquire
  | some holder =>
      obtain ⟨t, phase⟩ := holder
      have hbegin := h .begin (by simp [turn])
      have hfinish := h .finish (by simp [turn])
      have hrelease := h .release (by simp [turn])
      cases phase <;> simp [step?, hholder] at hbegin hfinish hrelease

/-! ## Counting events -/

/-- How many events of its turn the holder of the lock has behind it. -/
def stage (s : Service) : Nat :=
  match s.holder with
  | none => 0
  | some (_, .acquired) => 1
  | some (_, .running) => 2
  | some (_, .finished) => 3

/-- The lock is taken by one who acquires it and free after a release. -/
theorem Happens.busy (h : s.Happens e s') :
    s'.isBusy.toNat + e.isRelease.toNat = s.isBusy.toNat + e.isAcquire.toNat := by
  cases h <;> simp_all [isBusy, Step.isAcquire, Step.isRelease]

/-- Every event but an arrival takes the holder's turn on, and the fourth ends it. -/
theorem Happens.stage (h : s.Happens e s') :
    s'.stage + 4 * e.isRelease.toNat + e.request?.toList.length = s.stage + 1 := by
  cases h <;> simp_all [Service.stage, Step.request?, Step.isRelease]

/-- A turn gives one answer, before its end. -/
theorem Happens.answers (h : s.Happens e s') :
    s'.answers.length + s.stage / 3 = s.answers.length + s'.stage / 3 + e.isRelease.toNat := by
  cases h <;> simp_all [Service.stage, Step.isRelease]

/-- What the events so far say of the lock and of the answers. -/
structure Counts (past : List Step) (s : Service) : Prop where
  busy : acquisitions past = releases past + s.isBusy.toNat
  answers : s.answers.length = releases past + s.stage / 3
  events : past.length = (arrivals past).length + 4 * releases past + s.stage

theorem counts_start (c : Compiler) (before : FileTree) : Counts [] (start c before) where
  busy := rfl
  answers := by simp [start, stage, releases]
  events := rfl

theorem Counts.step {past : List Step} (h : Counts past s) (hstep : s.Happens e s') :
    Counts (past ++ [e]) s' := by
  have hbusy := hstep.busy
  have hstage := hstep.stage
  have hanswers := hstep.answers
  obtain ⟨hbusy', hanswers', hevents'⟩ := h
  constructor
  · rw [acquisitions_concat, releases_concat]
    omega
  · rw [releases_concat]
    omega
  · rw [releases_concat, arrivals_concat, List.length_append, List.length_append,
      List.length_singleton]
    omega

/-! ## Runs -/

theorem run?_append (s : Service) (steps rest : List Step) :
    s.run? (steps ++ rest) = (s.run? steps).bind fun s => s.run? rest := by
  induction steps generalizing s with
  | nil => rfl
  | cons e steps ih =>
      rw [List.cons_append, run?, run?, Option.bind_assoc]
      exact congrArg _ (funext ih)

/-- Whatever happens, if no caller leaves, the service keeps the invariant and the counts. -/
theorem serves_run? {past : List Step} (hserves : ∃ done, Serves c before (arrivals past) done s)
    (hcounts : Counts past s) (hrun : s.run? steps = some s') (hstay : ∀ n, .abandon n ∉ steps) :
    (∃ done, Serves c before (arrivals (past ++ steps)) done s') ∧ Counts (past ++ steps) s' := by
  induction steps generalizing past s with
  | nil =>
      cases hrun
      rw [List.append_nil]
      exact ⟨hserves, hcounts⟩
  | cons e steps ih =>
      obtain ⟨s₁, hstep, hrest⟩ := Option.bind_eq_some_iff.mp hrun
      obtain ⟨done, h⟩ := hserves
      have hhappens := happens_of_step? hstep h.stay fun n heq => hstay n (heq ▸ List.mem_cons_self)
      have hnext := h.step hhappens
      rw [← arrivals_concat] at hnext
      have hkept := ih hnext (hcounts.step hhappens) hrest fun n hn =>
        hstay n (List.mem_cons_of_mem e hn)
      rwa [List.append_assoc] at hkept

/-- The turns of those who wait, one after another. -/
theorem exists_run?_of_free (h : s.holder = none) : ∃ rest s', (∀ e ∈ rest, e ∈ turn) ∧
    s.run? rest = some s' ∧ s'.holder = none ∧ s'.waiting = [] := by
  obtain ⟨waiting, hwaiting⟩ : ∃ waiting, s.waiting = waiting := ⟨_, rfl⟩
  induction waiting generalizing s with
  | nil => exact ⟨[], s, List.forall_mem_nil _, rfl, h, hwaiting⟩
  | cons t waiting ih =>
      have hturn : ∃ s₁, s.run? turn = some s₁ ∧ s₁.holder = none ∧ s₁.waiting = waiting := by
        simp [turn, run?, step?, h, hwaiting]
      obtain ⟨s₁, hrun, hfree, hrest⟩ := hturn
      obtain ⟨rest, s', hmem, hrun', hend⟩ := ih hfree hrest
      refine ⟨turn ++ rest, s', ?_, ?_, hend⟩
      · exact fun e he => (List.mem_append.mp he).elim id (hmem e)
      · rw [run?_append, hrun]
        exact hrun'

/-- A turn that has begun can be ended, and then those who wait have theirs. -/
theorem exists_run?_idle (s : Service) : ∃ rest s', (∀ e ∈ rest, e ∈ turn) ∧
    s.run? rest = some s' ∧ s'.holder = none ∧ s'.waiting = [] := by
  have hfinish : ∃ first s₁, (∀ e ∈ first, e ∈ turn) ∧ s.run? first = some s₁ ∧
      s₁.holder = none := by
    cases hholder : s.holder with
    | none => exact ⟨[], s, List.forall_mem_nil _, rfl, hholder⟩
    | some holder =>
        obtain ⟨t, phase⟩ := holder
        cases phase with
        | acquired => exact ⟨[.begin, .finish, .release], by simp [turn, run?, step?, hholder]⟩
        | running => exact ⟨[.finish, .release], by simp [turn, run?, step?, hholder]⟩
        | finished => exact ⟨[.release], by simp [turn, run?, step?, hholder]⟩
  obtain ⟨first, s₁, hfirst, hrun, hfree⟩ := hfinish
  obtain ⟨rest, s', hrest, hrun', hend⟩ := exists_run?_of_free hfree
  refine ⟨first ++ rest, s', ?_, ?_, hend⟩
  · exact fun e he => (List.mem_append.mp he).elim (hfirst e) (hrest e)
  · rw [run?_append, hrun]
    exact hrun'

/-- After some events a service is where its compiler alone would be after the requests that have an
answer. -/
structure ServedInOrder (c : Compiler) (before : FileTree) (steps : List Step) (s : Service) :
    Prop where
  single : s.running ≤ 1
  busy : s.isBusy = true ↔ acquisitions steps = releases steps + 1
  free : s.isBusy = false ↔ acquisitions steps = releases steps
  /-- The lock goes to the requests in the order of their arrival. -/
  holder : ∀ t phase, s.holder = some (t, phase) →
    t.number = releases steps ∧ (arrivals steps)[releases steps]? = some t.request
  answered : s.answers.map (·.1) = List.range s.answers.length
  results : s.answers.map (·.2) =
    (c.compileAll ((arrivals steps).take s.answers.length) before).2
  files : s.files = (c.compileAll ((arrivals steps).take s.answers.length) before).1
  /-- An answer takes at most three events of its own and those of the requests before. -/
  soon : steps.length ≤ (arrivals steps).length + 4 * s.answers.length + 2
  complete : (∀ e ∈ turn, s.step? e = none) →
    s.isBusy = false ∧ s.answers.length = (arrivals steps).length

theorem Serves.servedInOrder (h : Serves c before (arrivals steps) done s)
    (hcounts : Counts steps s) : ServedInOrder c before steps s := by
  obtain ⟨hbusy, hanswers, hevents⟩ := hcounts
  have hlength := h.length_done
  exact {
    single := by
      rw [running, h.stay]
      split <;> simp
    busy := by cases hs : s.isBusy <;> simp [hbusy, hs]
    free := by cases hs : s.isBusy <;> simp [hbusy, hs]
    holder := by
      intro t phase hholder
      obtain ⟨hrequest, hnumber⟩ := h.holder hholder
      have heq : t.number = releases steps := by
        rw [hlength, hanswers, stage, hholder] at hnumber
        cases phase <;> simp at hnumber ⊢ <;> omega
      exact ⟨heq, heq ▸ hrequest⟩
    answered := hlength ▸ h.answered
    results := h.done_eq ▸ h.results
    files := h.done_eq ▸ h.files
    soon := by
      have hstage : s.stage ≤ 3 := by
        unfold stage
        split <;> simp
      omega
    complete := by
      intro hstuck
      obtain ⟨hfree, hwaiting⟩ := idle_of_step?_eq_none hstuck
      refine ⟨by rw [isBusy, hfree]; rfl, ?_⟩
      rw [h.requests, line_of_free hfree, hwaiting, ← hlength]
      simp }

/-- A service whose callers all stay serves them in the order of their arrival, and can serve all
of them, as its compiler alone would one after another. -/
theorem servedInOrder_of_run? (hstay : ∀ n, .abandon n ∉ steps)
    (hrun : (start c before).run? steps = some s) :
    ServedInOrder c before steps s ∧ ∃ rest s', (∀ e ∈ rest, e ∈ turn) ∧
      s.run? rest = some s' ∧ s'.isBusy = false ∧
      s'.answers.map (·.1) = List.range (arrivals steps).length ∧
      s'.answers.map (·.2) = (c.compileAll (arrivals steps) before).2 ∧
      s'.files = (c.compileAll (arrivals steps) before).1 := by
  have hstart : ∃ done, Serves c before (arrivals []) done (start c before) :=
    ⟨[], serves_start c before⟩
  obtain ⟨⟨done, hserves⟩, hcounts⟩ := serves_run? hstart (counts_start c before) hrun hstay
  refine ⟨hserves.servedInOrder hcounts, ?_⟩
  obtain ⟨rest, s', hturn, hrest, hfree, hwaiting⟩ := exists_run?_idle s
  have hnone : ∀ e ∈ rest, e.request? = none ∧ ∀ n, e ≠ .abandon n := by
    intro e he
    have hmem := hturn e he
    simp only [turn, List.mem_cons, List.not_mem_nil, or_false] at hmem
    rcases hmem with rfl | rfl | rfl | rfl <;> exact ⟨rfl, fun _ => nofun⟩
  obtain ⟨⟨done', hserves'⟩, -⟩ := serves_run? ⟨done, hserves⟩ hcounts hrest
    fun n hn => (hnone _ hn).2 n rfl
  have harrivals : arrivals ([] ++ steps ++ rest) = arrivals steps := by
    rw [List.nil_append, arrivals_append, arrivals, arrivals,
      List.filterMap_eq_nil_iff.mpr fun e he => (hnone e he).1, List.append_nil]
  have hdone : arrivals steps = done' := by
    rw [← harrivals, hserves'.requests, line_of_free hfree, hwaiting, List.map_nil, List.append_nil]
  refine ⟨rest, s', hturn, hrest, by rw [isBusy, hfree]; rfl, ?_⟩
  rw [hdone]
  exact ⟨hserves'.answered, hserves'.results, hserves'.files⟩

def runEmpty (run : NodeId) : Request :=
  ⟨⟨#[⟨.statementEnd, .onWorkspace, none⟩]⟩, run, [], .standard⟩

def threeRequests : List Step :=
  [.arrive (runEmpty ⟨0⟩), .arrive (runEmpty ⟨1⟩), .acquire, .begin, .arrive (runEmpty ⟨0⟩), .finish,
    .release, .acquire, .begin, .finish, .release, .acquire, .begin]

theorem servedInOrder_threeRequests :
    (∀ n, .abandon n ∉ threeRequests) ∧
      ∃ s, (start ⟨.standard, ⟨"", "", ""⟩⟩ .empty).run? threeRequests = some s ∧
        ServedInOrder ⟨.standard, ⟨"", "", ""⟩⟩ .empty threeRequests s ∧
        s.answers = [(0, .ok "Compiled/BhAppScript.js"), (1, .error (.malformed (.absent ⟨1⟩)))] := by
  have hstay : ∀ n, .abandon n ∉ threeRequests := by simp [threeRequests]
  have hrun : (start ⟨.standard, ⟨"", "", ""⟩⟩ .empty).run? threeRequests = some _ := rfl
  exact ⟨hstay, _, hrun, (servedInOrder_of_run? hstay hrun).1, rfl⟩

end BlockScript.Service
