import BlockScript.Proofs.Emission.Skeleton
import BlockScript.Proofs.Numbering.Names
/-!
# Handlers under locks

The code of an event handler has a lock of its own: it is created in front of the handler's function,
all that the function does is inside a block that runs only while the lock is held, and the lock is
released in whatever way that block is left.  A body closes all blocks that it opens, and no
statement handles a lock, so nothing else does (`handlers_locked`).
-/

namespace BlockScript

open Script (Line Code Name Balanced)

def Script.Code.handlesLock : Code → Bool
  | .createLock _ | .openTryLock _ | .unlock _ => true
  | .bind _ (.call ⟨.library name, _⟩) | .perform ⟨.library name, _⟩ =>
    Script.lockFunctions.contains name
  | _ => false

theorem Script.Code.Ordinary.handlesLock_eq {notes : Bool} {code : Code}
    (h : code.Ordinary notes) : code.handlesLock = false := by
  have hcall : ∀ {c : Script.Call}, c.callee.Ordinary → (Code.perform c).handlesLock = false ∧
      ∀ n, (Code.bind n (.call c)).handlesLock = false := by
    rintro ⟨callee, args⟩ hcallee
    cases callee with
    | library name =>
        have hname : Script.lockFunctions.contains name = false := by
          simpa using hcallee.2.2.2
        exact ⟨hname, fun _ => hname⟩
    | user n => exact ⟨rfl, fun _ => rfl⟩
  cases code with
  | createLock _ | unlock _ | openTryLock _ => exact h.elim
  | perform c => exact (hcall h).1
  | bind n value =>
      cases value with
      | call c => exact (hcall h).2 n
      | binary _ _ _ | unary _ _ => rfl
  | declare _ _ _ | bindLimit _ _ | assign _ _ | addAssign _ _ | enterCall _ | leaveCall
    | ifNotFinite _ | ifUndefined _ | breakLoop | continueLoop | returnValue _ | register _ _
    | openIf _ | openUnless _ | openElse | openWhile | openRepeat _ | openBlock
    | openFunction _ _ _ | openTry | openFinally | close => rfl

/-- A handler is registered if it starts with the program, or for a key that is known. -/
theorem Trigger.isSome_event?_iff {trigger : Trigger} :
    trigger.event?.isSome ↔ (∃ text, trigger = .delayedStart text) ∨
      ∃ key, trigger = .keyPressed key ∧ Trigger.capitals key ∈ Trigger.keys := by
  cases trigger with
  | delayedStart text => simp [event?]
  | keyPressed key =>
      rw [event?]
      by_cases hkey : capitals key ∈ keys
      · simp [hkey]
      · simp [hkey]

def Graph.handlerEntries (g : Graph) (roots : List NodeId) : List (NodeId × Handler) :=
  roots.filterMap fun root =>
    match (g.node? root).map Node.kind with
    | some (.handler h) => some (root, h)
    | _ => none

namespace Emission

structure HandlerCode where
  id : NodeId
  trigger : Trigger
  serial : Nat
  /-- How long the handler waits before its body, if it does. -/
  delay : Option Binary64
  body : List Line

namespace HandlerCode

variable (x : HandlerCode)

def delayLines (depth : Nat) : List Line :=
  x.delay.toList.map fun v => ⟨depth, .perform ⟨.library "_sleep", [.number v]⟩⟩

def registrationLines (depth : Nat) : List Line :=
  x.trigger.event?.toList.map fun event => ⟨depth, .register x.serial event⟩

/-- The handler's lock and its function; the lock guards the delay and the body, and is released
after them. -/
def lines (depth : Nat) : List Line :=
  ⟨depth, .createLock x.serial⟩ :: ⟨depth, .openFunction x.serial [] none⟩ ::
    ⟨depth + 1, .openTryLock x.serial⟩ :: ⟨depth + 2, .openTry⟩ ::
    (x.delayLines (depth + 3) ++ (x.body ++ ⟨depth + 2, .close⟩ :: ⟨depth + 2, .openFinally⟩ ::
    ⟨depth + 3, .unlock x.serial⟩ :: ⟨depth + 2, .close⟩ :: ⟨depth + 1, .close⟩ ::
    ⟨depth, .close⟩ :: x.registrationLines depth))

theorem registrationLines_ne_nil_iff (depth : Nat) :
    x.registrationLines depth ≠ [] ↔ x.trigger.event?.isSome := by
  unfold registrationLines
  cases x.trigger.event? <;> simp

def lockLines (depth : Nat) : List Line :=
  [⟨depth, .createLock x.serial⟩, ⟨depth + 1, .openTryLock x.serial⟩, ⟨depth + 3, .unlock x.serial⟩]

/-- What is reported: the handler, and a warning if there is no event to register it for. -/
def events : List Event :=
  .handler x.trigger (.func x.serial) ::
    if x.trigger.event?.isSome then [] else [.unregistered x.trigger x.id]

/-- Where the body handles no lock, only the three lines do that are the handler's own. -/
theorem filter_lines (hbody : ∀ l ∈ x.body, l.code.handlesLock = false) (depth : Nat) :
    ((x.lines depth).filter fun l => l.code.handlesLock) = x.lockLines depth := by
  have hnone : x.body.filter (fun l => l.code.handlesLock) = [] := by
    rw [List.filter_eq_nil_iff]
    intro l hl
    simp [hbody l hl]
  have hdelay : (x.delayLines (depth + 3)).filter (fun l => l.code.handlesLock) = [] := by
    unfold delayLines
    cases x.delay <;> rfl
  have hregistration : (x.registrationLines depth).filter (fun l => l.code.handlesLock) = [] := by
    unfold registrationLines
    cases x.trigger.event? <;> rfl
  simp only [lines, List.filter_cons, List.filter_append, hnone, hdelay, hregistration]
  rfl

end HandlerCode

namespace Context

variable {c : Context} {depth : Nat} {id : NodeId}

/-- The code is that of an event handler: it has the handler's number, waits exactly if the handler
starts with the program, and then does what the handler's statements say. -/
structure CodesHandler (c : Context) (depth : Nat) (entry : NodeId × Handler) (x : HandlerCode) :
    Prop where
  id : x.id = entry.1
  trigger : x.trigger = entry.2.trigger
  serial : c.numbering.serial entry.1 = .ok x.serial
  delayed : ∀ text, entry.2.trigger = .delayedStart text →
    ∃ v, Emission.number entry.1 text = .ok v ∧ x.delay = some v
  undelayed : ∀ key, entry.2.trigger = .keyPressed key → x.delay = none
  body : Gives (c.statements (depth + 3) entry.2.body) x.body ()
  balanced : Balanced x.body
  registered : (x.registrationLines depth ≠ []) ↔
    (∃ text, entry.2.trigger = .delayedStart text) ∨
      ∃ key, entry.2.trigger = .keyPressed key ∧ Trigger.capitals key ∈ Trigger.keys

theorem delay_eq {trigger : Trigger} (h : (delay depth id trigger).result = .ok ()) :
    ∃ v : Option Binary64,
      (∀ text, trigger = .delayedStart text → ∃ y, Emission.number id text = .ok y ∧ v = some y) ∧
      (∀ key, trigger = .keyPressed key → v = none) ∧
      delay depth id trigger =
        ⟨⟨v.toList.map fun y => ⟨depth, .perform ⟨.library "_sleep", [.number y]⟩⟩, []⟩, .ok ()⟩ := by
  cases trigger with
  | keyPressed key =>
      refine ⟨none, fun text htext => ?_, fun _ _ => rfl, rfl⟩
      cases htext
  | delayedStart text =>
      obtain ⟨y, hy, -⟩ := result_bind_eq_ok.mp h
      have hnumber : Emission.number id text = .ok y := hy
      refine ⟨some y, ?_, fun key hkey => ?_, ?_⟩
      · rintro _ ⟨⟩
        exact ⟨y, hnumber, rfl⟩
      · cases hkey
      · rw [delay, hnumber, lift_ok, pure_bind]
        rfl

theorem registration_eq (depth : Nat) (x : HandlerCode) :
    registration depth x.id x.serial x.trigger =
      ⟨⟨x.registrationLines depth,
        if x.trigger.event?.isSome then [] else [.unregistered x.trigger x.id]⟩, .ok ()⟩ := by
  unfold registration HandlerCode.registrationLines
  cases x.trigger.event? <;> rfl

theorem handler_eq {h : Handler} (hr : (c.handler depth id h).result = .ok ()) :
    ∃ x, c.CodesHandler depth (id, h) x ∧
      (∀ l ∈ x.body, l.code.handlesLock = false) ∧
      c.handler depth id h = ⟨⟨x.lines depth, x.events⟩, .ok ()⟩ := by
  obtain ⟨n, _, _, _, hserial, hwait, hbody, _, _⟩ := lines_of_gives_handler ⟨hr, rfl⟩
  obtain ⟨_, ⟨s, hs, rfl⟩, hsaid⟩ := tells_statements (depth + 3) h.body () hbody.1
  obtain ⟨v, hdelayed, hundelayed, hdelay⟩ := delay_eq hwait.1
  let x : HandlerCode := ⟨id, h.trigger, n, v, (c.statements (depth + 3) h.body).output.lines⟩
  have hstatements : c.statements (depth + 3) h.body = ⟨⟨x.body, []⟩, .ok ()⟩ := by
    rw [← hsaid.quiet, ← hbody.1]
  have hregistration := registration_eq depth x
  refine ⟨x, ⟨rfl, rfl, hserial, hdelayed, hundelayed, ⟨hbody.1, rfl⟩,
    Script.balanced_of_heard hsaid.ordinary hsaid.heard,
    (x.registrationLines_ne_nil_iff depth).trans Trigger.isSome_event?_iff⟩, ?_, ?_⟩
  · exact fun l hl => (hsaid.ordinary l hl).handlesLock_eq
  · rw [handler, serial, hserial, lift_ok, pure_bind, hdelay, hstatements, hregistration]
    rfl

theorem handlers_eq {roots : List NodeId} (h : (c.handlers depth roots).result = .ok ()) :
    ∃ xs : List HandlerCode,
      List.Forall₂ (c.CodesHandler depth) (c.graph.handlerEntries roots) xs ∧
      (∀ x ∈ xs, ∀ l ∈ x.body, l.code.handlesLock = false) ∧
      c.handlers depth roots =
        ⟨⟨xs.flatMap (HandlerCode.lines · depth), xs.flatMap HandlerCode.events⟩, .ok ()⟩ := by
  rw [handlers_eq_each] at h ⊢
  induction roots with
  | nil => exact ⟨[], .nil, List.forall_mem_nil _, rfl⟩
  | cons root roots ih =>
      obtain ⟨u, hroot, hroots⟩ := result_bind_eq_ok.mp h
      obtain ⟨xs, hxs, hlocks, heq⟩ := ih hroots
      rw [each, bind_of_ok hroot, heq]
      obtain ⟨n, hn, hhandler⟩ := result_bind_eq_ok.mp hroot
      have hnode : c.graph.node root = .ok n := hn
      have hread := Graph.node_eq_ok_iff.mp hnode
      rw [rootHandler, hnode, lift_ok, pure_bind]
      cases hkind : n.kind with
      | handler x =>
          simp only [hkind] at hhandler
          obtain ⟨y, hy, hbody, hcode⟩ := handler_eq hhandler
          have hentries : c.graph.handlerEntries (root :: roots) =
              (root, x) :: c.graph.handlerEntries roots := by
            simp [Graph.handlerEntries, hread, hkind]
          rw [hentries]
          refine ⟨y :: xs, .cons hy hxs, List.forall_mem_cons.mpr ⟨hbody, hlocks⟩, ?_⟩
          simp only [hcode]
          rfl
      | statement _ | declarationEnd | statementEnd | expression _ | argument _ | argumentEnd
        | declaration _ | definition _ =>
          have hentries : c.graph.handlerEntries (root :: roots) =
              c.graph.handlerEntries roots := by
            simp [Graph.handlerEntries, hread, hkind]
          rw [hentries]
          exact ⟨xs, hxs, hlocks, rfl⟩

/-- Handlers whose nodes refer to different nodes have names of their own. -/
theorem nodup_names_of_codes {g : Graph} (hindexed : c.numbering.Indexed g)
    {entries : List (NodeId × Handler)} {xs : List HandlerCode}
    (hxs : List.Forall₂ (c.CodesHandler depth) entries xs)
    (hdistinct : (entries.map fun entry => c.numbering.bearer entry.1).Nodup) :
    ((xs.flatMap fun x => [Name.lock x.serial, Name.func x.serial]).map Name.render).Nodup := by
  have hserial : ∀ x ∈ xs, c.numbering.serial x.id = .ok x.serial := by
    clear hdistinct
    induction hxs with
    | nil => exact List.forall_mem_nil _
    | cons hx _ ih => exact List.forall_mem_cons.mpr ⟨hx.id ▸ hx.serial, ih⟩
  have hbearers : (xs.map fun x => c.numbering.bearer x.id) =
      entries.map fun entry => c.numbering.bearer entry.1 := by
    clear hdistinct hserial
    induction hxs with
    | nil => rfl
    | cons hx _ ih => rw [List.map_cons, List.map_cons, hx.id, ih]
  rw [← hbearers] at hdistinct
  have hne : xs.Pairwise fun x y => x.serial ≠ y.serial := by
    refine (List.pairwise_map.mp hdistinct).imp_of_mem fun {x y} hx hy hbearer heq => hbearer ?_
    exact (hindexed.serial_eq_iff (hserial x hx) (hserial y hy)).mp heq
  refine List.Nodup.map (fun a b => Name.render_injective) (List.nodup_flatMap.mpr ⟨?_, ?_⟩)
  · intro x _
    simp
  · refine hne.imp fun {x y} hxy => ?_
    simp [Function.onFun, List.Disjoint, hxy]

end Context

/-- Where the event handlers among the roots refer to different nodes and their code is generated,
it is that of one handler after another, in the order of the roots: under a lock of its own each,
whose name no other has, and which no other line handles. -/
theorem handlers_locked {g : Graph} {run : NodeId} {numbered roots : List NodeId} {ns : Numbering}
    {options : Options} {depth : Nat} (hns : Numbering.ofProgram g run numbered = .ok ns)
    (hdistinct : ((g.handlerEntries roots).map fun entry => ns.bearer entry.1).Nodup)
    (h : (Context.handlers ⟨g, ns, options⟩ depth roots).result = .ok ()) :
    ∃ xs : List HandlerCode,
      List.Forall₂ (Context.CodesHandler ⟨g, ns, options⟩ depth) (g.handlerEntries roots) xs ∧
      (Context.handlers ⟨g, ns, options⟩ depth roots).output =
        ⟨xs.flatMap (HandlerCode.lines · depth), xs.flatMap HandlerCode.events⟩ ∧
      ((xs.flatMap fun x => [Name.lock x.serial, Name.func x.serial]).map Name.render).Nodup ∧
      ((Context.handlers ⟨g, ns, options⟩ depth roots).output.lines.filter
        fun l => l.code.handlesLock) = xs.flatMap (HandlerCode.lockLines · depth) := by
  obtain ⟨all, _, _, hnoted⟩ := Numbering.exists_noted hns
  obtain ⟨xs, hxs, hlocks, heq⟩ := Context.handlers_eq h
  refine ⟨xs, hxs, by rw [heq], Context.nodup_names_of_codes hnoted.indexed hxs hdistinct, ?_⟩
  rw [heq, List.filter_flatMap]
  exact List.flatMap_congr fun x hx => x.filter_lines (hlocks x hx) depth

/-- A handler that waits for the program's start, one for a key, and one for a key that is not
known. -/
def threeHandlers : Graph :=
  ⟨#[⟨.handler ⟨.keyPressed "up", ⟨1⟩⟩, .onWorkspace, none⟩,
    .ofKind (.statement ⟨.returnValue none, ⟨2⟩⟩),
    .ofKind .statementEnd,
    ⟨.handler ⟨.delayedStart " 01.50", ⟨4⟩⟩, .onWorkspace, none⟩,
    .ofKind .statementEnd,
    ⟨.handler ⟨.keyPressed "é", ⟨6⟩⟩, .onWorkspace, none⟩,
    .ofKind .statementEnd,
    ⟨.statement ⟨.breakLoop, ⟨8⟩⟩, .onWorkspace, none⟩,
    .ofKind .statementEnd]⟩

theorem handlers_locked_threeHandlers :
    ∃ ns, Numbering.ofProgram threeHandlers ⟨7⟩ [⟨0⟩, ⟨3⟩, ⟨5⟩] = .ok ns ∧
      let c : Context := ⟨threeHandlers, ns, .standard⟩
      let roots : List NodeId := [⟨3⟩, ⟨7⟩, ⟨5⟩, ⟨0⟩]
      ((threeHandlers.handlerEntries roots).map fun entry => ns.bearer entry.1).Nodup ∧
      (c.handlers 1 roots).result = .ok () ∧
      ∃ xs : List HandlerCode,
        List.Forall₂ (c.CodesHandler 1) (threeHandlers.handlerEntries roots) xs ∧
        (c.handlers 1 roots).output =
          ⟨xs.flatMap (HandlerCode.lines · 1), xs.flatMap HandlerCode.events⟩ ∧
        ((xs.flatMap fun x => [Name.lock x.serial, Name.func x.serial]).map Name.render).Nodup ∧
        ((c.handlers 1 roots).output.lines.filter fun l => l.code.handlesLock) =
          xs.flatMap (HandlerCode.lockLines · 1) := by
  refine ⟨_, rfl, ?_⟩
  intro c roots
  have hdistinct : ((threeHandlers.handlerEntries roots).map
      fun entry => c.numbering.bearer entry.1).Nodup := by decide
  have hresult : (c.handlers 1 roots).result = .ok () := rfl
  refine ⟨hdistinct, hresult, ?_⟩
  exact handlers_locked (show Numbering.ofProgram threeHandlers ⟨7⟩ [⟨0⟩, ⟨3⟩, ⟨5⟩] = .ok _ from rfl)
    hdistinct hresult

end Emission

end BlockScript
