import BlockScript.Proofs.Emission.Indentation
import BlockScript.Proofs.Emission.Traces
import BlockScript.Proofs.Numbering.Walk
/-!
# Guards of arithmetic

`Replaced c ids ls ls'`: the lines `ls'` are the lines `ls` with two more behind the line of each
arithmetic operation among the nodes `ids`.  The other nodes of `ids` look for entries of lists, and
in both `ls` and `ls'` two lines replace a missing entry.  So with guards the code of an expression
or of a chain of statements is the code without them, with two more lines for each arithmetic
operation (`guarded_of_gives`).
-/

namespace BlockScript

open Script (Line Code Operand)
open Text.Quoted (isLineEnd)

namespace Script.Code

def isIfNotFinite : Code → Bool
  | ifNotFinite _ => true
  | _ => false

def isIfUndefined : Code → Bool
  | ifUndefined _ => true
  | _ => false

def isArithmetic : Code → Bool
  | bind _ (.binary op _ _) => op.isArithmetic
  | _ => false

def isCondition (code : Code) : Bool :=
  code.isIfNotFinite || code.isIfUndefined

theorem Uniform.clean {code : Code} (h : code.Uniform) : code.Clean := by
  cases code with
  | openFunction n params note =>
      obtain ⟨rfl, rfl⟩ := h
      exact ⟨List.forall_mem_nil _, rfl⟩
  | bind n value =>
      cases value with
      | binary _ _ _ => exact h.elim
      | unary _ _ => trivial
      | call _ => exact h
  | perform _ => exact h
  | declare _ _ _ => exact h.elim
  | _ => trivial

theorem Uniform.isCondition {code : Code} (h : code.Uniform) : code.isCondition = false := by
  cases code with
  | ifNotFinite _ | ifUndefined _ => exact h.elim
  | _ => rfl

theorem Uniform.isArithmetic {code : Code} (h : code.Uniform) : code.isArithmetic = false := by
  cases code with
  | bind n value =>
      cases value with
      | binary _ _ _ => exact h.elim
      | unary _ _ | call _ => rfl
  | _ => rfl

end Script.Code

theorem Script.guards_text_eq {l : Line} (h : l.code.Clean) :
    Script.guards l.text = l.code.isCondition := by
  rw [Script.guards_text h]
  cases l.code <;> rfl

namespace NodeKind

def isArithmetic : NodeKind → Bool
  | expression (.binary op _ _) => op.isArithmetic
  | _ => false

/-- Whether a node looks for the value of an entry of a list. -/
def isAccess : NodeKind → Bool
  | expression (.builtin ⟨.list _ .get, _, _⟩) => true
  | expression (.builtin ⟨.list _ .getLast, _, _⟩) => true
  | _ => false

/-- Whether the code of a node replaces its value under some condition. -/
def isReplaced (kind : NodeKind) : Bool :=
  kind.isArithmetic || kind.isAccess

theorem operatesOrCalls_of_isReplaced (kind : NodeKind) (h : kind.isReplaced = true) :
    kind.operatesOrCalls = true := by
  cases kind with
  | expression e =>
      cases e with
      | binary _ _ _ | builtin _ | call _ => rfl
      | unary _ _ | read | literal _ => cases h
  | _ => cases h

theorem isAccess_of_func {call : BuiltinCall} {elem : ElemType} {op : ListOp}
    (hfunc : call.func = .list elem op) (hop : op = .get ∨ op = .getLast) :
    (expression (.builtin call)).isAccess = true := by
  obtain ⟨func, choice, args⟩ := call
  obtain rfl : func = .list elem op := hfunc
  rcases hop with rfl | rfl <;> rfl

/-- The default of the type of its entries is what replaces a missing entry of a list. -/
theorem isAccess_builtin (call : BuiltinCall) :
    (expression (.builtin call)).isAccess = false ∧ call.func.substitute? = none ∨
      ∃ elem op, call.func = .list elem op ∧ (op = .get ∨ op = .getLast) ∧
        call.func.substitute? = some elem.initial := by
  obtain ⟨func, choice, args⟩ := call
  cases func with
  | list elem op =>
      cases op with
      | get => exact .inr ⟨elem, .get, rfl, .inl rfl, rfl⟩
      | getLast => exact .inr ⟨elem, .getLast, rfl, .inr rfl, rfl⟩
      | push | pop | insert | remove | append | clear | set | length => exact .inl ⟨rfl, rfl⟩
  | _ => exact .inl ⟨rfl, rfl⟩

end NodeKind

def Script.conditions (ls : List Line) : List Code :=
  (ls.map Line.code).filter Code.isCondition

namespace Script

theorem conditions_append (a b : List Line) :
    conditions (a ++ b) = conditions a ++ conditions b := by
  simp [conditions]

theorem conditions_cons_of_false {l : Line} (h : l.code.isCondition = false) (ls : List Line) :
    conditions (l :: ls) = conditions ls := by
  simp [conditions, h]

theorem conditions_cons_of_true {l : Line} (h : l.code.isCondition = true) (ls : List Line) :
    conditions (l :: ls) = l.code :: conditions ls := by
  simp [conditions, h]

end Script

namespace Emission

/-- The condition under which the value of a node is replaced: that of an operation is no finite
number, that of an access is undefined. -/
def HasCondition (c : Context) (id : NodeId) (code : Code) : Prop :=
  ∃ t, c.numbering.serial id = .ok t ∧
    code = bif c.graph.marked NodeKind.isArithmetic id then .ifNotFinite t else .ifUndefined t

theorem Context.clean_callLines (c : Context) (depth n : Nat) {code : Code} (h : code.Clean) :
    ∀ l ∈ c.callLines depth n code, l.code.Clean := by
  unfold callLines
  split
  · simp only [List.forall_mem_append, List.forall_mem_singleton, List.forall_mem_cons]
    exact ⟨trivial, h, trivial⟩
  · simp only [List.nil_append, List.forall_mem_singleton]
    exact h

theorem Context.conditions_callLines (c : Context) (depth n : Nat) {code : Code}
    (h : code.isCondition = false) : Script.conditions (c.callLines depth n code) = [] := by
  unfold callLines
  split
  · rw [Script.conditions_append, Script.conditions_cons_of_false rfl,
      Script.conditions_cons_of_false h, Script.conditions_cons_of_false rfl]
    rfl
  · rw [List.nil_append, Script.conditions_cons_of_false h]
    rfl

/-- The second lines are the first with two more behind each arithmetic operation, which put its
left operand in the place of its result.  Lines that replace a missing entry of a list stand behind
the call that looks for it, and no other conditions without braces. -/
inductive Replaced (c : Context) : List NodeId → List Line → List Line → Prop where
  | nil : Replaced c [] [] []
  | line {l : Line} {ids : List NodeId} {ls ls' : List Line}
      (hclean : c.options.withComments = false → l.code.Clean)
      (hcondition : l.code.isCondition = false) (harithmetic : l.code.isArithmetic = false)
      (h : Replaced c ids ls ls') : Replaced c ids (l :: ls) (l :: ls')
  | operation {id left right : NodeId} {op : BinaryOp} {t depth : Nat} {a b : Operand}
      {ids : List NodeId} {ls ls' : List Line}
      (he : c.graph.expression id = .ok (.binary op left right)) (hop : op.isArithmetic = true)
      (ht : c.numbering.serial id = .ok t) (h : Replaced c ids ls ls') :
      Replaced c (id :: ids) (⟨depth, .bind t (.binary op a b)⟩ :: ls)
        (⟨depth, .bind t (.binary op a b)⟩ :: ⟨depth, .ifNotFinite t⟩ ::
          ⟨depth + 1, .assign t a⟩ :: ls')
  | access {id : NodeId} {call : BuiltinCall} {elem : ElemType} {op : ListOp} {name : String}
      {args : List Operand} {t depth : Nat} {ids : List NodeId} {ls ls' : List Line}
      (he : c.graph.expression id = .ok (.builtin call)) (hfunc : call.func = .list elem op)
      (hop : op = .get ∨ op = .getLast) (hname : call.func.function? call.choice = some name)
      (ht : c.numbering.serial id = .ok t) (h : Replaced c ids ls ls') :
      Replaced c (id :: ids)
        (c.callLines depth t (.bind t (.call ⟨.library name, args⟩)) ++
          ⟨depth, .ifUndefined t⟩ :: ⟨depth + 1, .assign t elem.initial⟩ :: ls)
        (c.callLines depth t (.bind t (.call ⟨.library name, args⟩)) ++
          ⟨depth, .ifUndefined t⟩ :: ⟨depth + 1, .assign t elem.initial⟩ :: ls')

namespace Replaced

variable {c : Context} {ids ids' : List NodeId} {ls ls' ms ms' : List Line}

theorem append (h : Replaced c ids ls ls') (h' : Replaced c ids' ms ms') :
    Replaced c (ids ++ ids') (ls ++ ms) (ls' ++ ms') := by
  induction h with
  | nil => exact h'
  | line hclean hcondition harithmetic _ ih => exact .line hclean hcondition harithmetic ih
  | operation he hop ht _ ih => exact .operation he hop ht ih
  | access he hfunc hop hname ht _ ih =>
      rw [List.append_assoc, List.append_assoc]
      exact .access he hfunc hop hname ht ih

theorem callLines (c : Context) (depth n : Nat) (code : Code) (hclean : code.Clean)
    (hcondition : code.isCondition = false) (harithmetic : code.isArithmetic = false) :
    Replaced c [] (c.callLines depth n code) (c.callLines depth n code) := by
  unfold Context.callLines
  split
  · refine .line (fun _ => trivial) rfl rfl (.line (fun _ => hclean) hcondition harithmetic ?_)
    exact .line (fun _ => trivial) rfl rfl .nil
  · exact .line (fun _ => hclean) hcondition harithmetic .nil

theorem clean (h : Replaced c ids ls ls') (hcomments : c.options.withComments = false) :
    (∀ l ∈ ls, l.code.Clean) ∧ ∀ l ∈ ls', l.code.Clean := by
  induction h with
  | nil => exact ⟨List.forall_mem_nil _, List.forall_mem_nil _⟩
  | line hclean _ _ _ ih =>
      have hl := hclean hcomments
      exact ⟨List.forall_mem_cons.mpr ⟨hl, ih.1⟩, List.forall_mem_cons.mpr ⟨hl, ih.2⟩⟩
  | operation _ _ _ _ ih =>
      simp only [List.forall_mem_cons]
      exact ⟨⟨trivial, ih.1⟩, trivial, trivial, trivial, ih.2⟩
  | @access _ call _ _ name args t depth _ _ _ _ _ _ hname _ _ ih =>
      have hcall : ∀ l ∈ c.callLines depth t (.bind t (.call ⟨.library name, args⟩)),
          l.code.Clean := by
        have hproper : (Code.bind t (.call ⟨.library name, args⟩)).Clean := proper_function hname
        exact Context.clean_callLines c depth t hproper
      simp only [List.forall_mem_append, List.forall_mem_cons]
      exact ⟨⟨hcall, trivial, trivial, ih.1⟩, hcall, trivial, trivial, ih.2⟩

/-- With guards the conditions are those of all nodes, in order. -/
theorem conditions_guarded (h : Replaced c ids ls ls') :
    List.Forall₂ (HasCondition c) ids (Script.conditions ls') := by
  induction h with
  | nil => exact .nil
  | line _ hcondition _ _ ih => rwa [Script.conditions_cons_of_false hcondition]
  | @operation id _ _ _ t _ _ _ _ _ _ he hop ht _ ih =>
      have hmarked : c.graph.marked NodeKind.isArithmetic id = true :=
        (Graph.marked_of_expression he _).trans hop
      rw [Script.conditions_cons_of_false rfl, Script.conditions_cons_of_true rfl,
        Script.conditions_cons_of_false rfl]
      exact .cons ⟨t, ht, by rw [hmarked, cond_true]⟩ ih
  | @access id _ _ _ _ _ t _ _ _ _ he _ _ _ ht _ ih =>
      have hmarked : c.graph.marked NodeKind.isArithmetic id = false :=
        Graph.marked_of_expression he _
      rw [Script.conditions_append, Context.conditions_callLines _ _ _ rfl, List.nil_append,
        Script.conditions_cons_of_true rfl, Script.conditions_cons_of_false rfl]
      exact .cons ⟨t, ht, by rw [hmarked, cond_false]⟩ ih

/-- Without guards the conditions are those of the accesses, in order. -/
theorem conditions_plain (h : Replaced c ids ls ls') :
    List.Forall₂ (HasCondition c) (ids.filter (c.graph.marked NodeKind.isAccess))
      (Script.conditions ls) := by
  induction h with
  | nil => exact .nil
  | line _ hcondition _ _ ih => rwa [Script.conditions_cons_of_false hcondition]
  | @operation id _ _ _ _ _ _ _ _ _ _ he _ _ _ ih =>
      have hmarked : c.graph.marked NodeKind.isAccess id = false :=
        Graph.marked_of_expression he _
      rw [List.filter_cons_of_neg (by simp [hmarked]), Script.conditions_cons_of_false rfl]
      exact ih
  | @access id call _ _ _ _ t _ _ _ _ he hfunc hop _ ht _ ih =>
      have hmarked : c.graph.marked NodeKind.isAccess id = true :=
        (Graph.marked_of_expression he _).trans (NodeKind.isAccess_of_func hfunc hop)
      have hother : c.graph.marked NodeKind.isArithmetic id = false :=
        Graph.marked_of_expression he _
      rw [List.filter_cons_of_pos hmarked, Script.conditions_append,
        Context.conditions_callLines _ _ _ rfl, List.nil_append,
        Script.conditions_cons_of_true rfl, Script.conditions_cons_of_false rfl]
      exact .cons ⟨t, ht, by rw [hother, cond_false]⟩ ih

end Replaced

namespace Context

variable {c : Context} {depth : Nat} {id : NodeId}

def guarding (c : Context) (guardsArithmetic : Bool) : Context :=
  c.under { c.options with guardsArithmetic := guardsArithmetic }

/-- The nodes whose values are replaced, and the lines that replace them. -/
def replacements (c : Context) : NodeRelation where
  marks := NodeKind.isReplaced
  operatesOrCalls := NodeKind.operatesOrCalls_of_isReplaced
  rel := Replaced c
  nil := .nil
  append := Replaced.append

theorem own_replacements {kind : NodeKind} :
    c.replacements.own id kind = bif kind.isArithmetic || kind.isAccess then [id] else [] := rfl

theorem note_eq_none_of_mem_params (hcomments : c.options.withComments = false)
    {entries : List (NodeId × Declaration)} {serials : List Nat} :
    ∀ p ∈ List.zipWith c.param entries serials, p.note = none := by
  induction entries generalizing serials with
  | nil => exact List.forall_mem_nil _
  | cons entry entries ih =>
      cases serials with
      | nil => exact List.forall_mem_nil _
      | cons n serials =>
          exact List.forall_mem_cons.mpr ⟨note_eq_none hcomments entry.2.name, ih⟩

theorem suits_replacements :
    Suits c.replacements (c.guarding false) { c.options with guardsArithmetic := true } where
  isDebug := id
  uniform l hl := .line (fun _ => hl.clean) hl.isCondition hl.isArithmetic .nil
  declaration depth n initial name :=
    .line (fun hcomments => note_eq_none hcomments name) rfl rfl .nil
  function depth n entries serials name := by
    have hclean (hcomments : c.options.withComments = false) :
        (Code.openFunction n (List.zipWith c.param entries serials) (c.note name)).Clean :=
      ⟨note_eq_none_of_mem_params hcomments, note_eq_none hcomments name⟩
    exact .line hclean rfl rfl .nil
  operation {id t op left right} depth a b he ht := by
    have hplain : (c.guarding false).operationLines depth t op a b =
        [⟨depth, .bind t (.binary op a b)⟩] := by
      simp [operationLines, guarding, under]
    have hguarded : (c.guarding true).operationLines depth t op a b =
        ⟨depth, .bind t (.binary op a b)⟩ :: if op.isArithmetic then
          [⟨depth, .ifNotFinite t⟩, ⟨depth + 1, .assign t a⟩] else [] := by
      simp [operationLines, guarding, under]
    show Replaced c _ _ ((c.guarding true).operationLines depth t op a b)
    rw [hplain, hguarded, own_replacements]
    show Replaced c (bif op.isArithmetic || false then [id] else []) _ _
    cases hop : op.isArithmetic with
    | true => exact .operation he hop ht .nil
    | false => exact .line (fun _ => trivial) rfl hop .nil
  builtin depth args _ _ hname _ :=
    Replaced.callLines c depth _ (.perform _) (proper_function hname) rfl rfl
  builtinValue {id call name t} depth args he hname ht := by
    have hcalls := Replaced.callLines c depth t (.bind t (.call ⟨.library name, args⟩))
      (proper_function hname) rfl rfl
    rw [own_replacements]
    show Replaced c (bif false || (NodeKind.expression (.builtin call)).isAccess then [id] else [])
      _ _
    rcases NodeKind.isAccess_builtin call with ⟨haccess, hnone⟩ | ⟨elem, op, hfunc, hop, hsome⟩
    · rw [haccess]
      simp only [substituteLines, hnone, List.append_nil]
      exact hcalls
    · rw [NodeKind.isAccess_of_func hfunc hop]
      simp only [substituteLines, hsome]
      exact .access he hfunc hop hname ht .nil
  user depth args _ _ _ := Replaced.callLines c depth _ (.perform _) trivial rfl rfl
  userValue depth args _ _ := Replaced.callLines c depth _ (.bind _ (.call _)) trivial rfl rfl

/-- Guards decide neither whether code can be generated nor its value. -/
theorem result_guarding {α : Type} {x : Context → Emission α} {ls : List Line} {a : α}
    (hparallel : ∀ {R : LineRelation} {c : Context} {o : Options}, Varies R c o →
      Parallel R (x c) (x (c.under o)))
    (hgives : Gives (x c) ls a) (guardsArithmetic : Bool) :
    (x (c.guarding guardsArithmetic)).result = .ok a := by
  have hvaries : Varies .any (c.guarding guardsArithmetic) c.options := varies_any id
  rcases hparallel hvaries with ⟨id, hmissing⟩ | hmatches
  · exact absurd (hmissing.symm.trans hgives.1) nofun
  · exact hmatches.result.symm.trans hgives.1

end Context

/-- Lines of some nodes, in turn, without guards of their arithmetic and with them. -/
structure DifferInGuards (c : Context) (turn : List NodeId) (plain guarded : List Line) :
    Prop where
  replaced : Replaced c (turn.filter (c.graph.marked NodeKind.isReplaced)) plain guarded
  /-- Without guards only accesses have conditions without braces. -/
  plainConditions : List.Forall₂ (HasCondition c)
    (turn.filter (c.graph.marked NodeKind.isAccess)) (Script.conditions plain)
  /-- With them arithmetic operations have, too. -/
  guardedConditions : List.Forall₂ (HasCondition c)
    (turn.filter (c.graph.marked NodeKind.isReplaced)) (Script.conditions guarded)
  /-- If names are not shown, each line is one line of the text. -/
  text : c.options.withComments = false → ∀ ls ∈ [plain, guarded],
    (Script.render ls).toList.splitOnP isLineEnd = ls.map Line.text ++ [[]]
  /-- Then the text shows which lines are conditions without braces. -/
  conditions : c.options.withComments = false → ∀ ls ∈ [plain, guarded], ∀ l ∈ ls,
    Script.guards l.text = l.code.isCondition

theorem Replaced.differInGuards {c : Context} {turn : List NodeId} {plain guarded : List Line}
    (h : Replaced c (turn.filter (c.graph.marked NodeKind.isReplaced)) plain guarded) :
    DifferInGuards c turn plain guarded := by
  refine ⟨h, ?_, h.conditions_guarded, fun hcomments => ?_, fun hcomments => ?_⟩
  · have hconditions := h.conditions_plain
    rw [List.filter_filter] at hconditions
    have haccess : ∀ id, (c.graph.marked NodeKind.isAccess id &&
        c.graph.marked NodeKind.isReplaced id) = c.graph.marked NodeKind.isAccess id := by
      intro id
      unfold Graph.marked
      cases c.graph.node? id with
      | none => rfl
      | some n =>
          simp only [Option.any_some, NodeKind.isReplaced]
          cases n.kind.isAccess <;> simp
    simpa only [haccess] using hconditions
  · obtain ⟨hplain, hguarded⟩ := h.clean hcomments
    simp only [List.forall_mem_cons]
    exact ⟨Script.splitOnP_render hplain, Script.splitOnP_render hguarded, List.forall_mem_nil _⟩
  · obtain ⟨hplain, hguarded⟩ := h.clean hcomments
    simp only [List.forall_mem_cons]
    exact ⟨fun l hl => Script.guards_text_eq (hplain l hl),
      fun l hl => Script.guards_text_eq (hguarded l hl), List.forall_mem_nil _⟩

namespace Context

variable {c : Context} {depth : Nat} {id : NodeId}

/-- What is generated from a node is generated without guards and with them, and differs in these
alone. -/
theorem exists_differInGuards {α : Type} {x : Context → Emission α} {ls : List Line} {a : α}
    (hparallel : ∀ {R : LineRelation} {c : Context} {o : Options}, Varies R c o →
      Parallel R (x c) (x (c.under o)))
    (htraces : Traces c.replacements c.graph [id] [] (x (c.guarding false)) (x (c.guarding true)))
    (hgives : Gives (x c) ls a) :
    ∃ turn plain guarded, c.graph.InTurn [id] turn ∧ Gives (x (c.guarding false)) plain a ∧
      Gives (x (c.guarding true)) guarded a ∧ DifferInGuards c turn plain guarded := by
  have hguarded : Gives (x (c.guarding true)) (x (c.guarding true)).output.lines a :=
    ⟨result_guarding hparallel hgives true, rfl⟩
  obtain ⟨plain, turn, hplain, hturn, hreplaced⟩ := htraces _ a hguarded
  rw [List.append_nil] at hreplaced
  exact ⟨turn, plain, _, hturn, hplain, hguarded, Replaced.differInGuards hreplaced⟩

/-- An expression or a chain of statements that is generated is generated without guards of its
arithmetic and with them, with the same value.  In the lines with guards, two more stand behind that
of each arithmetic operation, which put its left operand in the place of a result that is no finite
number.  Only the lines that replace a missing entry of a list have a condition without braces
otherwise, for each access one.  If names are not shown, the lines are those of the text. -/
theorem guarded_of_gives (c : Context) :
    (∀ depth id ls a, Gives (c.operand depth id) ls a →
      ∃ turn plain guarded, c.graph.InTurn [id] turn ∧
        Gives ((c.guarding false).operand depth id) plain a ∧
        Gives ((c.guarding true).operand depth id) guarded a ∧
        DifferInGuards c turn plain guarded) ∧
    ∀ depth head ls u, Gives (c.statements depth head) ls u →
      ∃ turn plain guarded, c.graph.InTurn [head] turn ∧
        Gives ((c.guarding false).statements depth head) plain u ∧
        Gives ((c.guarding true).statements depth head) guarded u ∧
        DifferInGuards c turn plain guarded := by
  have hsuits := suits_replacements (c := c)
  constructor
  · intro depth id ls a hgives
    exact exists_differInGuards (x := fun c => c.operand depth id)
      (fun hvaries => parallel_operand hvaries depth id) (traces_operand hsuits depth id) hgives
  · intro depth head ls u hgives
    exact exists_differInGuards (x := fun c => c.statements depth head)
      (fun hvaries => parallel_statements hvaries depth head) (traces_statements hsuits depth head)
      hgives

/-- Returns the remainder of a sum by the length of a list.  The left operand of the sum is the last
entry of a list, and its right operand the length of a list. -/
def remainderOfSum : Graph :=
  ⟨#[.ofKind (.expression (.literal (.emptyList .number))),
    .ofKind (.expression (.builtin ⟨.list .number .getLast, none, [⟨0⟩]⟩)),
    .ofKind (.expression (.literal (.emptyList .text))),
    .ofKind (.expression (.builtin ⟨.list .text .length, none, [⟨2⟩]⟩)),
    .ofKind (.expression (.binary (.arith .add) ⟨1⟩ ⟨3⟩)),
    .ofKind (.expression (.literal (.emptyList .text))),
    .ofKind (.expression (.builtin ⟨.list .text .length, none, [⟨5⟩]⟩)),
    .ofKind (.expression (.binary .remainder ⟨4⟩ ⟨6⟩)),
    .ofKind (.statement ⟨.returnValue (some ⟨7⟩), ⟨9⟩⟩),
    .ofKind .statementEnd]⟩

def recordedRemainder : Context where
  graph := remainderOfSum
  numbering := Numbering.ofList remainderOfSum
    [⟨8⟩, ⟨7⟩, ⟨4⟩, ⟨1⟩, ⟨0⟩, ⟨3⟩, ⟨2⟩, ⟨6⟩, ⟨5⟩, ⟨9⟩]
  options := { Options.standard with isDebug := true }

/-- The sum and the remainder have a guard each, and the missing entry is replaced once, after the
record of the end of the call. -/
theorem guarded_recordedRemainder :
    Numbering.ofProgram remainderOfSum ⟨8⟩ [] = .ok recordedRemainder.numbering ∧
      recordedRemainder.options.withComments = false ∧ ∃ ls turn plain guarded,
        Gives (recordedRemainder.statements 1 ⟨8⟩) ls () ∧ remainderOfSum.InTurn [⟨8⟩] turn ∧
        DifferInGuards recordedRemainder turn plain guarded ∧
        guarded =
          [⟨1, .enterCall 4⟩, ⟨1, .bind 4 (.call ⟨.library "_aryGetLast", [.emptyList]⟩)⟩,
            ⟨1, .leaveCall⟩, ⟨1, .ifUndefined 4⟩, ⟨2, .assign 4 .zero⟩,
            ⟨1, .enterCall 6⟩, ⟨1, .bind 6 (.call ⟨.library "_aryLength", [.emptyList]⟩)⟩,
            ⟨1, .leaveCall⟩,
            ⟨1, .bind 3 (.binary (.arith .add) (.name (.var 4)) (.name (.var 6)))⟩,
            ⟨1, .ifNotFinite 3⟩, ⟨2, .assign 3 (.name (.var 4))⟩,
            ⟨1, .enterCall 8⟩, ⟨1, .bind 8 (.call ⟨.library "_aryLength", [.emptyList]⟩)⟩,
            ⟨1, .leaveCall⟩,
            ⟨1, .bind 2 (.binary .remainder (.name (.var 3)) (.name (.var 8)))⟩,
            ⟨1, .ifNotFinite 2⟩, ⟨2, .assign 2 (.name (.var 3))⟩,
            ⟨1, .returnValue (some (.name (.var 2)))⟩] := by
  have hgives : Gives (recordedRemainder.statements 1 ⟨8⟩) _ () := ⟨rfl, rfl⟩
  obtain ⟨turn, plain, guarded, hturn, _, ⟨_, hlines⟩, hdiffer⟩ :=
    (guarded_of_gives recordedRemainder).2 1 ⟨8⟩ _ () hgives
  exact ⟨rfl, rfl, _, turn, plain, guarded, hgives, hturn, hdiffer, hlines.symm.trans rfl⟩

end Context

end Emission

end BlockScript
