import BlockScript.Proofs.Emission.Traces
import BlockScript.Proofs.Script.CallRecords
/-!
# Records of calls

`Recorded g ns calls ls ls'`: the lines `ls'` are the lines `ls` with the line of each of the calls
between the records of its beginning and end.  `Traced` compares an emission without records with
the one that has them: the calls are those of the trees of some nodes, in turn.  The records of
calls are among what options change in the code of a node (`suits_records`), so whatever is
generated with records is generated without them and is `Traced`.
-/

namespace BlockScript.Emission

open Script (Line Code Call Operand Paired)

variable {α : Type}

/-- The line performs the call at a node: of a library function by its name or of a user's function
by its number, and for the value of the call binds the temporary of the node. -/
inductive Performs (g : Graph) (ns : Numbering) (id : NodeId) : Code → Prop where
  | builtin {s : Statement} {call : BuiltinCall} {name : String} {args : List Operand}
      (hs : g.statement id = .ok (some s)) (hkind : s.kind = .builtin call)
      (hname : call.func.function? call.choice = some name) :
      Performs g ns id (.perform ⟨.library name, args⟩)
  | builtinValue {call : BuiltinCall} {name : String} {args : List Operand} {t : Nat}
      (he : g.expression id = .ok (.builtin call)) (ht : ns.serial id = .ok t)
      (hname : call.func.function? call.choice = some name) :
      Performs g ns id (.bind t (.call ⟨.library name, args⟩))
  | user {s : Statement} {head : NodeId} {args : List Operand} {n : Nat}
      (hs : g.statement id = .ok (some s)) (hkind : s.kind = .call head)
      (hn : ns.serial id = .ok n) : Performs g ns id (.perform ⟨.user n, args⟩)
  | userValue {head : NodeId} {args : List Operand} {n : Nat}
      (he : g.expression id = .ok (.call head)) (hn : ns.serial id = .ok n) :
      Performs g ns id (.bind n (.call ⟨.user n, args⟩))

theorem Performs.performsCall {g : Graph} {ns : Numbering} {id : NodeId} {code : Code}
    (h : Performs g ns id code) : code.performsCall = true := by
  cases h <;> rfl

/-- The second lines are the first with the line of each call, in order, between the records of its
beginning and end. -/
inductive Recorded (g : Graph) (ns : Numbering) :
    List NodeId → List Line → List Line → Prop where
  | nil : Recorded g ns [] [] []
  | line {l : Line} {calls : List NodeId} {ls ls' : List Line} (hl : l.code.isRecord = false)
      (h : Recorded g ns calls ls ls') : Recorded g ns calls (l :: ls) (l :: ls')
  | call {id : NodeId} {n depth : Nat} {code : Code} {calls : List NodeId} {ls ls' : List Line}
      (hn : ns.serial id = .ok n) (hcode : Performs g ns id code)
      (h : Recorded g ns calls ls ls') :
      Recorded g ns (id :: calls) (⟨depth, code⟩ :: ls)
        (⟨depth, .enterCall n⟩ :: ⟨depth, code⟩ :: ⟨depth, .leaveCall⟩ :: ls')

namespace Recorded

variable {g : Graph} {ns : Numbering} {calls calls' : List NodeId} {ls ls' ms ms' : List Line}

theorem append (h : Recorded g ns calls ls ls') (h' : Recorded g ns calls' ms ms') :
    Recorded g ns (calls ++ calls') (ls ++ ms) (ls' ++ ms') := by
  induction h with
  | nil => exact h'
  | line hl _ ih => exact .line hl ih
  | call hn hcode _ ih => exact .call hn hcode ih

theorem filter_eq (h : Recorded g ns calls ls ls') :
    ls'.filter (fun l => !l.code.isRecord) = ls := by
  induction h with
  | nil => rfl
  | line hl _ ih => rw [List.filter_cons_of_pos (by simp [hl]), ih]
  | call _ hcode _ ih =>
      have hrecord := Code.isRecord_of_performsCall hcode.performsCall
      rw [List.filter_cons_of_neg (by simp [Code.isRecord]),
        List.filter_cons_of_pos (by simp [hrecord]),
        List.filter_cons_of_neg (by simp [Code.isRecord]), ih]

/-- The records are, for each call in order, that of its beginning and that of its end. -/
theorem records_eq (h : Recorded g ns calls ls ls') :
    ∃ serials, List.Forall₂ (fun id n => ns.serial id = .ok n) calls serials ∧
      (ls'.map Line.code).filter Code.isRecord =
        serials.flatMap fun n => [.enterCall n, .leaveCall] := by
  induction h with
  | nil => exact ⟨[], .nil, rfl⟩
  | line hl _ ih =>
      obtain ⟨serials, hserials, heq⟩ := ih
      refine ⟨serials, hserials, ?_⟩
      rw [List.map_cons, List.filter_cons_of_neg (by simp [hl]), heq]
  | @call id n depth code _ _ _ hn hcode _ ih =>
      obtain ⟨serials, hserials, heq⟩ := ih
      have hrecord := Code.isRecord_of_performsCall hcode.performsCall
      refine ⟨n :: serials, .cons hn hserials, ?_⟩
      rw [List.map_cons, List.map_cons, List.map_cons, List.filter_cons_of_pos rfl,
        List.filter_cons_of_neg (by simp [hrecord]), List.filter_cons_of_pos rfl, heq]
      rfl

theorem paired (h : Recorded g ns calls ls ls') : Paired ls' := by
  induction h with
  | nil => exact .nil
  | line hl _ ih => exact ih.line hl
  | call _ hcode _ ih => exact ih.call hcode.performsCall

end Recorded

/-- What the second emission gives the first gives without records.  The calls are those among the
nodes met from `ids`, in turn, and then `own`. -/
def Traced (g : Graph) (ns : Numbering) (ids own : List NodeId) (x y : Emission α) : Prop :=
  ∀ ls' a, Gives y ls' a → ∃ ls turn, Gives x ls a ∧ g.InTurn ids turn ∧
    Recorded g ns (turn.filter g.performsCall ++ own) ls ls'

theorem isRecord_of_uniform {code : Code} (h : code.Uniform) : code.isRecord = false := by
  cases code with
  | enterCall _ | leaveCall => exact h.elim
  | _ => rfl

namespace Context

variable {c : Context} {id : NodeId} {ids own : List NodeId} {x y : Emission α}

def recording (c : Context) (isDebug : Bool) : Context :=
  c.under { c.options with isDebug := isDebug }

theorem operatesOrCalls_of_performsCall (kind : NodeKind) (h : kind.performsCall = true) :
    kind.operatesOrCalls = true := by
  unfold NodeKind.operatesOrCalls
  split
  · rfl
  · exact h

def records (c : Context) : NodeRelation where
  marks := NodeKind.performsCall
  operatesOrCalls := operatesOrCalls_of_performsCall
  rel := Recorded c.graph c.numbering
  nil := .nil
  append := Recorded.append

theorem own_records {kind : NodeKind} (h : kind.performsCall = true) :
    c.records.own id kind = [id] := by
  show (bif kind.performsCall then [id] else []) = [id]
  rw [h, cond_true]

theorem recorded_callLines (depth : Nat) {n : Nat} {code : Code}
    (hn : c.numbering.serial id = .ok n) (hcode : Performs c.graph c.numbering id code) :
    Recorded c.graph c.numbering [id] ((c.recording false).callLines depth n code)
      ((c.recording true).callLines depth n code) :=
  .call hn hcode .nil

theorem recorded_substituteLines (c : Context) (depth : Nat) (call : BuiltinCall)
    (target : Option Nat) :
    Recorded c.graph c.numbering [] (substituteLines depth call target)
      (substituteLines depth call target) := by
  unfold substituteLines
  split
  · exact .line rfl (.line rfl .nil)
  · exact .nil

theorem recorded_operationLines (depth t : Nat) (op : BinaryOp) (a b : Operand) :
    Recorded c.graph c.numbering [] ((c.recording false).operationLines depth t op a b)
      ((c.recording true).operationLines depth t op a b) := by
  show Recorded _ _ [] (c.operationLines depth t op a b) (c.operationLines depth t op a b)
  unfold operationLines
  split
  · exact .line rfl (.line rfl (.line rfl .nil))
  · exact .line rfl .nil

theorem suits_records (c : Context) :
    Suits c.records (c.recording false) { c.options with isDebug := true } where
  isDebug _ := rfl
  uniform l hl := .line (isRecord_of_uniform hl) .nil
  declaration _ _ _ _ := .line rfl .nil
  function _ _ _ _ _ := .line rfl .nil
  operation depth a b _ _ := recorded_operationLines depth _ _ a b
  builtin {_ s call _ _} depth args hs hkind hname hn := by
    have hcall : (NodeKind.statement s).performsCall = true := by
      rw [NodeKind.performsCall, hkind]
      rfl
    rw [own_records hcall]
    exact recorded_callLines (c := c) depth (hn rfl) (.builtin hs hkind hname)
  builtinValue depth args he hname ht :=
    (recorded_callLines (c := c) depth ht (.builtinValue he ht hname)).append
      (recorded_substituteLines c depth _ _)
  user {_ s _ _} depth args hs hkind hn := by
    have hcall : (NodeKind.statement s).performsCall = true := by
      rw [NodeKind.performsCall, hkind]
      rfl
    rw [own_records hcall]
    exact recorded_callLines (c := c) depth hn (.user hs hkind hn)
  userValue depth args he hn := recorded_callLines (c := c) depth hn (.userValue he hn)

theorem traced_of_traces (h : Traces c.records c.graph ids own x y) :
    Traced c.graph c.numbering ids own x y := h

end Context

end BlockScript.Emission
