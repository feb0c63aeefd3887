import BlockScript.Script.Line
import BlockScript.Proofs.Script.Names
import Mathlib.Tactic.SplitIfs
/-!
# Zones of a script

Reading a script needs to tell code from single-quoted literals and block comments: `zones` says for
each character which of the three it belongs to.  A text that opens no more than it closes is
`Closed`, whatever follows it.  Two such texts that differ only inside literals are `Alike`: with
all literals empty they are the same text, and they have the same line ends and identifiers.
-/

namespace BlockScript.Script

open Text.Quoted (isLineEnd)

/-- What a character belongs to.  The quotes of a literal belong to the code around it, the signs
that open and close a comment to the comment. -/
inductive Zone where
  | code
  | literal
  | comment
deriving DecidableEq, Repr

/-- The characters of a text with what they belong to, where the text starts inside a zone.  In a
literal a backslash takes the next character with it. -/
def zones : Zone → List Char → List (Zone × Char)
  | _, [] => []
  | .code, '\'' :: r => (.code, '\'') :: zones .literal r
  | .code, '/' :: '*' :: r => (.comment, '/') :: (.comment, '*') :: zones .comment r
  | .code, c :: r => (.code, c) :: zones .code r
  | .literal, '\'' :: r => (.code, '\'') :: zones .code r
  | .literal, '\\' :: c :: r => (.literal, '\\') :: (.literal, c) :: zones .literal r
  | .literal, c :: r => (.literal, c) :: zones .literal r
  | .comment, '*' :: '/' :: r => (.comment, '*') :: (.comment, '/') :: zones .code r
  | .comment, c :: r => (.comment, c) :: zones .comment r

/-- The text outside of literals, with what it belongs to. -/
def outsideLiterals (s : List Char) : List (Zone × Char) :=
  (zones .code s).filter fun x => x.1 ≠ .literal

def emptyLiterals (s : List Char) : List Char :=
  (outsideLiterals s).map Prod.snd

def codeOnly (s : List Char) : List Char :=
  ((zones .code s).filter fun x => x.1 = .code).map Prod.snd

/-- The words of the code that start with no digit. -/
def identifiers (s : List Char) : List (List Char) :=
  (wordsOf (codeOnly s)).filter fun w => w.head?.any fun c => !c.isDigit

def lineEnds (s : List Char) : List Char :=
  s.filter isLineEnd

theorem map_snd_zones (z : Zone) (s : List Char) : (zones z s).map Prod.snd = s := by
  fun_induction zones z s <;> simp_all

/-! ## Texts that close what they open -/

/-- The text closes its literals and comments, whatever follows, and no literal goes over lines. -/
structure Closed (s : List Char) : Prop where
  zones_append : ∀ rest, zones .code (s ++ rest) = zones .code s ++ zones .code rest
  lineEnd : ∀ x ∈ zones .code s, x.1 = .literal → isLineEnd x.2 = false

namespace Closed

variable {s t : List Char}

theorem of_zones {q : List (Zone × Char)}
    (h : ∀ rest, zones .code (s ++ rest) = q ++ zones .code rest)
    (hlineEnd : ∀ x ∈ q, x.1 = .literal → isLineEnd x.2 = false) :
    Closed s ∧ zones .code s = q := by
  have hq : zones .code s = q := by
    have hnil := h []
    simpa [zones] using hnil
  rw [← hq] at h hlineEnd
  exact ⟨⟨h, hlineEnd⟩, hq⟩

theorem append (hs : Closed s) (ht : Closed t) : Closed (s ++ t) := by
  refine (of_zones (q := zones .code s ++ zones .code t) (fun rest => ?_) fun x hx => ?_).1
  · rw [List.append_assoc, hs.zones_append, ht.zones_append, List.append_assoc]
  · rcases List.mem_append.mp hx with hx | hx
    · exact hs.lineEnd x hx
    · exact ht.lineEnd x hx

/-- Literals end no lines, so all line ends stand outside of them. -/
theorem lineEnds_eq (h : Closed s) :
    lineEnds s = ((outsideLiterals s).filter fun x => isLineEnd x.2).map Prod.snd := by
  have hends : lineEnds s = ((zones .code s).filter fun x => isLineEnd x.2).map Prod.snd := by
    rw [lineEnds, ← map_snd_zones .code s, List.filter_map, map_snd_zones]
    rfl
  rw [hends, outsideLiterals, List.filter_filter]
  congr 1
  apply List.filter_congr
  intro x hx
  by_cases hzone : x.1 = .literal
  · simp [hzone, h.lineEnd x hx hzone]
  · simp [hzone]

end Closed

theorem codeOnly_eq (s : List Char) :
    codeOnly s = ((outsideLiterals s).filter fun x => x.1 = .code).map Prod.snd := by
  unfold codeOnly outsideLiterals
  rw [List.filter_filter]
  congr 1
  apply List.filter_congr
  rintro ⟨zone, c⟩ _
  cases zone <;> rfl

theorem outsideLiterals_append {s : List Char} (h : Closed s) (t : List Char) :
    outsideLiterals (s ++ t) = outsideLiterals s ++ outsideLiterals t := by
  unfold outsideLiterals
  rw [h.zones_append, List.filter_append]

/-- Two closed texts that are the same outside of literals. -/
structure Alike (s t : List Char) : Prop where
  left : Closed s
  right : Closed t
  outside : outsideLiterals s = outsideLiterals t

namespace Alike

variable {s t : List Char}

theorem refl (h : Closed s) : Alike s s := ⟨h, h, rfl⟩

theorem symm (h : Alike s t) : Alike t s := ⟨h.right, h.left, h.outside.symm⟩

theorem trans {u : List Char} (h : Alike s t) (h' : Alike t u) : Alike s u :=
  ⟨h.left, h'.right, h.outside.trans h'.outside⟩

theorem append {s' t' : List Char} (h : Alike s t) (h' : Alike s' t') :
    Alike (s ++ s') (t ++ t') := by
  refine ⟨h.left.append h'.left, h.right.append h'.right, ?_⟩
  rw [outsideLiterals_append h.left, outsideLiterals_append h.right, h.outside, h'.outside]

theorem emptyLiterals_eq (h : Alike s t) : emptyLiterals s = emptyLiterals t := by
  rw [emptyLiterals, emptyLiterals, h.outside]

theorem lineEnds_eq (h : Alike s t) : lineEnds s = lineEnds t := by
  rw [h.left.lineEnds_eq, h.right.lineEnds_eq, h.outside]

theorem identifiers_eq (h : Alike s t) : identifiers s = identifiers t := by
  rw [identifiers, identifiers, codeOnly_eq, codeOnly_eq, h.outside]

end Alike

/-- An escaped quote and the sign for a comment inside a literal, and a quote inside a comment. -/
example : emptyLiterals "f('\\'/*', 1); /* it's */".toList = "f('', 1); /* it's */".toList := by
  decide

/-! ## Pieces of a script -/

/-- A text without quotes and slashes holds no literal and no comment. -/
def Quiet (s : List Char) : Prop :=
  ∀ c ∈ s, c ≠ '\'' ∧ c ≠ '/'

instance (s : List Char) : Decidable (Quiet s) :=
  List.decidableBAll _ s

theorem zones_cons_code {c : Char} {r : List Char} (hquote : c ≠ '\'')
    (hopen : ∀ rest, c :: r ≠ '/' :: '*' :: rest) :
    zones .code (c :: r) = (.code, c) :: zones .code r := by
  rw [zones]
  · exact hquote
  · rintro rest rfl rfl
    exact hopen rest rfl

theorem Quiet.closed {s : List Char} (h : Quiet s) : Closed s := by
  refine (Closed.of_zones (q := s.map fun c => (.code, c)) (fun rest => ?_) fun x hx => ?_).1
  · induction s with
    | nil => rfl
    | cons c s ih =>
        obtain ⟨hc, hs⟩ := List.forall_mem_cons.mp h
        have hopen : ∀ r, c :: (s ++ rest) ≠ '/' :: '*' :: r := fun r heq =>
          hc.2 (List.cons.inj heq).1
        rw [List.cons_append, zones_cons_code hc.1 hopen, ih hs]
        rfl
  · obtain ⟨c, _, rfl⟩ := List.mem_map.mp hx
    rintro ⟨⟩

/-- A division sign, which no star follows. -/
theorem closed_division : Closed [' ', '/', ' '] := by
  refine (Closed.of_zones (q := [(.code, ' '), (.code, '/'), (.code, ' ')]) (fun rest => ?_) ?_).1
  · simp [zones]
  · simp

/-! ## Literals -/

theorem zones_cons_literal {c : Char} {r : List Char} (hquote : c ≠ '\'') (hescape : c ≠ '\\') :
    zones .literal (c :: r) = (.literal, c) :: zones .literal r := by
  rw [zones]
  · exact hquote
  · rintro x rest rfl
    exact absurd rfl hescape

theorem zones_escape (c : Char) (r : List Char) :
    zones .literal (Text.Quoted.escape c ++ r) =
      (Text.Quoted.escape c).map (fun x => (.literal, x)) ++ zones .literal r := by
  unfold Text.Quoted.escape
  split_ifs with hescape hquote
  all_goals try simp [zones]
  exact zones_cons_literal hquote hescape

theorem zones_escapeAll (s r : List Char) :
    zones .literal (Text.Quoted.escapeAll s ++ '\'' :: r) =
      (Text.Quoted.escapeAll s).map (fun x => (.literal, x)) ++ (.code, '\'') :: zones .code r := by
  induction s with
  | nil => simp [Text.Quoted.escapeAll, zones]
  | cons c s ih =>
      rw [Text.Quoted.escapeAll, List.append_assoc, zones_escape, ih, List.map_append,
        List.append_assoc]

theorem isLineEnd_of_mem_escape {c x : Char} (hx : x ∈ Text.Quoted.escape c) :
    isLineEnd x = false := by
  have hall : (Text.Quoted.escape c).all (!isLineEnd ·) = true := by
    unfold Text.Quoted.escape
    split_ifs
    all_goals try rfl
    simp_all [isLineEnd]
  simpa using List.all_eq_true.mp hall x hx

theorem isLineEnd_of_mem_escapeAll {s : List Char} {x : Char} (hx : x ∈ Text.Quoted.escapeAll s) :
    isLineEnd x = false := by
  induction s with
  | nil => cases hx
  | cons c s ih =>
      rcases List.mem_append.mp hx with hx | hx
      · exact isLineEnd_of_mem_escape hx
      · exact ih hx

/-- The literal of a text is closed, and all of the text is inside of it. -/
theorem closed_encode (s : List Char) :
    Closed (Text.Quoted.encode s) ∧
      outsideLiterals (Text.Quoted.encode s) = [(.code, '\''), (.code, '\'')] := by
  obtain ⟨hclosed, hzones⟩ := Closed.of_zones (s := Text.Quoted.encode s)
    (q := (.code, '\'') :: ((Text.Quoted.escapeAll s).map (fun x => (.literal, x)) ++
      [(.code, '\'')])) (fun rest => by
        simp [Text.Quoted.encode, zones, zones_escapeAll]) (fun x hx hliteral => by
        simp only [List.mem_cons, List.mem_append, List.mem_map, List.not_mem_nil,
          or_false] at hx
        rcases hx with rfl | ⟨c, hc, rfl⟩ | rfl
        · cases hliteral
        · exact isLineEnd_of_mem_escapeAll hc
        · cases hliteral)
  refine ⟨hclosed, ?_⟩
  rw [outsideLiterals, hzones]
  simp

/-! ## Comments -/

theorem zones_cons_comment {c : Char} {r : List Char} (h : ∀ rest, c :: r ≠ '*' :: '/' :: rest) :
    zones .comment (c :: r) = (.comment, c) :: zones .comment r := by
  rw [zones]
  rintro rest rfl rfl
  exact h rest rfl

/-- Breaking ends keeps a slash from coming first. -/
theorem breakEnds_ne_slash {s : List Char} (h : ∀ r, s ≠ '/' :: r) (t r : List Char) :
    Text.Comment.breakEnds s ++ '*' :: t ≠ '/' :: r := by
  cases s with
  | nil => simp [Text.Comment.breakEnds]
  | cons c s =>
      intro heq
      have hhead : (Text.Comment.breakEnds (c :: s)).head? = some c := by
        unfold Text.Comment.breakEnds
        split <;> simp_all
      cases hb : Text.Comment.breakEnds (c :: s) with
      | nil => simp [hb] at hhead
      | cons x l =>
          rw [hb] at hhead heq
          obtain rfl := Option.some.inj hhead
          exact h s (by rw [(List.cons.inj heq).1])

theorem zones_breakEnds (s r : List Char) :
    zones .comment (Text.Comment.breakEnds s ++ '*' :: '/' :: r) =
      (Text.Comment.breakEnds s ++ ['*', '/']).map (fun x => (.comment, x)) ++ zones .code r := by
  fun_induction Text.Comment.breakEnds s with
  | case1 s ih =>
      simp only [List.cons_append]
      rw [zones_cons_comment (by simp), zones_cons_comment (by simp),
        zones_cons_comment (by simp), ih]
      simp
  | case2 c s hnot ih =>
      rw [List.cons_append, zones_cons_comment, ih]
      · rfl
      · intro rest heq
        obtain ⟨hstar, hrest⟩ := List.cons.inj heq
        exact breakEnds_ne_slash (fun r hr => hnot r hstar hr) _ _ hrest
  | case3 => simp [zones]

theorem closed_comment (s : List Char) : Closed (Text.Comment.encode s) := by
  refine (Closed.of_zones (q := (Text.Comment.encode s).map fun x => (.comment, x))
    (fun rest => ?_) fun x hx hliteral => ?_).1
  · simp [Text.Comment.encode, zones, zones_breakEnds]
  · obtain ⟨c, _, rfl⟩ := List.mem_map.mp hx
    cases hliteral

end BlockScript.Script
