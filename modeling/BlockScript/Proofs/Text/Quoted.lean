import BlockScript.Proofs.Script.Zones
import Mathlib.Data.List.Basic
/-!
# Literals are read as they were written

`Reads s v r`: the text `s` starts with a single-quoted literal, whose value has the code units `v`,
and `r` follows it.  The rules are those of the script language, with all of its escapes; a text
starts with one literal at most (`Reads.unique`).  The reader `decode` keeps to the rules
(`reads_of_decode`) and gives back what `encode` wrote, whatever follows (`decode_encode`).  So no
text ends its literal early, and none is lost (`quote_reads_back`).
-/

namespace BlockScript.Text.Quoted

/-! ## The rules for literals -/

/-- The code units of a code point: one, or a pair of surrogates. -/
def units (n : Nat) : List Nat :=
  if n < 0x10000 then [n] else [0xd800 + (n - 0x10000) / 0x400, 0xdc00 + (n - 0x10000) % 0x400]

def unitsOf (s : List Char) : List Nat :=
  s.flatMap fun c => units c.toNat

def hexNumber? (ds : List Char) : Option Nat :=
  ds.foldlM (fun n d => (hexDigit? d).map (16 * n + ·)) 0

/-- What stands behind a backslash, the code units that it gives, and what follows it. -/
inductive Escapes : List Char → List Nat → List Char → Prop where
  /-- A named control character, or a character that stands for itself. -/
  | character {c : Char} {r : List Char} (hu : c ≠ 'u') (hx : c ≠ 'x')
      (hdigit : c.isDigit = false) (hend : isLineEnd c = false) :
      Escapes (c :: r) (units (named c).toNat) r
  | zero {r : List Char} (hnext : ∀ c ∈ r.head?, c.isDigit = false) : Escapes ('0' :: r) [0] r
  | byte {a b : Char} {m n : Nat} {r : List Char} (ha : hexDigit? a = some m)
      (hb : hexDigit? b = some n) : Escapes ('x' :: a :: b :: r) [16 * m + n] r
  | unit {a b c d : Char} {n : Nat} {r : List Char} (h : hexUnit? a b c d = some n) :
      Escapes ('u' :: a :: b :: c :: d :: r) [n] r
  | codePoint {s ds r : List Char} {n : Nat} (hs : s = ds ++ '\x7d' :: r) (hds : ds ≠ [])
      (hn : hexNumber? ds = some n) (hle : n ≤ 0x10ffff) :
      Escapes ('u' :: '\x7b' :: s) (units n) r
  /-- The literal goes on in the next line. -/
  | lineEnd {c : Char} {r : List Char} (hend : isLineEnd c = true)
      (hpair : c = '\r' → r.head? ≠ some '\n') : Escapes (c :: r) [] r
  | lineEndPair {r : List Char} : Escapes ('\r' :: '\n' :: r) [] r

/-- What stands behind the quote that opens a literal, the code units of the literal's value, and
what follows the quote that closes it. -/
inductive ReadsBody : List Char → List Nat → List Char → Prop where
  | close {r : List Char} : ReadsBody ('\'' :: r) [] r
  | plain {c : Char} {s r : List Char} {v : List Nat} (hquote : c ≠ '\'') (hescape : c ≠ '\\')
      (hend : isLineEnd c = false) (h : ReadsBody s v r) : ReadsBody (c :: s) (units c.toNat ++ v) r
  | escape {s t r : List Char} {u v : List Nat} (he : Escapes s u t) (h : ReadsBody t v r) :
      ReadsBody ('\\' :: s) (u ++ v) r

inductive Reads : List Char → List Nat → List Char → Prop where
  | intro {s r : List Char} {v : List Nat} (h : ReadsBody s v r) : Reads ('\'' :: s) v r

/-! ## Code units tell texts apart -/

/-- The code units of a character are those of no other, whatever follows them. -/
theorem units_append_inj {c d : Char} {v w : List Nat}
    (h : units c.toNat ++ v = units d.toNat ++ w) : c = d ∧ v = w := by
  have hc : c.toNat < 0xd800 ∨ 0xdfff < c.toNat ∧ c.toNat < 0x110000 := c.valid
  have hd : d.toNat < 0xd800 ∨ 0xdfff < d.toNat ∧ d.toNat < 0x110000 := d.valid
  rw [← Char.toNat_inj]
  unfold units at h
  split_ifs at h with hsmall hsmall' hsmall'
  all_goals
    simp only [List.cons_append, List.nil_append, List.cons.injEq] at h
  · exact h
  · omega
  · omega
  · refine ⟨?_, h.2.2⟩
    omega

theorem unitsOf_injective : Function.Injective unitsOf := by
  intro s t h
  have hne : ∀ n, units n ≠ [] := by
    intro n
    unfold units
    split_ifs <;> exact List.cons_ne_nil _ _
  induction s generalizing t with
  | nil =>
      cases t with
      | nil => rfl
      | cons d t => exact absurd h.symm (List.append_ne_nil_of_left_ne_nil (hne _) _)
  | cons c s ih =>
      cases t with
      | nil => exact absurd h (List.append_ne_nil_of_left_ne_nil (hne _) _)
      | cons d t =>
          obtain ⟨rfl, hrest⟩ := units_append_inj h
          rw [ih hrest]

/-! ## A text starts with one literal at most -/

/-- The sign that closes a code point's number is none of its digits. -/
theorem closing_not_mem {ds : List Char} {n : Nat} (h : hexNumber? ds = some n) : '\x7d' ∉ ds := by
  unfold hexNumber? at h
  generalize 0 = start at h
  induction ds generalizing start with
  | nil => exact List.not_mem_nil
  | cons d ds ih =>
      rw [List.foldlM_cons] at h
      obtain ⟨m, hd, hrest⟩ := Option.bind_eq_some_iff.mp h
      intro hmem
      rcases List.mem_cons.mp hmem with rfl | hmem
      · cases hd
      · exact ih m hrest hmem

theorem eq_of_append_closing {x y s t : List Char} (hx : '\x7d' ∉ x) (hy : '\x7d' ∉ y)
    (h : x ++ '\x7d' :: s = y ++ '\x7d' :: t) : x = y ∧ s = t := by
  rcases List.append_eq_append_iff.mp h with ⟨m, rfl, hm⟩ | ⟨m, rfl, hm⟩
  · cases m with
    | nil => exact ⟨(List.append_nil x).symm, (List.cons.inj hm).2⟩
    | cons c m =>
        obtain rfl := (List.cons.inj hm).1
        exact absurd (List.mem_append_right x List.mem_cons_self) hy
  · cases m with
    | nil => exact ⟨List.append_nil y, (List.cons.inj hm).2.symm⟩
    | cons c m =>
        obtain rfl := (List.cons.inj hm).1
        exact absurd (List.mem_append_right y List.mem_cons_self) hx

theorem Escapes.unique {s t t' : List Char} {u u' : List Nat} (h : Escapes s u t)
    (h' : Escapes s u' t') : u = u' ∧ t = t' := by
  cases h <;> cases h'
  case unit.codePoint hunit _ => cases hunit
  case codePoint.unit hunit _ => cases hunit
  case codePoint.codePoint _ hn _ hs _ _ _ hn' _ hs' =>
      obtain ⟨rfl, rfl⟩ :=
        eq_of_append_closing (closing_not_mem hn) (closing_not_mem hn') (hs.symm.trans hs')
      obtain rfl := Option.some.inj (hn.symm.trans hn')
      exact ⟨rfl, rfl⟩
  all_goals simp_all [isLineEnd]

theorem ReadsBody.unique {s r r' : List Char} {v v' : List Nat} (h : ReadsBody s v r)
    (h' : ReadsBody s v' r') : v = v' ∧ r = r' := by
  induction h generalizing v' r' with
  | close =>
      cases h' with
      | close => exact ⟨rfl, rfl⟩
      | plain hquote _ _ _ => exact absurd rfl hquote
  | plain hquote hescape _ _ ih =>
      cases h' with
      | close => exact absurd rfl hquote
      | plain _ _ _ h' =>
          obtain ⟨rfl, rfl⟩ := ih h'
          exact ⟨rfl, rfl⟩
      | escape _ _ => exact absurd rfl hescape
  | escape he _ ih =>
      cases h' with
      | plain _ hescape _ _ => exact absurd rfl hescape
      | escape he' h' =>
          obtain ⟨rfl, rfl⟩ := he.unique he'
          obtain ⟨rfl, rfl⟩ := ih h'
          exact ⟨rfl, rfl⟩

theorem Reads.unique {s r r' : List Char} {v v' : List Nat} (h : Reads s v r)
    (h' : Reads s v' r') : v = v' ∧ r = r' := by
  cases h with
  | intro h =>
      cases h' with
      | intro h' => exact h.unique h'

/-! ## The reader keeps to the rules -/

theorem hexDigit?_lt {c : Char} {n : Nat} (h : hexDigit? c = some n) : n < 16 := by
  have hle : ∀ {d : Char}, c ≤ d → c.toNat ≤ d.toNat := id
  have hlast : '9'.toNat = 57 ∧ 'f'.toNat = 102 ∧ 'F'.toNat = 70 := ⟨rfl, rfl, rfl⟩
  have hfirst : '0'.toNat = 48 ∧ 'a'.toNat = 97 ∧ 'A'.toNat = 65 := ⟨rfl, rfl, rfl⟩
  unfold hexDigit? at h
  split_ifs at h with hdigit hsmall hcapital
  · have := hle hdigit.2
    cases h
    omega
  · have := hle hsmall.2
    cases h
    omega
  · have := hle hcapital.2
    cases h
    omega

theorem hexUnit?_lt {a b c d : Char} {n : Nat} (h : hexUnit? a b c d = some n) : n < 0x10000 := by
  unfold hexUnit? at h
  simp only [Option.bind_eq_bind, Option.bind_eq_some_iff, Option.pure_def, Option.some.injEq] at h
  obtain ⟨w, hw, x, hx, y, hy, z, hz, rfl⟩ := h
  have := hexDigit?_lt hw
  have := hexDigit?_lt hx
  have := hexDigit?_lt hy
  have := hexDigit?_lt hz
  omega

theorem toNat_ofNat_of_isValidChar {n : Nat} (h : n.isValidChar) : (Char.ofNat n).toNat = n := by
  rw [Char.ofNat, dif_pos h]
  rfl

theorem units_of_unit? {a b c d x : Char} (h : unit? a b c d = some x) :
    ∃ n, hexUnit? a b c d = some n ∧ units x.toNat = [n] := by
  unfold unit? at h
  obtain ⟨n, hn, hx⟩ := Option.bind_eq_some_iff.mp h
  split at hx
  · next hvalid =>
    obtain rfl := Option.some.inj hx
    refine ⟨n, hn, ?_⟩
    rw [toNat_ofNat_of_isValidChar hvalid, units, if_pos (hexUnit?_lt hn)]
  · cases hx

theorem readsBody_of_body {s t r : List Char} (h : body s = some (t, r)) :
    ReadsBody s (unitsOf t) r := by
  fun_induction body s generalizing t r with
  | case1 => cases h
  | case2 rest =>
      cases h
      exact .close
  | case3 a b c d rest ih =>
      simp only [Option.bind_eq_bind, Option.bind_eq_some_iff] at h
      obtain ⟨x, hx, ⟨t', r'⟩, hbody, ht⟩ := h
      cases ht
      obtain ⟨n, hn, hunits⟩ := units_of_unit? hx
      rw [unitsOf, List.flatMap_cons, hunits]
      exact .escape (.unit hn) (ih hbody)
  | case4 c rest _ hreserved => cases h
  | case5 c rest _ hfree ih =>
      simp only [Option.bind_eq_bind, Option.bind_eq_some_iff] at h
      obtain ⟨⟨t', r'⟩, hbody, ht⟩ := h
      cases ht
      simp only [not_or, Bool.not_eq_true] at hfree
      obtain ⟨hu, hx, hdigit, hend⟩ := hfree
      exact .escape (.character hu hx hdigit hend) (ih hbody)
  | case6 c rest _ _ _ hreserved => cases h
  | case7 c rest hquote _ _ hfree ih =>
      simp only [Option.bind_eq_bind, Option.bind_eq_some_iff] at h
      obtain ⟨⟨t', r'⟩, hbody, ht⟩ := h
      cases ht
      simp only [not_or, Bool.not_eq_true] at hfree
      exact .plain hquote hfree.1 hfree.2 (ih hbody)

/-- What the reader takes for a literal is one, and the text that it gives has its value. -/
theorem reads_of_decode {s t r : List Char} (h : decode s = some (t, r)) :
    Reads s (unitsOf t) r := by
  unfold decode at h
  split at h
  · exact .intro (readsBody_of_body h)
  · cases h

/-! ## What was written is read back -/

theorem body_named {c : Char} (s : List Char) (hu : c ≠ 'u') (hx : c ≠ 'x')
    (hdigit : c.isDigit = false) (hend : isLineEnd c = false) :
    body ('\\' :: c :: s) = (body s).map fun x => (named c :: x.1, x.2) := by
  rw [body, if_neg (by simp [hu, hx, hdigit, hend])]
  · cases body s <;> rfl
  · exact fun _ _ _ _ _ h _ => hu h

theorem body_unit {a b c d x : Char} (s : List Char) (hx : unit? a b c d = some x) :
    body ('\\' :: 'u' :: a :: b :: c :: d :: s) = (body s).map fun y => (x :: y.1, y.2) := by
  rw [body, hx]
  cases body s <;> rfl

theorem body_plain {c : Char} (s : List Char) (hquote : c ≠ '\'') (hescape : c ≠ '\\')
    (hend : isLineEnd c = false) : body (c :: s) = (body s).map fun x => (c :: x.1, x.2) := by
  rw [body, if_neg (by simp [hescape, hend])]
  · cases body s <;> rfl
  · exact hquote
  · exact fun _ _ _ _ _ h _ => hescape h
  · exact fun _ _ h _ => hescape h

/-- The escaped form of a character is read as that character, whatever follows it. -/
theorem body_escape (c : Char) (s : List Char) :
    body (escape c ++ s) = (body s).map fun x => (c :: x.1, x.2) := by
  unfold escape
  split_ifs with hbackslash hquote hfeed hreturn hlines hparagraph
  · subst hbackslash
    exact body_named s (by decide) (by decide) rfl rfl
  · subst hquote
    exact body_named s (by decide) (by decide) rfl rfl
  · subst hfeed
    exact body_named s (by decide) (by decide) rfl rfl
  · subst hreturn
    exact body_named s (by decide) (by decide) rfl rfl
  · subst hlines
    exact body_unit s (by decide)
  · subst hparagraph
    exact body_unit s (by decide)
  · exact body_plain s hquote hbackslash (by simp [isLineEnd, hfeed, hreturn, hlines, hparagraph])

theorem body_escapeAll (s r : List Char) :
    body (escapeAll s ++ '\'' :: r) = some (s, r) := by
  induction s with
  | nil => rfl
  | cons c s ih => rw [escapeAll, List.append_assoc, body_escape, ih, Option.map_some]

/-- The reader gives back what was written, and stops where it ended. -/
theorem decode_encode (s r : List Char) : decode (encode s ++ r) = some (s, r) := by
  rw [encode, List.cons_append, List.append_assoc]
  exact body_escapeAll s r

theorem isLineEnd_of_mem_encode {s : List Char} {c : Char} (hc : c ∈ encode s) :
    isLineEnd c = false := by
  rcases List.mem_cons.mp hc with rfl | hc
  · rfl
  · rcases List.mem_append.mp hc with hc | hc
    · exact Script.isLineEnd_of_mem_escapeAll hc
    · obtain rfl := List.mem_singleton.mp hc
      rfl

/-- Whatever follows the literal of a text, that literal is what a reader of the language takes, and
its value is the text: the value is that of no other text, the rules allow no other reading, and the
reader finds this one.  So two texts with the same literal at their start are one text, with the
same rest.  No character of the literal ends a line. -/
theorem quote_reads_back (t : String) (r : List Char) :
    (∀ v rest, Reads ((quote t).toList ++ r) v rest ↔ v = unitsOf t.toList ∧ rest = r) ∧
      (∀ t' : String, unitsOf t'.toList = unitsOf t.toList → t' = t) ∧
      decode ((quote t).toList ++ r) = some (t.toList, r) ∧
      (∀ t' r', (quote t').toList ++ r' = (quote t).toList ++ r → t' = t ∧ r' = r) ∧
      ∀ c ∈ (quote t).toList, isLineEnd c = false := by
  have hquote : ∀ t : String, (quote t).toList = encode t.toList := fun t => String.toList_ofList
  have hdecode : decode (encode t.toList ++ r) = some (t.toList, r) := decode_encode _ _
  have hreads := reads_of_decode hdecode
  rw [hquote]
  refine ⟨fun v rest => ⟨fun h => h.unique hreads, ?_⟩, fun t' h => ?_, hdecode, fun t' r' h => ?_,
    fun c hc => isLineEnd_of_mem_encode hc⟩
  · rintro ⟨rfl, rfl⟩
    exact hreads
  · exact String.toList_inj.mp (unitsOf_injective h)
  · have hsame : some (t'.toList, r') = some (t.toList, r) := by
      rw [← decode_encode t'.toList r', ← hquote, h, hdecode]
    obtain ⟨htext, hrest⟩ := Prod.mk.inj (Option.some.inj hsame)
    exact ⟨String.toList_inj.mp htext, hrest⟩

end BlockScript.Text.Quoted
