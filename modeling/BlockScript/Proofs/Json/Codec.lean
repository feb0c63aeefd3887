import BlockScript.Json.Codec
import BlockScript.Proofs.Json.Variation
/-!
# Codecs read what they write

A codec is `Faithful` if it reads every value from the document that it has written for it.  It
`Tolerates` a shape if it reads the value as well from whatever comes from that document
(`Varies`).  The plain codecs do; options, lists, records and types with variants do if the codecs
of their parts do (`Codec.tolerates_record`, `Codec.tolerates_variants`).  For a record its fields
have different names, and a field is only left out if it is then read as the same value
(`Fields.Tolerates`).  So a text of any such document is parsed to the value (`parse_of_varies`).
-/

namespace BlockScript.Json

variable {α β : Type}

/-! ## Codecs -/

/-- Naturals of 64 bits are read as they are. -/
theorem Draft.ofNatural_eq {n : Nat} (h : n < UInt64.size) :
    Draft.ofNatural n = .number (.ok (.natural n)) (.ok ()) := by
  simp [Draft.ofNatural, Lexeme.value?, Decimal.valueOf_toDigits, h]

namespace Codec

def Faithful (c : Codec α) : Prop :=
  ∀ a, c.decode (c.encode a).draft = .ok a

theorem parse_pretty {c : Codec α} (h : c.Faithful) (a : α) :
    c.parse (String.ofList (c.encode a).pretty) = .ok a := by
  rw [parse, String.toList_ofList, ofText_pretty]
  simp only [h a]
  rfl

theorem faithful_word : word.Faithful := by
  intro n
  have hn : n.toNat < UInt32.size := n.toNat_lt
  have hdraft := Draft.ofNatural_eq (Nat.lt_trans hn (by decide : UInt32.size < UInt64.size))
  show word.decode (Draft.ofNatural n.toNat) = _
  simp [hdraft, word, hn]

end Codec

/-- The codec reads a value from whatever comes from the document that it writes for it, which is of
this shape. -/
structure Codec.Tolerates (c : Codec α) (s : Shape) : Prop where
  written : ∀ a, Varies s (c.encode a) (c.encode a).document
  reads : ∀ a d, Varies s (c.encode a) d → c.decode d.draft = .ok a

namespace Codec

variable {c : Codec α} {s : Shape}

theorem Tolerates.faithful (h : c.Tolerates s) : c.Faithful := fun a =>
  Value.draft_document (c.encode a) ▸ h.reads a _ (h.written a)

theorem Tolerates.injective (h : c.Tolerates s) {a a' : α} (heq : c.encode a = c.encode a') :
    a = a' := by
  have hread := h.faithful a
  rw [heq, h.faithful a'] at hread
  exact (Except.ok.inj hread).symm

theorem tolerates_text (expected : String) : (text expected).Tolerates .plain where
  written s := .string (StringToken.text_ofString s)
  reads s d hd := by
    cases hd with
    | string hk => exact hk

theorem tolerates_string : string.Tolerates .plain :=
  tolerates_text _

theorem tolerates_word : word.Tolerates .plain where
  written n := .number n.toNat
  reads n d hd := by
    cases hd with
    | number => exact faithful_word n

theorem Tolerates.option (h : c.Tolerates s) (hnull : ∀ a, c.encode a ≠ .null) :
    c.option.Tolerates (.option s) where
  written o := by
    cases o with
    | none => exact .none
    | some a => exact .some (hnull a) (h.written a)
  reads o d hd := by
    cases o with
    | none =>
        cases hd with
        | none => rfl
        | some hne => exact absurd rfl hne
    | some a =>
        generalize hv : c.option.encode (some a) = v at hd
        cases hd with
        | none => exact absurd hv (hnull a)
        | some hne hd =>
            subst hv
            have hread := h.reads a d hd
            cases d with
            | null => exact absurd hd.eq_null hne
            | bool b | number n | string k | array items | object members =>
                simp only [Document.draft, Numeral.draft] at hread ⊢
                simp [Codec.option, hread, Except.map]

theorem decodeItems_of_varies (h : c.Tolerates s) (as : List α) {ds : List Document}
    (hds : VariesItems s (as.map c.encode) ds) :
    decodeItems c.decode (Document.draftItems ds) = .ok as := by
  induction as generalizing ds with
  | nil =>
      cases hds with
      | nil => rfl
  | cons a as ih =>
      cases hds with
      | cons hd hds =>
          rw [Document.draftItems, decodeItems, h.reads a _ hd, ih hds]
          rfl

theorem variesItems_written (h : c.Tolerates s) (as : List α) :
    VariesItems s (as.map c.encode) (Value.documentItems (as.map c.encode)) := by
  induction as with
  | nil => exact .nil
  | cons a as ih => exact .cons (h.written a) ih

theorem Tolerates.list (h : c.Tolerates s) : c.list.Tolerates (.list s) where
  written as := .list (variesItems_written h as)
  reads as d hd := by
    generalize hv : c.list.encode as = v at hd
    cases hd with
    | list hds =>
        obtain rfl := (Value.array.inj hv).symm
        show (decodeItems c.decode (Document.draftItems _) >>= fun as => _) = _
        rw [decodeItems_of_varies h as hds]
        rfl

theorem Tolerates.imap (h : c.Tolerates s) {into : α → β} {out : β → α}
    (hinto : ∀ b, into (out b) = b) : (c.imap into out).Tolerates s where
  written b := h.written (out b)
  reads b d hd := by
    show (c.decode d.draft).map into = _
    rw [h.reads (out b) d hd]
    exact congrArg Except.ok (hinto b)

end Codec

/-! ## Records -/

/-- The field has this shape, and it is only left out if it is then read as what it held. -/
structure Field.Tolerates (f : Field α) (g : FieldShape Shape) : Prop where
  name : g.name = f.name
  codec : f.codec.Tolerates g.shape
  absent : g.absent = f.absent.map f.codec.encode
  omits : ∀ a, f.omits a = true → f.absent = some a

namespace Field.Tolerates

theorem required (name : String) {c : Codec α} {s : Shape} (h : c.Tolerates s) :
    (Field.required name c).Tolerates ⟨name, s, none⟩ :=
  ⟨rfl, h, rfl, fun _ homits => absurd homits Bool.false_ne_true⟩

theorem withDefault (name : String) {c : Codec α} {s : Shape} (h : c.Tolerates s) (a : α) :
    (Field.withDefault name c a).Tolerates ⟨name, s, some (c.encode a)⟩ :=
  ⟨rfl, h, rfl, fun _ homits => absurd homits Bool.false_ne_true⟩

theorem optional (name : String) {c : Codec α} {s : Shape} (h : c.option.Tolerates s) :
    (Field.optional name c).Tolerates ⟨name, s, some .null⟩ :=
  ⟨rfl, h, rfl, fun _ homits => congrArg some (Option.isNone_iff_eq_none.mp homits).symm⟩

theorem absent_eq {f : Field α} {g : FieldShape Shape} (h : f.Tolerates g) {v : Value} {a : α}
    (hv : g.absent = some v) (ha : v = f.codec.encode a) : f.absent = some a := by
  rw [h.absent, Option.map_eq_some_iff] at hv
  obtain ⟨a', ha', rfl⟩ := hv
  rw [ha', h.codec.injective ha]

end Field.Tolerates

def StringToken.reads (k : StringToken) (s : String) : Bool :=
  match k.text with
  | .ok s' => s' == s
  | .error _ => false

theorem StringToken.reads_iff {k : StringToken} {s : String} : k.reads s = true ↔ k.text = .ok s := by
  unfold reads
  cases k.text <;> simp

def membersNamed (name : String) (members : List (StringToken × Document)) :
    List (StringToken × Document) :=
  members.filter fun m => m.1.reads name

section

variable {name : String} {k : StringToken} {d : Document}
variable {members others : List (StringToken × Document)}

theorem membersNamed_cons_of_reads (h : k.reads name = true) :
    membersNamed name ((k, d) :: members) = (k, d) :: membersNamed name members :=
  List.filter_cons_of_pos h

theorem membersNamed_cons_of_not_reads (h : ¬k.reads name = true) :
    membersNamed name ((k, d) :: members) = membersNamed name members :=
  List.filter_cons_of_neg h

theorem membersNamed_append :
    membersNamed name (members ++ others) = membersNamed name members ++ membersNamed name others :=
  List.filter_append _ _

theorem membersNamed_eq_nil (h : ∀ m ∈ members, m.1.text ≠ .ok name) :
    membersNamed name members = [] :=
  List.filter_eq_nil_iff.mpr fun m hm hreads => h m hm (StringToken.reads_iff.mp hreads)

end

namespace Fields

variable {αs : List Type} {ms : List (String × Value)}

def names : {αs : List Type} → Fields αs → List String
  | [], _ => []
  | _ :: _, (f, fs) => f.name :: names fs

/-- The fields have these shapes, in order, and different names. -/
def Tolerates : {αs : List Type} → Fields αs → List (FieldShape Shape) → Prop
  | [], _, [] => True
  | _ :: _, (f, fs), g :: gs => f.Tolerates g ∧ f.name ∉ fs.names ∧ Tolerates fs gs
  | _, _, _ => False

/-- The members give each field what is written for its value. -/
def Gives : {αs : List Type} → Fields αs → List (FieldShape Shape) → Row αs →
    List (String × Value) → Prop
  | _ :: _, (f, fs), g :: gs, (a, row), ms =>
    g.valueIn ms = some (f.codec.encode a) ∧ Gives fs gs row ms
  | _, _, _, _, _ => True

theorem fst_mem_names_of_mem_write {αs : List Type} (fs : Fields αs) (row : Row αs) :
    ∀ m ∈ fs.write row, m.1 ∈ fs.names := by
  induction αs with
  | nil => exact List.forall_mem_nil _
  | cons α αs ih =>
      obtain ⟨f, fs⟩ := fs
      obtain ⟨a, row⟩ := row
      intro m hm
      rw [write] at hm
      split at hm
      · exact List.mem_cons_of_mem _ (ih fs row m hm)
      · rcases List.mem_cons.mp hm with rfl | hm
        · exact List.mem_cons_self
        · exact List.mem_cons_of_mem _ (ih fs row m hm)

/-- A member of another name changes nothing for the fields. -/
theorem Gives.cons {fs : Fields αs} {gs : List (FieldShape Shape)} {row : Row αs} {name : String}
    {v : Value} (h : fs.Gives gs row ms) (hfs : fs.Tolerates gs) (hname : name ∉ fs.names) :
    fs.Gives gs row ((name, v) :: ms) := by
  induction αs generalizing gs with
  | nil => trivial
  | cons α αs ih =>
      obtain ⟨f, fs⟩ := fs
      obtain ⟨a, row⟩ := row
      cases gs with
      | nil => exact hfs.elim
      | cons g gs =>
          obtain ⟨hf, _, hfs⟩ := hfs
          rw [names, List.mem_cons, not_or] at hname
          refine ⟨?_, ih h.2 hfs hname.2⟩
          have hne : (g.name == name) = false := by
            rw [hf.name]
            exact beq_false_of_ne (Ne.symm hname.1)
          rw [FieldShape.valueIn, List.lookup_cons, hne]
          exact h.1

/-- The members that are written for a record give each field what is written for its value. -/
theorem gives_write {fs : Fields αs} {gs : List (FieldShape Shape)} (h : fs.Tolerates gs)
    (row : Row αs) : fs.Gives gs row (fs.write row) := by
  induction αs generalizing gs with
  | nil => trivial
  | cons α αs ih =>
      obtain ⟨f, fs⟩ := fs
      obtain ⟨a, row⟩ := row
      cases gs with
      | nil => exact h.elim
      | cons g gs =>
          obtain ⟨hf, hname, hfs⟩ := h
          rw [write]
          split
          · rename_i homits
            refine ⟨?_, ih hfs row⟩
            have hlookup : (fs.write row).lookup g.name = none := by
              rw [List.lookup_eq_none_iff]
              intro m hm
              have hmem := fst_mem_names_of_mem_write fs row m hm
              rw [hf.name, bne_iff_ne]
              exact fun heq => hname (heq ▸ hmem)
            rw [FieldShape.valueIn, hlookup, hf.absent, hf.omits a homits]
            rfl
          · refine ⟨?_, (ih hfs row).cons hfs hname⟩
            rw [FieldShape.valueIn, hf.name, List.lookup_cons, beq_self_eq_true]
            rfl

/-! ### As objects -/

theorem readMembers_eq (fs : Fields αs) (key : Key) (d : Draft) (r : List (Key × Draft))
    (slots : Slots αs) :
    fs.readMembers ((key, d) :: r) slots =
      Draft.keyText key >>= fun name =>
        match fs.place name d slots with
        | some placed => placed >>= fun slots => fs.readMembers r slots
        | none => d.skip >>= fun _ => fs.readMembers r slots :=
  rfl

theorem place_of_ne {f : Field α} {fs : Fields αs} {name : String} (h : f.name ≠ name) (d : Draft)
    (slot : Option α) (slots : Slots αs) :
    @place (α :: αs) (f, fs) name d (slot, slots) =
      (fs.place name d slots).map fun placed => placed.map fun slots => (slot, slots) :=
  if_neg h

/-- Members of other names leave the first slot as it is. -/
theorem readMembers_cons {f : Field α} {fs : Fields αs} {ms : List (Key × Draft)}
    (h : ∀ m ∈ ms, Draft.keyText m.1 ≠ .ok f.name) (slot : Option α) (slots : Slots αs) :
    @readMembers (α :: αs) (f, fs) ms (slot, slots) =
      (fs.readMembers ms slots).map fun slots => (slot, slots) := by
  induction ms generalizing slots with
  | nil => rfl
  | cons m ms ih =>
      obtain ⟨key, d⟩ := m
      rw [List.forall_mem_cons] at h
      rw [@readMembers_eq (α :: αs) (f, fs) key d ms (slot, slots), readMembers_eq fs]
      cases hkey : Draft.keyText key with
      | error e => rfl
      | ok name =>
          have hname : f.name ≠ name := by
            rintro rfl
            exact h.1 hkey
          simp only [bind, Except.bind, place_of_ne hname]
          cases fs.place name d slots with
          | none =>
              cases d.skip with
              | error e => rfl
              | ok u => exact ih h.2 slots
          | some placed =>
              cases placed with
              | error e => rfl
              | ok slots => exact ih h.2 slots

theorem names_eq {fs : Fields αs} {gs : List (FieldShape Shape)} (h : fs.Tolerates gs) :
    fs.names = gs.map FieldShape.name := by
  induction αs generalizing gs with
  | nil =>
      cases gs with
      | nil => rfl
      | cons => exact h.elim
  | cons α αs ih =>
      obtain ⟨f, fs⟩ := fs
      cases gs with
      | nil => exact h.elim
      | cons g gs =>
          obtain ⟨hf, _, hfs⟩ := h
          rw [names, List.map_cons, hf.name, ih hfs]

theorem exists_name {gs : List (FieldShape Shape)} {known : List (StringToken × Document)}
    (h : VariesMembers gs ms known) {m : StringToken × Document} (hm : m ∈ known) :
    ∃ g ∈ gs, m.1.text = .ok g.name := by
  induction gs generalizing known with
  | nil =>
      cases h with
      | nil => cases hm
  | cons g gs ih =>
      cases h with
      | given _ hk _ hr =>
          rcases List.mem_cons.mp hm with rfl | hm
          · exact ⟨g, List.mem_cons_self, hk⟩
          · obtain ⟨g', hg', htext⟩ := ih hr hm
            exact ⟨g', List.mem_cons_of_mem _ hg', htext⟩
      | left _ _ hr =>
          obtain ⟨g', hg', htext⟩ := ih hr hm
          exact ⟨g', List.mem_cons_of_mem _ hg', htext⟩

theorem readMembers_nil {members : List (StringToken × Document)}
    (h : ∀ m ∈ members, ∃ name, m.1.text = .ok name) (fs : Fields []) (slots : Slots []) :
    fs.readMembers (Document.draftMembers members) slots = .ok slots := by
  induction members with
  | nil => rfl
  | cons m members ih =>
      obtain ⟨k, d⟩ := m
      rw [List.forall_mem_cons] at h
      obtain ⟨⟨name, hk⟩, h⟩ := h
      have htext : Draft.keyText k.key = .ok name := hk
      rw [Document.draftMembers, readMembers_eq, htext]
      simp only [bind, Except.bind, place, Document.skip_draft]
      exact ih h

theorem place_of_not_mem {fs : Fields αs} {name : String} (h : name ∉ fs.names) (d : Draft)
    (slots : Slots αs) : fs.place name d slots = none := by
  induction αs with
  | nil => rfl
  | cons α αs ih =>
      obtain ⟨f, fs⟩ := fs
      obtain ⟨slot, slots⟩ := slots
      rw [names, List.mem_cons, not_or] at h
      rw [place_of_ne (Ne.symm h.1), ih h.2 slots]
      rfl

section

variable {f : Field α} {fs : Fields αs} {members : List (StringToken × Document)}

theorem readMembers_without (h : membersNamed f.name members = [])
    (slot : Option α) (slots : Slots αs) :
    @readMembers (α :: αs) (f, fs) (Document.draftMembers members) (slot, slots) =
      (fs.readMembers (Document.draftMembers members) slots).map fun slots => (slot, slots) := by
  apply readMembers_cons
  rw [Document.draftMembers_eq_map]
  intro m hm hkey
  obtain ⟨x, hx, rfl⟩ := List.mem_map.mp hm
  exact List.filter_eq_nil_iff.mp h x hx (StringToken.reads_iff.mpr hkey)

/-- A field that one member names is read from it, whatever stands around it. -/
theorem readMembers_once (hname : f.name ∉ fs.names) {m : StringToken × Document} {a : α}
    (h : membersNamed f.name members = [m]) (hread : f.codec.decode m.2.draft = .ok a)
    {slots slots' : Slots αs}
    (hrest : fs.readMembers (Document.draftMembers members) slots = .ok slots') :
    @readMembers (α :: αs) (f, fs) (Document.draftMembers members) (none, slots) =
      .ok (some a, slots') := by
  induction members generalizing slots with
  | nil => cases h
  | cons x members ih =>
      obtain ⟨k, d⟩ := x
      rw [Document.draftMembers, readMembers_eq] at hrest
      rw [Document.draftMembers, @readMembers_eq (α :: αs) (f, fs) k.key d.draft
        (Document.draftMembers members) (none, slots)]
      by_cases hk : k.reads f.name = true
      · rw [membersNamed_cons_of_reads hk, List.cons.injEq] at h
        obtain ⟨rfl, hothers⟩ := h
        have htext : Draft.keyText k.key = .ok f.name := StringToken.reads_iff.mp hk
        rw [htext] at hrest ⊢
        simp only [bind, Except.bind, place_of_not_mem hname, Document.skip_draft] at hrest
        have hplace : @place (α :: αs) (f, fs) f.name d.draft (none, slots) =
            some (.ok (some a, slots)) := by
          rw [place, if_pos rfl]
          simp only [hread, Except.map]
        simp only [bind, Except.bind, hplace]
        rw [readMembers_without hothers, hrest]
        rfl
      · rw [membersNamed_cons_of_not_reads hk] at h
        cases htext : Draft.keyText k.key with
        | error e =>
            rw [htext] at hrest
            cases hrest
        | ok name =>
            have hne : f.name ≠ name := by
              rintro rfl
              exact hk (StringToken.reads_iff.mpr htext)
            rw [htext] at hrest
            simp only [bind, Except.bind, place_of_ne hne] at hrest ⊢
            cases hplaced : fs.place name d.draft slots with
            | none =>
                simp only [hplaced, Document.skip_draft] at hrest
                simp only [Option.map_none, Document.skip_draft]
                exact ih h hrest
            | some placed =>
                cases placed with
                | error e =>
                    rw [hplaced] at hrest
                    cases hrest
                | ok slots₁ =>
                    simp only [hplaced] at hrest
                    exact ih h hrest

end

/-- If for each field the members of its name are those by which it is given, the slots of the
record are filled with what makes its row complete. -/
theorem exists_readMembers {fs : Fields αs} {gs : List (FieldShape Shape)} {row : Row αs}
    (hfs : fs.Tolerates gs) (hgives : fs.Gives gs row ms)
    {known members : List (StringToken × Document)} (hknown : VariesMembers gs ms known)
    (hnames : ∀ name ∈ fs.names, (membersNamed name members).Perm (membersNamed name known))
    (htexts : ∀ m ∈ members, ∃ name, m.1.text = .ok name) :
    ∃ slots, fs.readMembers (Document.draftMembers members) (Slots.empty αs) = .ok slots ∧
      ∀ fault position, fs.complete fault position slots = .ok row := by
  induction αs generalizing gs known with
  | nil => exact ⟨_, readMembers_nil htexts fs _, fun _ _ => rfl⟩
  | cons α αs ih =>
      obtain ⟨f, fs⟩ := fs
      obtain ⟨a, row⟩ := row
      cases gs with
      | nil => exact hfs.elim
      | cons g gs =>
          obtain ⟨hf, hname, hfs⟩ := hfs
          obtain ⟨hvalue, hgives⟩ := hgives
          have hfirst := hnames f.name List.mem_cons_self
          -- no later field has the name of the first, so no member by which one is given does
          have hapart : ∀ {r}, VariesMembers gs ms r → membersNamed f.name r = [] := by
            intro r hr
            refine membersNamed_eq_nil fun m hm htext => hname ?_
            obtain ⟨g', hg', htext'⟩ := exists_name hr hm
            rw [htext] at htext'
            rw [names_eq hfs, Except.ok.inj htext']
            exact List.mem_map_of_mem hg'
          cases hknown with
          | @given _ _ _ v k d r hv hk hd hr =>
              obtain rfl := Option.some.inj (hv.symm.trans hvalue)
              have hreads : k.reads f.name = true := StringToken.reads_iff.mpr (hf.name ▸ hk)
              rw [membersNamed_cons_of_reads hreads, hapart hr, List.perm_singleton] at hfirst
              obtain ⟨slots, hslots, hcomplete⟩ := ih hfs hgives hr fun name hmem => by
                have hne : ¬k.reads name = true := by
                  intro h
                  have hsame := (StringToken.reads_iff.mp hreads).symm.trans
                    (StringToken.reads_iff.mp h)
                  exact hname (Except.ok.inj hsame ▸ hmem)
                have hperm := hnames name (List.mem_cons_of_mem _ hmem)
                rwa [membersNamed_cons_of_not_reads hne] at hperm
              refine ⟨(some a, slots), readMembers_once hname hfirst (hf.codec.reads a d hd) hslots,
                fun fault position => ?_⟩
              rw [complete]
              simp only [Option.or, hcomplete]
              rfl
          | @left _ _ _ v _ habsent hv hr =>
              have hdefault := hf.absent_eq habsent (Option.some.inj (hv.symm.trans hvalue))
              rw [hapart hr, List.perm_nil] at hfirst
              obtain ⟨slots, hslots, hcomplete⟩ := ih hfs hgives hr fun name hmem =>
                hnames name (List.mem_cons_of_mem _ hmem)
              refine ⟨(none, slots), ?_, fun fault position => ?_⟩
              · rw [Slots.empty, readMembers_without hfirst, hslots]
                rfl
              · rw [complete, hdefault]
                simp only [Option.or, hcomplete]
                rfl

/-! ### As arrays -/

/-- Fields that all hold what they hold when they are left out make a row of their defaults. -/
theorem complete_empty {fs : Fields αs} {gs : List (FieldShape Shape)} {row : Row αs}
    (hfs : fs.Tolerates gs) (hgives : fs.Gives gs row ms)
    (h : ∀ g ∈ gs, ∃ v, g.absent = some v ∧ g.valueIn ms = some v) (fault : Nat → String → Fault)
    (position : Nat) : fs.complete fault position (Slots.empty αs) = .ok row := by
  induction αs generalizing gs position with
  | nil => rfl
  | cons α αs ih =>
      obtain ⟨f, fs⟩ := fs
      obtain ⟨a, row⟩ := row
      cases gs with
      | nil => exact hfs.elim
      | cons g gs =>
          obtain ⟨hf, _, hfs⟩ := hfs
          rw [List.forall_mem_cons] at h
          obtain ⟨⟨v, habsent, hv⟩, h⟩ := h
          have hdefault := hf.absent_eq habsent (Option.some.inj (hv.symm.trans hgives.1))
          rw [Slots.empty, complete, hdefault]
          simp only [Option.or, ih hfs hgives.2 h]
          rfl

theorem exists_readItems {fs : Fields αs} {gs : List (FieldShape Shape)} {row : Row αs}
    (hfs : fs.Tolerates gs) (hgives : fs.Gives gs row ms) {ds : List Document}
    (h : VariesRow gs ms ds) :
    ∃ slots, fs.readItems (Document.draftItems ds) = .ok (slots, []) ∧
      ∀ fault position, fs.complete fault position slots = .ok row := by
  induction αs generalizing gs ds with
  | nil =>
      cases gs with
      | nil =>
          cases h with
          | ended => exact ⟨(), rfl, fun _ _ => rfl⟩
      | cons => exact hfs.elim
  | cons α αs ih =>
      obtain ⟨f, fs⟩ := fs
      obtain ⟨a, row⟩ := row
      cases gs with
      | nil => exact hfs.elim
      | cons g gs =>
          cases h with
          | ended hdefaults =>
              exact ⟨Slots.empty _, rfl, fun fault position =>
                @complete_empty (α :: αs) ms (f, fs) (g :: gs) (a, row) hfs hgives hdefaults fault
                  position⟩
          | @given _ _ _ v d ds hv hd hds =>
              obtain ⟨hf, _, hfs⟩ := hfs
              obtain rfl := Option.some.inj (hv.symm.trans hgives.1)
              obtain ⟨slots, hslots, hcomplete⟩ := ih hfs hgives.2 hds
              refine ⟨(some a, slots), ?_, fun fault position => ?_⟩
              · rw [Document.draftItems, readItems, hf.codec.reads a d hd]
                simp only [bind, Except.bind, hslots]
                rfl
              · rw [complete]
                simp only [Option.or, hcomplete]
                rfl

/-! ### Reading -/

/-- The values that are read if the fields of these names are left out: those that they hold
then. -/
def without : {αs : List Type} → Fields αs → List String → Row αs → Row αs
  | [], _, _, _ => ()
  | _ :: _, (f, fs), names, (a, row) =>
    (if f.name ∈ names then f.absent.getD a else a, fs.without names row)

theorem without_nil (fs : Fields αs) (row : Row αs) : fs.without [] row = row := by
  induction αs with
  | nil => rfl
  | cons α αs ih =>
      obtain ⟨f, fs⟩ := fs
      obtain ⟨a, row⟩ := row
      rw [without, if_neg List.not_mem_nil, ih]

/-- What is written for a row gives, without the members of these names, the row that is read if
they are left out. -/
theorem variesMembers_without {fs : Fields αs} {gs : List (FieldShape Shape)} {names : List String}
    {row : Row αs} (hfs : fs.Tolerates gs) (hgives : fs.Gives gs (fs.without names row) ms)
    (hnames : ∀ g ∈ gs, g.name ∈ names → g.absent ≠ none) :
    VariesMembers gs ms
      (Value.documentMembers ((fs.write row).filter fun m => m.1 ∉ names)) := by
  induction αs generalizing gs with
  | nil =>
      cases gs with
      | nil => exact .nil
      | cons => exact hfs.elim
  | cons α αs ih =>
      obtain ⟨f, fs⟩ := fs
      obtain ⟨a, row⟩ := row
      cases gs with
      | nil => exact hfs.elim
      | cons g gs =>
          obtain ⟨hf, _, hfs⟩ := hfs
          rw [List.forall_mem_cons] at hnames
          obtain ⟨hvalue, hgives⟩ := hgives
          have hrest := ih hfs hgives hnames.2
          -- a field that is left out, by its writer or by name, is read as its default
          have hleft : ∀ d, f.absent = some d →
              (if f.name ∈ names then f.absent.getD a else a) = d →
              VariesMembers (g :: gs) ms
                (Value.documentMembers ((fs.write row).filter fun m => m.1 ∉ names)) := by
            intro d habsent hd
            rw [hd] at hvalue
            exact .left (by rw [hf.absent, habsent]; rfl) hvalue hrest
          rw [write]
          split
          · rename_i homits
            have habsent := hf.omits a homits
            exact hleft a habsent (by rw [habsent, Option.getD_some, ite_self])
          · by_cases hname : f.name ∈ names
            · rw [List.filter_cons_of_neg (by simpa using hname)]
              have hsome := hnames.1 (hf.name ▸ hname)
              rw [hf.absent, ne_eq, Option.map_eq_none_iff] at hsome
              obtain ⟨d, habsent⟩ := Option.ne_none_iff_exists'.mp hsome
              exact hleft d habsent (by rw [if_pos hname, habsent, Option.getD_some])
            · rw [List.filter_cons_of_pos (by simpa using hname)]
              rw [if_neg hname] at hvalue
              exact .given hvalue (by rw [StringToken.text_ofString, hf.name]) (hf.codec.written a)
                hrest

/-- The members that are written for a row, without those of these names and in any order, come from
the object that is written for the row that is read if the fields are left out. -/
theorem varies_without {fs : Fields αs} {gs : List (FieldShape Shape)} (h : fs.Tolerates gs)
    (names : List String) (hnames : ∀ g ∈ gs, g.name ∈ names → g.absent ≠ none) (row : Row αs)
    (hms : ms.Perm ((fs.write row).filter fun m => m.1 ∉ names)) :
    Varies (.record gs) (.object (fs.write (fs.without names row))) (Value.object ms).document := by
  have hgives := gives_write h (fs.without names row)
  refine .object (variesMembers_without h hgives hnames) (List.forall_mem_nil _) ?_
  rw [List.append_nil, Value.documentMembers_eq_map, Value.documentMembers_eq_map]
  exact hms.map _

theorem varies_written {fs : Fields αs} {gs : List (FieldShape Shape)} (h : fs.Tolerates gs)
    (row : Row αs) :
    Varies (.record gs) (.object (fs.write row)) (Value.object (fs.write row)).document := by
  have hall : (fs.write row).filter (fun m => m.1 ∉ ([] : List String)) = fs.write row :=
    List.filter_eq_self.mpr fun _ _ => decide_eq_true List.not_mem_nil
  have hvaries := varies_without h [] (fun _ _ hname => absurd hname List.not_mem_nil) row
    (.of_eq hall.symm)
  rwa [without_nil] at hvaries

theorem read_of_varies {fs : Fields αs} {gs : List (FieldShape Shape)} (h : fs.Tolerates gs)
    (title : String) (row : Row αs) {d : Document}
    (hd : Varies (.record gs) (.object (fs.write row)) d) : fs.read title d.draft = .ok row := by
  have hgives := gives_write h row
  cases hd with
  | @object _ _ known unknown members hknown hunknown hperm =>
      have htexts : ∀ m ∈ members, ∃ name, m.1.text = .ok name := by
        intro m hm
        rcases List.mem_append.mp (hperm.mem_iff.mp hm) with hm | hm
        · obtain ⟨g, _, htext⟩ := exists_name hknown hm
          exact ⟨_, htext⟩
        · obtain ⟨name, htext, _⟩ := hunknown m hm
          exact ⟨name, htext⟩
      have hnames : ∀ name ∈ fs.names,
          (membersNamed name members).Perm (membersNamed name known) := by
        intro name hmem
        have hothers : membersNamed name unknown = [] := by
          refine membersNamed_eq_nil fun m hm htext => ?_
          obtain ⟨other, htext', hother⟩ := hunknown m hm
          obtain rfl := Except.ok.inj (htext.symm.trans htext')
          rw [names_eq h] at hmem
          obtain ⟨g, hg, hname⟩ := List.mem_map.mp hmem
          exact hother g hg hname
        have hfilter := hperm.filter fun m => m.1.reads name
        rwa [← membersNamed, ← membersNamed, membersNamed_append, hothers, List.append_nil]
          at hfilter
      obtain ⟨slots, hslots, hcomplete⟩ := exists_readMembers h hgives hknown hnames htexts
      rw [Document.draft, read, hslots]
      exact hcomplete _ 0
  | array hrow =>
      obtain ⟨slots, hslots, hcomplete⟩ := exists_readItems h hgives hrow
      rw [Document.draft, read, hslots]
      simp only [bind, Except.bind, hcomplete]
      split <;> rfl

end Fields

theorem Codec.tolerates_record {αs : List Type} (title : String) {fs : Fields αs}
    {gs : List (FieldShape Shape)} {build : Row αs → α} {parts : α → Row αs}
    (h : fs.Tolerates gs) (hbuild : ∀ a, build (parts a) = a) :
    (Codec.record title fs build parts).Tolerates (.record gs) where
  written a := Fields.varies_written h (parts a)
  reads a d hd := by
    show (fs.read title d.draft).map build = _
    rw [Fields.read_of_varies h title (parts a) hd]
    exact congrArg Except.ok (hbuild a)

/-! ## Variants -/

namespace Variant

variable {variants : List (Variant α)} {carried : List (String × Shape)}

/-- A value is written as one of the variants, which the shape knows: by its name alone, or under
it. -/
inductive Writes (variants : List (Variant α)) (carried : List (String × Shape)) :
    α → Value → Prop
  | unit {name : String} {a : α} : find variants name = .ok (Variant.unit name a).payload →
      Writes variants carried a (.string name)
  | single {β : Type} {name : String} {c : Codec β} {build : β → α} {a : α} {s : Shape} :
      find variants name = .ok (Variant.single name c build).payload →
      carried.lookup name = some s → c.Tolerates s → (b : β) → build b = a →
      Writes variants carried a (.tagged name (c.encode b))
  | record {αs : List Type} {name title : String} {fs : Fields αs} {build : Row αs → α} {a : α}
      {gs : List (FieldShape Shape)} :
      find variants name = .ok (Variant.record name title fs build).payload →
      carried.lookup name = some (.record gs) → fs.Tolerates gs → (row : Row αs) → build row = a →
      Writes variants carried a (.tagged name (.object (fs.write row)))

theorem read_tagged {name : String} {payload : Payload α} (h : find variants name = .ok payload)
    {k : StringToken} (hk : k.text = .ok name) (d : Document) :
    read variants (Document.object [(k, d)]).draft = readPayload payload d.draft := by
  have hread : read variants (Document.object [(k, d)]).draft =
      (k.text >>= fun name => find variants name >>= fun payload =>
        readPayload payload d.draft >>= fun a => pure a) := by
    cases d <;> rfl
  rw [hread, hk]
  simp only [bind, Except.bind, h]
  cases readPayload payload d.draft <;> rfl

theorem Writes.varies {a : α} {v : Value} (h : Writes variants carried a v) :
    Varies (.variants carried) v v.document := by
  cases h with
  | unit => exact .unit (StringToken.text_ofString _)
  | single _ hlookup hc b _ =>
      exact .tagged hlookup (StringToken.text_ofString _) (hc.written b)
  | record _ hlookup hfs row _ =>
      exact .tagged hlookup (StringToken.text_ofString _) (Fields.varies_written hfs row)

theorem Writes.read {a : α} {v : Value} (h : Writes variants carried a v) {d : Document}
    (hd : Varies (.variants carried) v d) : read variants d.draft = .ok a := by
  cases h with
  | @unit name _ hfind =>
      cases hd with
      | @unit _ _ k hk =>
          show (k.text >>= fun name => find variants name >>= fun payload => _) = _
          rw [hk]
          simp only [bind, Except.bind, hfind]
          rfl
      | unitObject hk => exact read_tagged hfind hk .null
  | @single β name c build _ s hfind hlookup hc b hbuild =>
      cases hd with
      | tagged hlookup' hk hd =>
          obtain rfl := Option.some.inj (hlookup.symm.trans hlookup')
          refine (read_tagged hfind hk _).trans ?_
          show (c.decode _).map build = _
          rw [hc.reads b _ hd]
          exact congrArg Except.ok hbuild
  | @record αs name title fs build _ gs hfind hlookup hfs row hbuild =>
      cases hd with
      | tagged hlookup' hk hd =>
          obtain rfl := Option.some.inj (hlookup.symm.trans hlookup')
          refine (read_tagged hfind hk _).trans ?_
          show (fs.read title _).map build = _
          rw [Fields.read_of_varies hfs title row hd]
          exact congrArg Except.ok hbuild

end Variant

theorem Codec.tolerates_variants {variants : List (Variant α)} {encode : α → Value}
    {carried : List (String × Shape)} (h : ∀ a, Variant.Writes variants carried a (encode a)) :
    (Codec.variants variants encode).Tolerates (.variants carried) where
  written a := (h a).varies
  reads a _ hd := (h a).read hd

theorem Codec.tolerates_enumeration {values : List α} {name : α → String}
    (h : ∀ a, values.find? (fun b => name b == name a) = some a) :
    (Codec.enumeration values name).Tolerates .enumeration := by
  refine @tolerates_variants _ _ _ [] fun a => .unit ?_
  have hfind : (values.map fun a => Variant.unit (name a) a).find? (fun v => v.name == name a) =
      some (Variant.unit (name a) a) := by
    rw [List.find?_map]
    exact congrArg (Option.map _) (h a)
  rw [Variant.find, hfind]

/-! ## Texts -/

/-- A text of a document that comes from the one that is written for a value is parsed to that
value. -/
theorem Codec.parse_of_varies {c : Codec α} {s : Shape} (h : c.Tolerates s) {a : α} {d : Document}
    (hd : Varies s (c.encode a) d) {t w w' : List Char} (ht : IsText t d) (hw : Spaces w)
    (hw' : Spaces w') : c.parse (String.ofList (w ++ (t ++ w'))) = .ok a := by
  rw [parse, String.toList_ofList, ofText_of_isText ht hw hw']
  simp only [h.reads a d hd]
  rfl

end BlockScript.Json
