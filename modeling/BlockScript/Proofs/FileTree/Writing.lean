import BlockScript.Proofs.FileTree.Paths
import BlockScript.Proofs.FileTree.Walk
/-!
# Writing to a file tree

Making directories only adds directories (`Extends`), all that can be read before can be read after
(`Extends.readFile`), and a directory that could not be made is not there (`Makes`).
A file that is written reads back as it was written (`readFile_of_writeFile`), and a file that
cannot be written cannot be read either (`exists_writeFile_of_readFile`).
-/

namespace BlockScript.FileTree

variable {t u v : FileTree} {l m : Location} {path dir name : Path} {ps qs : List String}
variable {content : ByteArray} {e : FileFault} {last : String}

/-! ## More directories -/

/-- A tree with the same files as another and all its directories. -/
structure Extends (t u : FileTree) : Prop where
  file : ∀ l content, u.get? l = some (.file content) ↔ t.get? l = some (.file content)
  directory : ∀ l, t.get? l = some .directory → u.get? l = some .directory

theorem Extends.refl (t : FileTree) : Extends t t := ⟨fun _ _ => Iff.rfl, fun _ h => h⟩

theorem Extends.trans (h : Extends t u) (h' : Extends u v) : Extends t v :=
  ⟨fun l content => (h'.file l content).trans (h.file l content),
    fun l hl => h'.directory l (h.directory l hl)⟩

theorem extends_put (hl : t.get? l = none) : Extends t (t.put l .directory) := by
  have hne : l ≠ [] := by
    rintro rfl
    simp at hl
  constructor
  · intro m content
    by_cases heq : m = l
    · simp [heq, hl, get?_put_self t hne]
    · rw [get?_put_of_ne t heq]
  · intro m hm
    by_cases heq : m = l
    · rw [heq, get?_put_self t hne]
    · rwa [get?_put_of_ne t heq]

theorem bind_eq_ok_iff {α β : Type} {x : Except FileFault α} {f : α → Except FileFault β} {b : β} :
    x >>= f = .ok b ↔ ∃ a, x = .ok a ∧ f a = .ok b := by
  cases x <;> simp [bind, Except.bind]

theorem bind_unit_eq_ok_iff {β : Type} {x : Except FileFault Unit} {f : Unit → Except FileFault β}
    {b : β} : x >>= f = .ok b ↔ x = .ok () ∧ f () = .ok b := by
  rw [bind_eq_ok_iff]
  exact ⟨fun ⟨_, hx, hf⟩ => ⟨hx, hf⟩, fun ⟨hx, hf⟩ => ⟨(), hx, hf⟩⟩

theorem extends_makeDirectory (h : t.makeDirectory ps = .ok u) : Extends t u := by
  unfold makeDirectory at h
  obtain ⟨⟨l, last⟩, -, hmade⟩ := bind_eq_ok_iff.mp h
  cases last with
  | none => cases hmade
  | some last =>
      obtain ⟨-, hmade⟩ := bind_unit_eq_ok_iff.mp hmade
      cases hl : t.get? (l ++ [last]) with
      | some entry =>
          rw [hl] at hmade
          cases hmade
      | none =>
          rw [hl] at hmade
          cases hmade
          exact extends_put hl

/-! ## Making directories -/

/-- Making a directory only adds directories, and a directory that could not be made is not there. -/
structure Makes (t : FileTree) (ps : List String) (outcome : FileTree × Except FileFault Unit) :
    Prop where
  more : Extends t outcome.1
  missing : ∀ e, outcome.2 = .error e → outcome.1.isDirectory ps = false

theorem makes_of_makeDirectory (h : t.makeDirectory ps = .ok u) : Makes t ps (u, .ok ()) :=
  ⟨extends_makeDirectory h, fun _ he => nomatch he⟩

theorem makes_nothing (t : FileTree) (ps : List String) (e : FileFault) :
    Makes t ps (t, if t.isDirectory ps then .ok () else .error e) := by
  refine ⟨Extends.refl t, fun e' he => ?_⟩
  cases hdir : t.isDirectory ps with
  | false => rfl
  | true => simp [hdir] at he

/-- Where the directory above could not be made, there is none below. -/
theorem Makes.below (h : Makes t (above ps) (u, .error e)) : Makes t ps (u, .error e) := by
  refine ⟨h.more, fun _ _ => ?_⟩
  cases hdir : u.isDirectory ps with
  | false => rfl
  | true => exact (isDirectory_above hdir).symm.trans (h.missing e rfl)

theorem Makes.of_extends {outcome : FileTree × Except FileFault Unit} (h : Extends t u)
    (hmakes : Makes u ps outcome) : Makes t ps outcome :=
  ⟨h.trans hmakes.more, hmakes.missing⟩

/-- By induction on the number of directories that may be missing. -/
theorem makes_makeDirectoriesWithin (fuel : Nat) (t : FileTree) (ps : List String) :
    Makes t ps (makeDirectoriesWithin fuel t ps) := by
  induction fuel generalizing t ps with
  | zero => exact ⟨Extends.refl t, fun _ he => nomatch he⟩
  | succ fuel ih =>
      unfold makeDirectoriesWithin
      split
      case h_1 u hmade => exact makes_of_makeDirectory hmade
      case h_3 e _ _ => exact makes_nothing t ps e
      case h_2 =>
        have hup : Makes t (above ps) (if above ps = [] then (t, .ok ()) else
            makeDirectoriesWithin fuel t (above ps)) := by
          split
          · exact ⟨Extends.refl t, fun _ he => nomatch he⟩
          · exact ih t (above ps)
        dsimp only
        split
        case h_1 u e hfail => exact (hfail ▸ hup).below
        case h_2 u _ hdone =>
          refine Makes.of_extends (hdone ▸ hup).more ?_
          split
          case h_1 v hmade => exact makes_of_makeDirectory hmade
          case h_2 e _ => exact makes_nothing u ps e

theorem extends_makeDirectories (t : FileTree) (path : Path) :
    Extends t (t.makeDirectories path).1 := by
  unfold makeDirectories
  split
  · exact Extends.refl t
  · split
    · exact Extends.refl t
    · exact (makes_makeDirectoriesWithin _ t _).more

/-- Directories that could not be made are missing, or else nothing has been tried. -/
theorem eq_or_isDirectory_of_makeDirectories (h : t.makeDirectories path = (u, .error e)) :
    u = t ∨ path ≠ "" ∧ u.isDirectory (parts path) = false := by
  unfold makeDirectories at h
  by_cases hpath : path = ""
  · rw [if_pos hpath] at h
    cases h
  · rw [if_neg hpath] at h
    split at h
    · cases h
      exact Or.inl rfl
    · have hmakes := makes_makeDirectoriesWithin ((parts path).length + 1) t (parts path)
      rw [h] at hmakes
      exact Or.inr ⟨hpath, hmakes.missing e rfl⟩

/-! ## Reading -/

theorem readFile_eq_ok_iff : t.readFile path = .ok content ↔ checkPath path = .ok () ∧
    ∃ l, t.walk [] (parts path) = .ok l ∧ t.get? l = some (.file content) := by
  unfold readFile
  rw [bind_unit_eq_ok_iff, bind_eq_ok_iff]
  refine and_congr_right fun _ => exists_congr fun l => and_congr_right fun _ => ?_
  cases hl : t.get? l with
  | none => simp [throw, throwThe, MonadExceptOf.throw]
  | some entry => cases entry <;> simp [throw, throwThe, MonadExceptOf.throw, pure, Except.pure]

theorem Extends.readFile (h : Extends t u) (hread : t.readFile path = .ok content) :
    u.readFile path = .ok content := by
  obtain ⟨hpath, l, hl, hfile⟩ := readFile_eq_ok_iff.mp hread
  exact readFile_eq_ok_iff.mpr ⟨hpath, l, walk_mono h.directory hl, (h.file l content).mpr hfile⟩

/-- Nothing can be read below a directory that is not there. -/
theorem readFile_join_of_isDirectory (hdir : dir ≠ "") (hname : name.toList.head? ≠ some '/')
    (h : t.isDirectory (parts dir) = false) : t.readFile (Path.join dir name) ≠ .ok content := by
  intro hread
  obtain ⟨-, m, hm, -⟩ := readFile_eq_ok_iff.mp hread
  obtain ⟨ps, hps, hparts⟩ := exists_parts_join hdir hname
  rw [hparts] at hm
  obtain ⟨l, hl, hrest⟩ := walk_append_eq_ok_iff.mp hm
  obtain ⟨part, r, hpart⟩ := List.exists_cons_of_ne_nil (parts_ne_nil name)
  have hthere := (walk_cons_eq_ok_iff.mp (hpart ▸ hrest)).1
  have hlast : t.walk l [""] = .ok l := walk_cons_eq_ok_iff.mpr ⟨hthere, l, rfl, walk_nil⟩
  have hfound : t.isDirectory (parts dir) = true := by
    rcases hps with hps | hps
    · exact hps ▸ isDirectory_iff.mpr ⟨l, hl, hthere⟩
    · exact hps ▸ isDirectory_iff.mpr ⟨l, walk_append_eq_ok_iff.mpr ⟨l, hl, hlast⟩, hthere⟩
  rw [hfound] at h
  cases h

/-! ## Writing -/

def Proper (last : String) : Prop := last ≠ "" ∧ last ≠ "." ∧ last ≠ ".."

theorem follow_of_proper (h : Proper last) :
    follow l last = .ok m ↔ checkName last = .ok () ∧ m = l ++ [last] := by
  obtain ⟨hempty, hdot, hup⟩ := h
  rw [follow, if_neg (not_or.mpr ⟨hempty, hdot⟩), if_neg hup]
  cases checkName last <;> simp [Except.map, eq_comm]

/-- The directory of a path leads to a location if there is a directory there. -/
theorem walk_directory_iff : t.walk [] (ps ++ [""]) = .ok l ↔
    t.walk [] ps = .ok l ∧ t.get? l = some .directory := by
  rw [walk_append_eq_ok_iff]
  constructor
  · rintro ⟨k, hk, hl⟩
    obtain ⟨hdir, k', hk', hnil⟩ := walk_cons_eq_ok_iff.mp hl
    cases hk'
    cases walk_nil.symm.trans hnil
    exact ⟨hk, hdir⟩
  · rintro ⟨hl, hdir⟩
    exact ⟨l, hl, walk_cons_eq_ok_iff.mpr ⟨hdir, l, rfl, walk_nil⟩⟩

theorem locateLast_eq_ok_iff {a : Location × Option String} (hempty : last ≠ "") :
    t.locateLast (ps ++ [last]) = .ok a ↔ ∃ l, t.walk [] ps = .ok l ∧
      t.get? l = some .directory ∧ a = (l, if last = "." ∨ last = ".." then none else some last) := by
  unfold locateLast
  rw [withoutFinalSlashes_concat hempty, List.reverse_concat]
  dsimp only
  rw [List.reverse_reverse, bind_eq_ok_iff]
  simp only [walk_directory_iff, pure, Except.pure, Except.ok.injEq, and_assoc, eq_comm (b := a)]

theorem ne_empty_of_checkPath (h : checkPath path = .ok ()) : path ≠ "" := by
  rintro rfl
  exact nomatch h

/-- When a file is written: its directory is there, and no directory has its name. -/
theorem writeFile_eq_ok_iff (hparts : parts path = ps ++ [last]) :
    t.writeFile path content = .ok u ↔
      checkPath path = .ok () ∧ Proper last ∧ checkName last = .ok () ∧ ∃ l, t.walk [] ps = .ok l ∧
        t.get? l = some .directory ∧ t.get? (l ++ [last]) ≠ some .directory ∧
        t.put (l ++ [last]) (.file content) = u := by
  have hslash : path ≠ "" → (last = "" ↔ path.toList.getLast? = some '/') := by
    intro hpath
    have hlast : (parts path).getLast? = some "" ↔ last = "" := by simp [hparts]
    rw [← hlast, getLast?_parts_eq_empty_iff, or_iff_right hpath]
  unfold writeFile
  rw [bind_unit_eq_ok_iff, bind_eq_ok_iff, hparts]
  refine and_congr_right fun hpath => ?_
  replace hslash := hslash (ne_empty_of_checkPath hpath)
  constructor
  · rintro ⟨⟨l, last?⟩, hlocate, hwrite⟩
    cases last? with
    | none => cases hwrite
    | some name =>
        dsimp only at hwrite
        by_cases hempty : last = ""
        · rw [if_pos (hslash.mp hempty)] at hwrite
          cases hwrite
        · rw [if_neg fun h => hempty (hslash.mpr h)] at hwrite
          obtain ⟨hname, hput⟩ := bind_unit_eq_ok_iff.mp hwrite
          obtain ⟨l', hl, hdir, heq⟩ := (locateLast_eq_ok_iff hempty).mp hlocate
          by_cases hdots : last = "." ∨ last = ".."
          · rw [if_pos hdots] at heq
            cases heq
          · rw [if_neg hdots] at heq
            cases heq
            split at hput
            · cases hput
            · cases hput
              exact ⟨⟨hempty, not_or.mp hdots⟩, hname, l, hl, hdir, ‹_›, rfl⟩
  · rintro ⟨hproper, hname, l, hl, hdir, hfree, rfl⟩
    refine ⟨(l, some last), (locateLast_eq_ok_iff hproper.1).mpr ⟨l, hl, hdir, ?_⟩, ?_⟩
    · rw [if_neg (not_or.mpr hproper.2)]
    · dsimp only
      rw [if_neg fun h => hproper.1 (hslash.mpr h), hname]
      exact if_neg hfree

/-- A file that is written holds what was written, whatever it held. -/
theorem readFile_of_writeFile (h : t.writeFile path content = .ok u) :
    u.readFile path = .ok content := by
  obtain ⟨ps, last, hparts⟩ := exists_parts_eq_concat path
  obtain ⟨hpath, hproper, hname, l, hl, hdir, hfree, rfl⟩ := (writeFile_eq_ok_iff hparts).mp h
  have hput : l ++ [last] ≠ [] := by simp
  have hkept (k : Location) (hk : t.get? k = some .directory) :
      (t.put (l ++ [last]) (.file content)).get? k = some .directory := by
    have hne : k ≠ l ++ [last] := by
      rintro rfl
      exact hfree hk
    rw [get?_put_of_ne t hne, hk]
  have hway : (t.put (l ++ [last]) (.file content)).walk [] (parts path) = .ok (l ++ [last]) := by
    rw [hparts]
    refine walk_append_eq_ok_iff.mpr ⟨l, walk_mono hkept hl, ?_⟩
    exact walk_cons_eq_ok_iff.mpr
      ⟨hkept l hdir, _, (follow_of_proper hproper).mpr ⟨hname, rfl⟩, walk_nil⟩
  exact readFile_eq_ok_iff.mpr ⟨hpath, _, hway, get?_put_self t hput _⟩

/-- The last part of a way to a file is the file's name: the others lead to directories. -/
theorem proper_of_follow (habove : t.Above l) (hdir : t.get? l = some .directory)
    (hm : follow l last = .ok m) (hfile : t.get? m = some (.file content)) : Proper last := by
  have hne (hplace : t.get? m = some .directory) : False := by simp [hplace] at hfile
  unfold follow at hm
  split at hm
  · cases hm
    exact (hne hdir).elim
  rename_i hstay
  split at hm
  · cases hm
    exact (hne habove.get?_dropLast).elim
  rename_i hup
  exact ⟨(not_or.mp hstay).1, (not_or.mp hstay).2, hup⟩

theorem exists_writeFile_of_readFile {old : ByteArray} (h : t.readFile path = .ok old)
    (content : ByteArray) : ∃ u, t.writeFile path content = .ok u := by
  obtain ⟨hpath, m, hm, hfile⟩ := readFile_eq_ok_iff.mp h
  obtain ⟨ps, last, hparts⟩ := exists_parts_eq_concat path
  rw [hparts] at hm
  obtain ⟨l, hl, hlast⟩ := walk_append_eq_ok_iff.mp hm
  obtain ⟨hdir, k, hk, hnil⟩ := walk_cons_eq_ok_iff.mp hlast
  cases walk_nil.symm.trans hnil
  have hproper := proper_of_follow (above_of_walk (above_nil t) hl) hdir hk hfile
  obtain ⟨hname, rfl⟩ := (follow_of_proper hproper).mp hk
  exact ⟨_, (writeFile_eq_ok_iff hparts).mpr
    ⟨hpath, hproper, hname, l, hl, hdir, by simp [hfile], rfl⟩⟩

end BlockScript.FileTree
