import BlockScript.FileTree
/-!
# Ways through a file tree

`follow` is one part of a way: `walk` follows its parts one by one, each from a directory
(`walk_cons_eq_ok_iff`). From this come the laws of ways that the operations on files rest on: a way
splits where its parts do, it leads to the same place while directories stay directories, and all
that it passes is directories.
-/

namespace BlockScript.FileTree

variable {t u : FileTree} {l m : Location} {part : String} {ps qs : List String}

/-! ## Ways -/

/-- Where one part of a path leads from a directory. -/
def follow (l : Location) (part : String) : Except FileFault Location :=
  if part = "" ∨ part = "." then .ok l
  else if part = ".." then .ok l.dropLast
  else (checkName part).map fun _ => l ++ [part]

theorem walk_cons (hl : t.get? l = some .directory) :
    t.walk l (part :: ps) = (follow l part).bind fun k => t.walk k ps := by
  rw [walk, hl, follow]
  by_cases hstay : part = "" ∨ part = "."
  · simp only [if_pos hstay]
    rfl
  · by_cases hup : part = ".."
    · simp only [if_neg hstay, if_pos hup]
      rfl
    · simp only [if_neg hstay, if_neg hup]
      cases checkName part <;> rfl

theorem walk_cons_eq_ok_iff : t.walk l (part :: ps) = .ok m ↔
    t.get? l = some .directory ∧ ∃ k, follow l part = .ok k ∧ t.walk k ps = .ok m := by
  constructor
  · intro h
    have hl : t.get? l = some .directory := by
      rw [walk] at h
      split at h <;> simp_all
    rw [walk_cons hl] at h
    cases hk : follow l part with
    | error e => simp [hk, Except.bind] at h
    | ok k => exact ⟨hl, k, rfl, by simpa [hk, Except.bind] using h⟩
  · rintro ⟨hl, k, hk, hm⟩
    rw [walk_cons hl, hk]
    exact hm

@[simp] theorem walk_nil : t.walk l [] = .ok l := by rw [walk]

theorem walk_append_eq_ok_iff : t.walk l (ps ++ qs) = .ok m ↔
    ∃ k, t.walk l ps = .ok k ∧ t.walk k qs = .ok m := by
  induction ps generalizing l with
  | nil => simp
  | cons part ps ih =>
      simp only [List.cons_append, walk_cons_eq_ok_iff, ih]
      constructor
      · rintro ⟨hl, k, hk, k', hps, hqs⟩
        exact ⟨k', ⟨hl, k, hk, hps⟩, hqs⟩
      · rintro ⟨k', ⟨hl, k, hk, hps⟩, hqs⟩
        exact ⟨hl, k, hk, k', hps, hqs⟩

/-- A way stays open while directories stay directories. -/
theorem walk_mono (h : ∀ l, t.get? l = some .directory → u.get? l = some .directory)
    (hm : t.walk l ps = .ok m) : u.walk l ps = .ok m := by
  induction ps generalizing l with
  | nil => simpa using hm
  | cons part ps ih =>
      obtain ⟨hl, k, hk, hps⟩ := walk_cons_eq_ok_iff.mp hm
      exact walk_cons_eq_ok_iff.mpr ⟨h l hl, k, hk, ih hps⟩

/-! ## What a way passes -/

@[simp] theorem get?_nil (t : FileTree) : t.get? [] = some .directory := rfl

def Above (t : FileTree) (l : Location) : Prop :=
  ∀ k, k <+: l → k ≠ l → t.get? k = some .directory

theorem above_nil (t : FileTree) : t.Above [] := fun _ hk hne => absurd (List.prefix_nil.mp hk) hne

theorem Above.dropLast (h : t.Above l) : t.Above l.dropLast := by
  intro k hk hne
  refine h k (hk.trans l.dropLast_prefix) ?_
  rintro rfl
  exact hne (hk.eq_of_length_le (by simp))

theorem Above.get?_dropLast (h : t.Above l) : t.get? l.dropLast = some .directory := by
  by_cases hl : l = []
  · rw [hl]
    rfl
  · refine h _ l.dropLast_prefix fun heq => ?_
    have hlength := congrArg List.length heq
    have hpos := List.length_pos_iff.mpr hl
    rw [List.length_dropLast] at hlength
    omega

theorem Above.concat (h : t.Above l) (hl : t.get? l = some .directory) (part : String) :
    t.Above (l ++ [part]) := by
  intro k hk hne
  rcases List.prefix_concat_iff.mp hk with heq | hk
  · exact absurd heq hne
  · by_cases heq : k = l
    · rwa [heq]
    · exact h k hk heq

theorem above_of_follow (h : t.Above l) (hl : t.get? l = some .directory)
    (hm : follow l part = .ok m) : t.Above m := by
  unfold follow at hm
  split at hm
  · cases hm
    exact h
  split at hm
  · cases hm
    exact h.dropLast
  · cases hname : checkName part with
    | error e => simp [hname, Except.map] at hm
    | ok _ =>
        simp only [hname, Except.map, Except.ok.injEq] at hm
        exact hm ▸ h.concat hl part

theorem above_of_walk (h : t.Above l) (hm : t.walk l ps = .ok m) : t.Above m := by
  induction ps generalizing l with
  | nil =>
      cases walk_nil.symm.trans hm
      exact h
  | cons part ps ih =>
      obtain ⟨hl, k, hk, hps⟩ := walk_cons_eq_ok_iff.mp hm
      exact ih (above_of_follow h hl hk) hps

/-! ## Directories -/

theorem isDirectory_iff : t.isDirectory ps = true ↔
    ∃ l, t.walk [] ps = .ok l ∧ t.get? l = some .directory := by
  unfold isDirectory
  cases h : t.walk [] ps <;> simp

theorem isDirectory_of_append (h : t.isDirectory (ps ++ qs) = true) : t.isDirectory ps = true := by
  cases qs with
  | nil => simpa using h
  | cons part qs =>
      obtain ⟨m, hm, -⟩ := isDirectory_iff.mp h
      obtain ⟨l, hps, hqs⟩ := walk_append_eq_ok_iff.mp hm
      exact isDirectory_iff.mpr ⟨l, hps, (walk_cons_eq_ok_iff.mp hqs).1⟩

/-- The parts that stay where they are can be left out of a way. -/
theorem walk_filter (h : t.walk l ps = .ok m) :
    t.walk l (ps.filter fun part => part ≠ "" ∧ part ≠ ".") = .ok m := by
  induction ps generalizing l with
  | nil => simpa using h
  | cons part ps ih =>
      obtain ⟨hl, k, hk, hps⟩ := walk_cons_eq_ok_iff.mp h
      by_cases hstay : part = "" ∨ part = "."
      · rw [follow, if_pos hstay] at hk
        cases hk
        rw [List.filter_cons_of_neg (by rcases hstay with rfl | rfl <;> decide)]
        exact ih hps
      · rw [List.filter_cons_of_pos (by simpa [not_or] using hstay)]
        exact walk_cons_eq_ok_iff.mpr ⟨hl, k, hk, ih hps⟩

theorem isDirectory_dropLast (h : t.isDirectory ps = true) : t.isDirectory ps.dropLast = true := by
  by_cases hps : ps = []
  · simpa [hps] using h
  · rw [← List.dropLast_concat_getLast hps] at h
    exact isDirectory_of_append h

theorem isDirectory_above (h : t.isDirectory ps = true) : t.isDirectory (above ps) = true := by
  cases ps with
  | nil => exact h
  | cons first r =>
      obtain ⟨m, hm, hdir⟩ := isDirectory_iff.mp h
      obtain ⟨hroot, k, hk, hr⟩ := walk_cons_eq_ok_iff.mp hm
      refine isDirectory_dropLast (isDirectory_iff.mpr ⟨m, ?_, hdir⟩)
      by_cases hfirst : first = ""
      · rw [follow, if_pos (Or.inl hfirst)] at hk
        cases hk
        rw [if_pos hfirst]
        exact walk_filter hr
      · rw [if_neg hfirst]
        exact walk_cons_eq_ok_iff.mpr ⟨hroot, k, hk, walk_filter hr⟩

end BlockScript.FileTree
