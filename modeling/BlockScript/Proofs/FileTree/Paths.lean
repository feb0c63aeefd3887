import BlockScript.FileTree
/-!
# The parts of paths

What the parts of a path say of the path: a slash separates the parts before it from those after it,
so joining a name to a directory joins their parts (`exists_parts_join`), and the last part is empty
just for the empty path and those that end in a slash (`getLast?_parts_eq_empty_iff`).
-/

namespace BlockScript.FileTree

variable {c : Char} {cs ds : List Char} {path dir name : Path}

def pieces (cs : List Char) : List (List Char) :=
  (splitSlashes cs).1 :: (splitSlashes cs).2

theorem parts_eq (path : Path) : parts path = (pieces path.toList).map String.ofList := rfl

@[simp] theorem pieces_nil : pieces [] = [[]] := rfl

@[simp] theorem pieces_slash (cs : List Char) : pieces ('/' :: cs) = [] :: pieces cs := by
  simp [pieces, splitSlashes]

theorem pieces_cons (hc : c ≠ '/') (cs : List Char) :
    pieces (c :: cs) = (c :: (splitSlashes cs).1) :: (splitSlashes cs).2 := by
  simp [pieces, splitSlashes, hc]

theorem pieces_append_slash (cs ds : List Char) :
    pieces (cs ++ '/' :: ds) = pieces cs ++ pieces ds := by
  induction cs with
  | nil => simp
  | cons c cs ih =>
      by_cases hc : c = '/'
      · simp [hc, ih]
      · have hsplit : (splitSlashes (cs ++ '/' :: ds)).1 = (splitSlashes cs).1 ∧
            (splitSlashes (cs ++ '/' :: ds)).2 = (splitSlashes cs).2 ++ pieces ds := by
          simpa [pieces] using ih
        rw [List.cons_append, pieces_cons hc, pieces_cons hc, hsplit.1, hsplit.2, List.cons_append]

theorem getLast?_pieces_ne (hcs : cs ≠ []) (hlast : cs.getLast? ≠ some '/') :
    (pieces cs).getLast? ≠ some [] := by
  induction cs with
  | nil => exact absurd rfl hcs
  | cons c cs ih =>
      by_cases hnil : cs = []
      · have hc : c ≠ '/' := by simpa [hnil] using hlast
        simp [hnil, pieces_cons hc, splitSlashes]
      · rw [List.getLast?_cons_of_ne_nil hnil] at hlast
        have hrest := ih hnil hlast
        by_cases hc : c = '/'
        · rw [hc, pieces_slash, pieces, List.getLast?_cons_cons]
          exact hrest
        · rw [pieces_cons hc]
          rw [pieces] at hrest
          cases hmore : (splitSlashes cs).2 with
          | nil => simp
          | cons piece more =>
              rw [hmore, List.getLast?_cons_cons] at hrest
              rwa [List.getLast?_cons_cons]

theorem getLast?_parts_eq_empty_iff :
    (parts path).getLast? = some "" ↔ path = "" ∨ path.toList.getLast? = some '/' := by
  have hempty : (parts path).getLast? = some "" ↔ (pieces path.toList).getLast? = some [] := by
    rw [parts_eq, List.getLast?_map]
    cases (pieces path.toList).getLast? with
    | none => simp
    | some piece => simp [← String.toList_inj]
  rw [hempty]
  constructor
  · intro hlast
    by_cases hpath : path = ""
    · exact Or.inl hpath
    · refine Or.inr (Decidable.byContradiction fun hslash => ?_)
      exact getLast?_pieces_ne (fun hnil => hpath (String.toList_inj.mp hnil)) hslash hlast
  · rintro (rfl | hslash)
    · rfl
    · obtain ⟨cs, hcs⟩ := List.getLast?_eq_some_iff.mp hslash
      rw [hcs, pieces_append_slash, pieces_nil, List.getLast?_concat]

theorem parts_ne_nil (path : Path) : parts path ≠ [] := by
  simp [parts_eq, pieces]

/-- A path has a part after the slashes, the last. -/
theorem exists_parts_eq_concat (path : Path) : ∃ qs last, parts path = qs ++ [last] :=
  ⟨_, _, (List.dropLast_concat_getLast (parts_ne_nil path)).symm⟩

theorem withoutFinalSlashes_concat {last : String} (h : last ≠ "") (qs : List String) :
    withoutFinalSlashes (qs ++ [last]) = qs ++ [last] := by
  simp [withoutFinalSlashes, h]

/-- The parts of a name follow those of its directory, except for an empty one at their end. -/
theorem exists_parts_join (hdir : dir ≠ "") (hname : name.toList.head? ≠ some '/') :
    ∃ ps, (parts dir = ps ∨ parts dir = ps ++ [""]) ∧
      parts (Path.join dir name) = ps ++ parts name := by
  unfold Path.join
  rw [if_neg hname]
  by_cases hslash : dir.toList.getLast? = some '/'
  · obtain ⟨cs, hcs⟩ := List.getLast?_eq_some_iff.mp hslash
    refine ⟨(pieces cs).map String.ofList, Or.inr ?_, ?_⟩
    · rw [parts_eq, hcs, pieces_append_slash, List.map_append]
      rfl
    · rw [if_pos (Or.inr hslash), parts_eq, String.toList_append, hcs, List.append_assoc,
        List.singleton_append, pieces_append_slash, List.map_append, parts_eq]
  · refine ⟨parts dir, Or.inl rfl, ?_⟩
    rw [if_neg (not_or.mpr ⟨hdir, hslash⟩), parts_eq, String.toList_append, String.toList_append,
      List.append_assoc]
    exact (congrArg _ (pieces_append_slash dir.toList name.toList)).trans (by
      rw [List.map_append, parts_eq, parts_eq])

end BlockScript.FileTree
