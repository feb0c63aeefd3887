import BlockScript.Configuration
import BlockScript.Proofs.Json.Codec
/-!
# Configurations with fields left out

A configuration is read from the document that is written for it.  Any of the members of that
document may be left out, and the others may stand in any order: it then reads as the configuration
that holds the standard values in the fields that were left out (`ofJson_withoutFields`).
-/

namespace BlockScript.Configuration

open Json

def members (c : Configuration) : List (String × Value) :=
  ("output_dir", .string c.outputDir) :: ("app_file_name", .string c.fileName) ::
    c.libraryDir.toList.map fun dir => ("runtime_dir", .string dir)

/-- The configuration with the standard values in the fields of these names. -/
def without (c : Configuration) (names : List String) : Configuration where
  outputDir := if "output_dir" ∈ names then standard.outputDir else c.outputDir
  fileName := if "app_file_name" ∈ names then standard.fileName else c.fileName
  libraryDir := if "runtime_dir" ∈ names then standard.libraryDir else c.libraryDir

def shapes : List (FieldShape Shape) :=
  [.withDefault "output_dir" .plain (.string standard.outputDir),
    .withDefault "app_file_name" .plain (.string standard.fileName),
    .withDefault "runtime_dir" (.option .plain) .null]

variable {c : Configuration} {names : List String} {ms : List (String × Value)}

theorem encode_eq (c : Configuration) : codec.encode c = .object c.members := by
  obtain ⟨outputDir, fileName, libraryDir⟩ := c
  cases libraryDir <;> rfl

@[simp] theorem without_nil (c : Configuration) : c.without [] = c := by
  simp [without]

theorem tolerates_fields : fields.Tolerates shapes := by
  have hdir : (Codec.text "path string").option.Tolerates (.option .plain) :=
    (Codec.tolerates_text _).option fun _ h => by nomatch h
  exact ⟨.withDefault _ (Codec.tolerates_text _) _, by decide,
    .withDefault _ Codec.tolerates_string _, by decide, .optional _ hdir, by decide, trivial⟩

theorem tolerates_codec : codec.Tolerates (.record shapes) :=
  Codec.tolerates_record _ tolerates_fields fun _ => rfl

theorem absent_ne_none {g : FieldShape Shape} (hg : g ∈ shapes) : g.absent ≠ none := by
  simp only [shapes, List.mem_cons, List.not_mem_nil, or_false] at hg
  rcases hg with rfl | rfl | rfl <;> exact Option.some_ne_none _

/-- What is left of the members that are written comes from the object that is written for the
configuration with the standard values. -/
theorem varies_without (h : ms.Perm (c.members.filter fun m => m.1 ∉ names)) :
    Varies (.record shapes) (codec.encode (c.without names)) (Value.object ms).document := by
  have hwritten : fields.write (c.outputDir, c.fileName, c.libraryDir, ()) = c.members :=
    Value.object.inj (encode_eq c)
  rw [← hwritten] at h
  exact Fields.varies_without tolerates_fields names (fun _ hg _ => absent_ne_none hg) _ h

theorem toJson_eq (c : Configuration) :
    c.toJson = String.ofList (Value.object c.members).compact := by
  rw [toJson, encode_eq]

theorem ofJson_of_isText (h : ms.Perm (c.members.filter fun m => m.1 ∉ names))
    {t w w' : List Char} (ht : IsText t (Value.object ms).document) (hw : Spaces w)
    (hw' : Spaces w') : ofJson (String.ofList (w ++ (t ++ w'))) = .ok (c.without names) := by
  rw [ofJson, Codec.parse_of_varies tolerates_codec (varies_without h) ht hw hw']
  rfl

theorem ofJson_compact (h : ms.Perm (c.members.filter fun m => m.1 ∉ names)) :
    ofJson (String.ofList (Value.object ms).compact) = .ok (c.without names) := by
  have hread := ofJson_of_isText h (Value.isText_compact _) spaces_nil spaces_nil
  rwa [List.nil_append, List.append_nil] at hread

/-- The text of a configuration has its members, and the configuration is read from it.  Without the
members of any names, and with the others in any order, every text of the object reads as the
configuration with the standard values in the fields of these names. -/
theorem ofJson_withoutFields (c : Configuration) :
    c.toJson = String.ofList (Value.object c.members).compact ∧ ofJson c.toJson = .ok c ∧
      ∀ (names : List String) {ms : List (String × Value)},
        ms.Perm (c.members.filter fun m => m.1 ∉ names) →
          ofJson (String.ofList (Value.object ms).compact) = .ok (c.without names) ∧
            ∀ {t w w' : List Char}, IsText t (Value.object ms).document → Spaces w → Spaces w' →
              ofJson (String.ofList (w ++ (t ++ w'))) = .ok (c.without names) := by
  refine ⟨toJson_eq c, ?_, fun names ms h => ⟨ofJson_compact h, ofJson_of_isText h⟩⟩
  have hnone : c.members.filter (fun m => m.1 ∉ ([] : List String)) = c.members :=
    List.filter_eq_self.mpr fun _ _ => decide_eq_true List.not_mem_nil
  have hread := ofJson_compact (.of_eq hnone.symm)
  rwa [without_nil, ← toJson_eq] at hread

/-- Two of three members in the other order, with characters that are escaped: without blanks, and
with a line for each member and a line break at the end. -/
theorem ofJson_withoutFields_reordered :
    let c : Configuration := ⟨"a\\b", "\"run\".js", some "lib\n"⟩
    let ms : List (String × Value) :=
      [("runtime_dir", .string "lib\n"), ("output_dir", .string "a\\b")]
    ms.Perm (c.members.filter fun m => m.1 ∉ ["app_file_name"]) ∧
      String.ofList (Value.object ms).compact =
        "\x7b\"runtime_dir\":\"lib\\n\",\"output_dir\":\"a\\\\b\"\x7d" ∧
      ofJson (String.ofList (Value.object ms).compact) =
        .ok ⟨"a\\b", "BhAppScript.js", some "lib\n"⟩ ∧
      ofJson (String.ofList ([] ++ ((Value.object ms).pretty ++ ['\n']))) =
        .ok ⟨"a\\b", "BhAppScript.js", some "lib\n"⟩ := by
  intro c ms
  have hperm : ms.Perm (c.members.filter fun m => m.1 ∉ ["app_file_name"]) := .swap _ _ _
  have hbreak : Spaces ['\n'] := List.forall_mem_singleton.mpr rfl
  obtain ⟨hcompact, htext⟩ := (ofJson_withoutFields c).2.2 ["app_file_name"] hperm
  exact ⟨hperm, rfl, hcompact, htext (Value.isText_prettyAt 0 _) spaces_nil hbreak⟩

end BlockScript.Configuration
