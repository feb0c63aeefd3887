import BlockScript.Error
import BlockScript.Json.Codec
/-!
# Configurations

Where compiled programs are written, and from where another library is loaded.
-/

namespace BlockScript

abbrev Path := String

/-- The path of a name below a directory. An absolute name stands for itself; otherwise one slash
separates the two unless the directory is empty or already ends in one. -/
def Path.join (dir name : Path) : Path :=
  if name.toList.head? = some '/' then name
  else if dir = "" ∨ dir.toList.getLast? = some '/' then dir ++ name
  else dir ++ "/" ++ name

/-- Where compiled programs are written and which library they get. -/
structure Configuration where
  outputDir : Path
  fileName : String
  /-- The directory of a library that replaces the built-in one. -/
  libraryDir : Option Path
deriving DecidableEq, Repr

namespace Configuration

def standard : Configuration := ⟨"Compiled", "BhAppScript.js", none⟩

def ofDir (dir : Path) : Configuration :=
  { standard with outputDir := dir }

def outputPath (c : Configuration) : Path :=
  Path.join c.outputDir c.fileName

def fields : Json.Fields [Path, String, Option Path] :=
  (.withDefault "output_dir" (.text "path string") standard.outputDir,
    .withDefault "app_file_name" .string standard.fileName,
    .optional "runtime_dir" (.text "path string"), ())

/-- A configuration as a document, of which any field may be missing. -/
def codec : Json.Codec Configuration :=
  .record "struct CompilerConfig" fields
    (fun (outputDir, fileName, libraryDir, _) => ⟨outputDir, fileName, libraryDir⟩)
    fun c => (c.outputDir, c.fileName, c.libraryDir, ())

def toJson (c : Configuration) : String :=
  String.ofList (codec.encode c).compact

def ofJson (s : String) : Except Error Configuration :=
  (codec.parse s).mapError .config

end Configuration

end BlockScript
