import BlockScript.Json.Codec
/-!
# Options

The switches that change the generated program.
-/

namespace BlockScript

structure Options where
  /-- The program runs on the editor's machine, not on a connected device. -/
  isLocal : Bool
  /-- The program records its calls while it runs. -/
  isDebug : Bool
  /-- A result that is no finite number is replaced by the left operand. -/
  guardsArithmetic : Bool
  /-- Declarations carry the names that the user gave them. -/
  withComments : Bool
deriving DecidableEq, Repr

namespace Options

def standard : Options := ⟨true, false, true, false⟩

def fields : Json.Fields [Bool, Bool, Bool, Bool] :=
  (.withDefault "local" .bool standard.isLocal, .withDefault "is_debug" .bool standard.isDebug,
    .withDefault "handle_exception" .bool standard.guardsArithmetic,
    .withDefault "with_comments" .bool standard.withComments, ())

/-- Options as a document, of which any field may be missing. -/
def codec : Json.Codec Options :=
  .record "struct CompileOption" fields
    (fun (isLocal, isDebug, guards, comments, _) => ⟨isLocal, isDebug, guards, comments⟩)
    fun o => (o.isLocal, o.isDebug, o.guardsArithmetic, o.withComments, ())

def toJson (o : Options) : String :=
  String.ofList (codec.encode o).compact

def ofJson (s : String) : Except Json.Fault Options :=
  codec.parse s

end Options

end BlockScript
