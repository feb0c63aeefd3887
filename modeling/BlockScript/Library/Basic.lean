import BlockScript.Library.Builtin
/-!
# Libraries

A library is the text that a program begins with: a common part and a part for the host that the
program runs on. Each part ends its last line.
-/

namespace BlockScript

structure Library where
  common : String
  localHost : String
  remoteHost : String
deriving DecidableEq, Repr

namespace Library

def builtin : Library := ⟨commonText, localText, remoteText⟩

/-- A text with its last line ended. A text without characters has one empty line. -/
def endLine (s : String) : String :=
  if s.toList.getLast? = some '\n' then s else s ++ "\n"

def source (l : Library) (isLocal : Bool) : String :=
  endLine l.common ++ endLine (if isLocal then l.localHost else l.remoteHost)

end Library

end BlockScript
