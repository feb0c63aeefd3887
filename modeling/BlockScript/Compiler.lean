import BlockScript.FileTree
import BlockScript.Request
/-!
# Compilers

A compiler has a configuration and a library. It gives the text of a program, or writes it to the
file that the configuration names. The file is written in one piece after the whole program has
been generated, so a request whose program cannot be generated leaves all files as they are.
-/

namespace BlockScript

def Error.onFile {α : Type} (path : Path) (x : Except FileFault α) : Except Error α :=
  x.mapError (.file path)

namespace Library

/-- The names of the three files of a library. -/
def commonFile : String := "common.js"

def localFile : String := "local.js"

def remoteFile : String := "remote.js"

def load (files : FileTree) (dir : Path) : Except Error Library := do
  let read (name : String) : Except Error String :=
    let path := Path.join dir name
    Error.onFile path (files.readText path)
  let common ← read commonFile
  let localHost ← read localFile
  let remoteHost ← read remoteFile
  pure ⟨common, localHost, remoteHost⟩

end Library

structure Compiler where
  config : Configuration
  library : Library
deriving DecidableEq, Repr

namespace Compiler

def standard : Compiler := ⟨.standard, .builtin⟩

def ofConfiguration (files : FileTree) (config : Configuration) : Except Error Compiler := do
  match config.libraryDir with
  | none => pure ⟨config, .builtin⟩
  | some dir => do
    let library ← Library.load files dir
    pure ⟨config, library⟩

def generate (c : Compiler) (r : Request) : Outcome String :=
  r.generate c.library

/-- Writes a text to the configured path, whose directory is made if it is missing. -/
def write (c : Compiler) (files : FileTree) (text : String) : FileTree × Except Error Unit :=
  match files.makeDirectories c.config.outputDir with
  | (files, .error e) => (files, .error (.file c.config.outputDir e))
  | (files, .ok _) =>
    match files.writeFile c.config.outputPath text.toUTF8 with
    | .error e => (files, .error (.file c.config.outputPath e))
    | .ok files => (files, .ok ())

def compile (c : Compiler) (r : Request) (files : FileTree) : FileTree × Outcome Path :=
  match c.generate r with
  | ⟨log, .error e⟩ => (files, ⟨log, .error e⟩)
  | ⟨log, .ok text⟩ =>
    match c.write files text with
    | (files, .error e) => (files, ⟨log, .error e⟩)
    | (files, .ok _) =>
      let path := c.config.outputPath
      (files, ⟨log ++ [.compiled path text.utf8ByteSize], .ok path⟩)

end Compiler

end BlockScript
