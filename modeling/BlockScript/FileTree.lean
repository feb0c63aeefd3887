import BlockScript.Configuration
/-!
# File trees

The files that the library works on, as a value: directories and files by location, below a root
that is always a directory. The operations take paths as they are written and refuse what a file
system refuses. An operation that fails part of the way keeps what it has done.
-/

namespace BlockScript

inductive Entry where
  | file (content : ByteArray)
  | directory

instance : DecidableEq Entry
  | .directory, .directory => isTrue rfl
  | .directory, .file _ => isFalse Entry.noConfusion
  | .file _, .directory => isFalse Entry.noConfusion
  | .file a, .file b =>
    match ByteArray.instDecidableEq a b with
    | isTrue h => isTrue (congrArg Entry.file h)
    | isFalse h => isFalse fun heq => h (Entry.file.inj heq)

/-- The names on the way from the root to an entry. -/
abbrev Location := List String

/-- The entries below the root. -/
structure FileTree where
  entries : List (Location × Entry)

namespace FileTree

def empty : FileTree := ⟨[]⟩

def get? (t : FileTree) (l : Location) : Option Entry :=
  if l = [] then some .directory else t.entries.lookup l

def put (t : FileTree) (l : Location) (e : Entry) : FileTree :=
  ⟨(l, e) :: t.entries.filter fun (k, _) => k ≠ l⟩

theorem get?_put_self (t : FileTree) {l : Location} (h : l ≠ []) (e : Entry) :
    (t.put l e).get? l = some e := by
  simp [put, get?, h]

private theorem lookup_filter_ne {l m : Location} (h : m ≠ l) (entries : List (Location × Entry)) :
    (entries.filter fun (k, _) => k ≠ l).lookup m = entries.lookup m := by
  induction entries with
  | nil => rfl
  | cons kv r ih =>
    obtain ⟨k, v⟩ := kv
    by_cases hk : k = l
    · have hm : (m == k) = false := by simp [hk, h]
      rw [List.lookup_cons, hm, ← ih]
      simp [hk]
    · rw [List.filter_cons_of_pos (by simpa using hk), List.lookup_cons, List.lookup_cons, ih]

theorem get?_put_of_ne (t : FileTree) {l m : Location} (h : m ≠ l) (e : Entry) :
    (t.put l e).get? m = t.get? m := by
  have hm : (m == l) = false := by simp [h]
  by_cases hr : m = []
  · simp [get?, hr]
  · have := lookup_filter_ne h t.entries
    simp only [get?, hr, put, List.lookup_cons, hm, if_false]
    exact this

/-- The part of a path before its first slash, and the parts after it. -/
def splitSlashes : List Char → List Char × List (List Char)
  | [] => ([], [])
  | c :: r =>
    let (first, rest) := splitSlashes r
    if c = '/' then ([], first :: rest) else (c :: first, rest)

def parts (path : Path) : List String :=
  let (first, rest) := splitSlashes path.toList
  (first :: rest).map String.ofList

def nameLimit : Nat := 255

def pathLimit : Nat := 4095

def checkName (name : String) : Except FileFault Unit :=
  if nameLimit < name.utf8ByteSize then .error .nameTooLong else .ok ()

/-- Follows the parts of a path from a location. Each part needs a directory to start from; the
location at the end may be empty. -/
def walk (t : FileTree) : Location → List String → Except FileFault Location
  | l, [] => .ok l
  | l, part :: r =>
    match t.get? l with
    | none => .error .notFound
    | some (.file _) => .error .notDirectory
    | some .directory =>
      if part = "" ∨ part = "." then t.walk l r
      else if part = ".." then t.walk l.dropLast r
      else do
        checkName part
        t.walk (l ++ [part]) r

/-- Whether a path can be handed to the file system: it holds no NUL, is not empty and not too
long. -/
def checkPath (path : Path) : Except FileFault Unit :=
  if path.toList.contains '\x00' then .error .badPath
  else if path = "" then .error .notFound
  else if pathLimit < path.utf8ByteSize then .error .nameTooLong
  else .ok ()

def withoutFinalSlashes (parts : List String) : List String :=
  (parts.reverse.dropWhile (· == "")).reverse

/-- The location of the directory that holds the last part, and the last part. The directory has to
exist. A path of slashes has no last part. -/
def locateLast (t : FileTree) (parts : List String) : Except FileFault (Location × Option String) :=
  match (withoutFinalSlashes parts).reverse with
  | [] => .ok ([], none)
  | last :: r => do
    let l ← t.walk [] (r.reverse ++ [""])
    pure (l, if last = "." ∨ last = ".." then none else some last)

def makeDirectory (t : FileTree) (parts : List String) : Except FileFault FileTree := do
  match ← t.locateLast parts with
  | (_, none) => throw .alreadyExists
  | (l, some last) =>
    checkName last
    match t.get? (l ++ [last]) with
    | some _ => throw .alreadyExists
    | none => pure (t.put (l ++ [last]) .directory)

def isDirectory (t : FileTree) (parts : List String) : Bool :=
  match t.walk [] parts with
  | .ok l => t.get? l = some .directory
  | .error _ => false

/-- The parts that name the directory above, without those that stay where they are. -/
def above (parts : List String) : List String :=
  match parts with
  | [] => []
  | first :: r =>
    let r := r.filter fun part => part ≠ "" ∧ part ≠ "."
    (if first = "" then r else first :: r).dropLast

def makeDirectoriesWithin : Nat → FileTree → List String → FileTree × Except FileFault Unit
  | 0, t, _ => (t, .ok ())
  | fuel + 1, t, parts =>
    match t.makeDirectory parts with
    | .ok t => (t, .ok ())
    | .error .notFound =>
      let up := above parts
      match if up = [] then (t, .ok ()) else makeDirectoriesWithin fuel t up with
      | (t, .error e) => (t, .error e)
      | (t, .ok _) =>
        match t.makeDirectory parts with
        | .ok t => (t, .ok ())
        | .error e => (t, if t.isDirectory parts then .ok () else .error e)
    | .error e => (t, if t.isDirectory parts then .ok () else .error e)

/-- Makes a directory and those above it that are missing. The empty path names the root. -/
def makeDirectories (t : FileTree) (path : Path) : FileTree × Except FileFault Unit :=
  if path = "" then (t, .ok ())
  else
    match checkPath path with
    | .error e => (t, .error e)
    | .ok _ => makeDirectoriesWithin ((parts path).length + 1) t (parts path)

def writeFile (t : FileTree) (path : Path) (content : ByteArray) : Except FileFault FileTree := do
  checkPath path
  let (l, last) ← t.locateLast (parts path)
  match last with
  | none => throw .isDirectory
  | some last =>
    if path.toList.getLast? = some '/' then throw .isDirectory
    else do
      checkName last
      if t.get? (l ++ [last]) = some .directory then throw .isDirectory
      else pure (t.put (l ++ [last]) (.file content))

def readFile (t : FileTree) (path : Path) : Except FileFault ByteArray := do
  checkPath path
  let l ← t.walk [] (parts path)
  match t.get? l with
  | none => throw .notFound
  | some .directory => throw .isDirectory
  | some (.file content) => pure content

def readText (t : FileTree) (path : Path) : Except FileFault String := do
  let content ← t.readFile path
  match String.fromUTF8? content with
  | some s => pure s
  | none => throw .badEncoding

/-- The path of an entry; that of a directory ends in a slash. -/
def pathOf : Location × Entry → String
  | (l, .file _) => "/".intercalate l
  | (l, .directory) => "/".intercalate l ++ "/"

def bytesLe : List UInt8 → List UInt8 → Bool
  | [], _ => true
  | _ :: _, [] => false
  | a :: r, b :: s => if a = b then bytesLe r s else a < b

def list (t : FileTree) : List String :=
  (t.entries.map pathOf).mergeSort fun a b => bytesLe a.toUTF8.toList b.toUTF8.toList

end FileTree

end BlockScript
