import BlockScript.Compiler
import BlockScript.Proofs.FileTree.Writing
/-!
# Runs of a compiler

A compiler that gets one request after another.  A request is answered with the path just if its
program is generated and written; any other leaves the output file alone (`effect_compile`).  So at
any time that file holds the text of the latest request that was answered with the path, or what it
held at the start (`output_compileAll`).
-/

namespace BlockScript.Compiler

variable {c : Compiler} {r : Request} {rs : List Request} {t u v : FileTree} {text : String}

/-! ## One request -/

/-- The output file is left alone: every file keeps its place and content, and the output path leads
to the same content as before, or to none as before.  An absolute name need not lie in the output
directory; its path may lead through a directory that was made, to a file that was there before. -/
structure KeepsOutput (c : Compiler) (t u : FileTree) : Prop extends t.Extends u where
  read : ∀ content, t.readFile c.config.outputPath = .ok content →
    u.readFile c.config.outputPath = .ok content
  unread : c.config.fileName.toList.head? ≠ some '/' → ∀ content,
    u.readFile c.config.outputPath = .ok content → t.readFile c.config.outputPath = .ok content

theorem KeepsOutput.refl (c : Compiler) (t : FileTree) : c.KeepsOutput t t :=
  ⟨.refl t, fun _ h => h, fun _ _ h => h⟩

theorem KeepsOutput.trans (h : c.KeepsOutput t u) (h' : c.KeepsOutput u v) : c.KeepsOutput t v :=
  ⟨h.toExtends.trans h'.toExtends, fun content hread => h'.read content (h.read content hread),
    fun hname content hread => h.unread hname content (h'.unread hname content hread)⟩

/-- Directories alone do not change the output file if it cannot be read at last. -/
theorem keepsOutput_of_extends (h : t.Extends u)
    (hunread : c.config.fileName.toList.head? ≠ some '/' → ∀ content,
      u.readFile c.config.outputPath ≠ .ok content) : c.KeepsOutput t u :=
  ⟨h, fun _ hread => h.readFile hread,
    fun hname content hread => absurd hread (hunread hname content)⟩

/-- What one request does to the files, and how it is answered. -/
inductive Effect (c : Compiler) (r : Request) (before : FileTree) :
    FileTree → Except Error Path → Prop where
  | written {after : FileTree} {text : String} (htext : (c.generate r).result = .ok text)
      (hread : after.readFile c.config.outputPath = .ok text.toUTF8) :
      Effect c r before after (.ok c.config.outputPath)
  | refused {e : Error} (he : (c.generate r).result = .error e) :
      Effect c r before before (.error e)
  | noDirectory {after : FileTree} {text : String} {fault : FileFault}
      (htext : (c.generate r).result = .ok text)
      (hmake : before.makeDirectories c.config.outputDir = (after, .error fault))
      (hkeeps : c.KeepsOutput before after) :
      Effect c r before after (.error (.file c.config.outputDir fault))
  | noFile {after : FileTree} {text : String} {fault : FileFault}
      (htext : (c.generate r).result = .ok text)
      (hmake : before.makeDirectories c.config.outputDir = (after, .ok ()))
      (hwrite : after.writeFile c.config.outputPath text.toUTF8 = .error fault)
      (hkeeps : c.KeepsOutput before after) :
      Effect c r before after (.error (.file c.config.outputPath fault))

theorem keepsOutput_of_makeDirectories {fault : FileFault}
    (h : t.makeDirectories c.config.outputDir = (u, .error fault)) : c.KeepsOutput t u := by
  rcases FileTree.eq_or_isDirectory_of_makeDirectories h with rfl | ⟨hdir, hmissing⟩
  · exact KeepsOutput.refl c u
  · have hmore := FileTree.extends_makeDirectories t c.config.outputDir
    rw [h] at hmore
    exact keepsOutput_of_extends hmore fun hname content =>
      FileTree.readFile_join_of_isDirectory hdir hname hmissing

theorem keepsOutput_of_writeFile {content : ByteArray} {fault : FileFault} (h : t.Extends u)
    (hwrite : u.writeFile c.config.outputPath content = .error fault) : c.KeepsOutput t u := by
  refine keepsOutput_of_extends h fun _ old hread => ?_
  obtain ⟨v, hv⟩ := FileTree.exists_writeFile_of_readFile hread content
  rw [hwrite] at hv
  cases hv

theorem effect_compile (c : Compiler) (r : Request) (t : FileTree) :
    c.Effect r t (c.compile r t).1 (c.compile r t).2.result := by
  unfold compile
  cases hgen : c.generate r with | mk log result =>
  cases result with
  | error e => exact .refused (by rw [hgen])
  | ok text =>
      have htext : (c.generate r).result = .ok text := by rw [hgen]
      dsimp only [write]
      cases hmake : t.makeDirectories c.config.outputDir with | mk u made =>
      cases made with
      | error fault => exact .noDirectory htext hmake (keepsOutput_of_makeDirectories hmake)
      | ok _ =>
          have hmore : t.Extends u := by
            simpa [hmake] using FileTree.extends_makeDirectories t c.config.outputDir
          dsimp only
          cases hwrite : u.writeFile c.config.outputPath text.toUTF8 with
          | error fault => exact .noFile htext hmake hwrite (keepsOutput_of_writeFile hmore hwrite)
          | ok v => exact .written htext (FileTree.readFile_of_writeFile hwrite)

/-! ## One request after another -/

def compileAll (c : Compiler) : List Request → FileTree → FileTree × List (Except Error Path)
  | [], files => (files, [])
  | r :: rs, files =>
    let (files, outcome) := c.compile r files
    let (files, answers) := c.compileAll rs files
    (files, outcome.result :: answers)

theorem compileAll_cons (c : Compiler) (r : Request) (rs : List Request) (t : FileTree) :
    c.compileAll (r :: rs) t =
      ((c.compileAll rs (c.compile r t).1).1,
        (c.compile r t).2.result :: (c.compileAll rs (c.compile r t).1).2) := rfl

theorem compileAll_append (c : Compiler) (rs rs' : List Request) (t : FileTree) :
    c.compileAll (rs ++ rs') t =
      ((c.compileAll rs' (c.compileAll rs t).1).1,
        (c.compileAll rs t).2 ++ (c.compileAll rs' (c.compileAll rs t).1).2) := by
  induction rs generalizing t with
  | nil => rfl
  | cons r rs ih => rw [List.cons_append, compileAll_cons, compileAll_cons, ih, List.cons_append]

def textWritten? (c : Compiler) (r : Request) : Except Error Path → Option String
  | .ok _ => (c.generate r).result.toOption
  | .error _ => none

def latestText? (c : Compiler) (rs : List Request) (files : FileTree) : Option String :=
  (rs.zip (c.compileAll rs files).2).reverse.findSome? fun answered =>
    c.textWritten? answered.1 answered.2

theorem latestText?_cons (c : Compiler) (r : Request) (rs : List Request) (t : FileTree) :
    c.latestText? (r :: rs) t = (c.latestText? rs (c.compile r t).1).or
      (c.textWritten? r (c.compile r t).2.result) := by
  unfold latestText?
  rw [compileAll_cons, List.zip_cons_cons, List.reverse_cons, List.findSome?_append]
  simp

/-- What the output file holds: the text that was written last, or what it held before. -/
def Output (c : Compiler) (before after : FileTree) : Option String → Prop
  | some text => after.readFile c.config.outputPath = .ok text.toUTF8
  | none => c.KeepsOutput before after

theorem Effect.output {answer : Except Error Path} (h : c.Effect r t u answer) :
    c.Output t u (c.textWritten? r answer) := by
  cases h with
  | written htext hread =>
      rw [textWritten?, htext]
      exact hread
  | refused _ => exact KeepsOutput.refl c t
  | noDirectory _ _ hkeeps | noFile _ _ _ hkeeps => exact hkeeps

theorem Output.trans {first last : Option String} (h : c.Output t u first)
    (h' : c.Output u v last) : c.Output t v (last.or first) := by
  cases last with
  | some text => exact h'
  | none =>
      cases first with
      | some text => exact h'.read _ h
      | none => exact KeepsOutput.trans h h'

/-- Each request has one of four effects, and after any number of them the output file holds the
text that was written last. -/
theorem output_compileAll (c : Compiler) (rs : List Request) (files : FileTree) :
    (∀ r before, c.Effect r before (c.compile r before).1 (c.compile r before).2.result) ∧
      c.Output files (c.compileAll rs files).1 (c.latestText? rs files) := by
  refine ⟨effect_compile c, ?_⟩
  induction rs generalizing files with
  | nil => exact KeepsOutput.refl c files
  | cons r rs ih =>
      rw [latestText?_cons, compileAll_cons]
      exact (effect_compile c r files).output.trans (ih (c.compile r files).1)

end BlockScript.Compiler
