import VbaRefactor.Backup
import VbaRefactor.File.Glob
import VbaRefactor.Outcome

/-!
# Workspaces

A workspace is a directory with one file for each module: `.bas` files are standard modules and `.cls`
files are class modules. Changes are written to all files or to none: what was written before a
failure is put back.
-/

namespace VbaRefactor

def moduleKind? (file : Path) : Option ModuleKind :=
  match file.extension?.map fun e => String.ofList e.fold with
  | some "bas" => some .standard
  | some "cls" => some .classModule
  | _ => none

structure Workspace where
  root : Path
  /-- The name of the project that all modules belong to. -/
  name : Text
  files : ModuleMap Path
  project : Project

structure FileWrite where
  module : ModuleName
  file : Path
  before : Bytes
  beforeHash : Text
  afterHash : Text
deriving DecidableEq, Repr

namespace Workspace

def defaultName : Text := "VBAProject"

variable {m : Type → Type} [Monad m]

/-- Reads the modules among a list of files, beside those read so far. -/
def readModules (disk : Disk m) (name : Text) (files : ModuleMap Path) (sources : List Source) :
    List Path → ExceptT Error m (ModuleMap Path × List Source)
  | [] => return (files, sources)
  | path :: rest =>
    match moduleKind? path, path.stem?, path.passes Backup.home with
    | some kind, some component, false => do
      let id : ModuleName := ⟨name, component⟩
      if let some other := files.get? id then throw (.exportedTwice id other.text path.text)
      let text ← disk.readText path
      readModules disk name (files.insert id path) (sources ++ [⟨id, kind, text⟩]) rest
    | _, _, _ => readModules disk name files sources rest

/-- Reads the modules of a directory whose files match a pattern (`load_modules`). -/
def load (disk : Disk m) (root : Path) (pattern : Text) : ExceptT Error m Workspace := do
  let name := (← disk.ownName? root).getD defaultName
  match Glob.parse (root.join pattern).text with
  | .error fault => throw (.badPattern pattern fault.position fault.problem)
  | .ok glob =>
    let paths ← (Glob.search disk glob : m (List Path))
    let (files, sources) ← readModules disk name [] [] paths
    match Project.read sources with
    | .error e => throw e
    | .ok project => return ⟨root, name, files, project⟩

/-- The files that changes go to, with their contents before. -/
def planWrites (w : Workspace) (disk : Disk m) :
    List (ModuleName × Text) → ExceptT Error m (List FileWrite × List Text)
  | [] => return ([], [])
  | (module, text) :: rest =>
    match w.files.get? module with
    | none => throw (.moduleNotFound module.shown)
    | some file => do
      let before ← disk.readFile file
      let (writes, texts) ← planWrites w disk rest
      return (⟨module, file, before, sha256 before, sha256 text.encode⟩ :: writes, text :: texts)

/-- Puts back the contents before, the last file first. A file for which that fails is left
(`rollback_files`). -/
def rollBack (disk : Disk m) : List FileWrite → m Unit
  | [] => return ()
  | write :: rest => do
    let _ ← (disk.replaceFile write.file write.before "rollback").run
    rollBack disk rest

/-- Copies a file into a backup if there is one, and gives it its new content. -/
def writeOne (disk : Disk m) (backup? : Option Backup) (write : FileWrite) (text : Text) :
    ExceptT Error m (Option Backup) := do
  let backup? ← match backup? with
    | some backup => some <$> backup.add disk write.file
    | none => pure none
  disk.replaceFile write.file text.encode "vbrewrite"
  return backup?

/-- Writes files one after another; those written so far are given, the last one first. -/
def writeAll (disk : Disk m) (backup? : Option Backup) (done : List FileWrite) :
    List (FileWrite × Text) → ExceptT Error m (Option Backup)
  | [] => return backup?
  | (write, text) :: rest => ExceptT.mk do
    match ← (writeOne disk backup? write text).run with
    | .ok backup? => (writeAll disk backup? (write :: done) rest).run
    | .error e =>
      rollBack disk done
      return .error e

/-- Writes changes to the files of their modules, with copies into a backup if there is one
(`apply_result`). -/
def apply (w : Workspace) (disk : Disk m) (changes : Changes) (backup? : Option Backup) :
    ExceptT Error m (List FileWrite × Option Backup) := do
  let (writes, texts) ← planWrites w disk changes
  let backup? ← writeAll disk backup? [] (writes.zip texts)
  return (writes, backup?)

end Workspace

end VbaRefactor
