import VbaRefactor.File.Disk
import VbaRefactor.File.Sha256
import VbaRefactor.Json.Printer
import VbaRefactor.Json.Reader

/-!
# Backups

Before files are changed they can be copied into a directory of their own, together with a manifest
that lists them with their hashes. `Backup.restore` puts them back; it checks every copy before it
changes anything.
-/

namespace VbaRefactor

open Json (Value)

structure SavedFile where
  /-- The path of the file as seen from the root of the workspace. -/
  path : Path
  hash : Text
  size : Nat
deriving DecidableEq, Repr

structure Manifest where
  id : Text
  operation : Text
  timestamp : Text
  files : List SavedFile
deriving DecidableEq, Repr

namespace SavedFile

def toValue (e : SavedFile) : Value :=
  .record [("original_path", .text e.path.text), ("hash", .text e.hash), ("size", .nat e.size)]

def ofValue? (v : Value) : Option SavedFile := do
  match ← v.fields? ["original_path", "hash", "size"] with
  | [some path, some hash, some size] => return ⟨⟨← path.text?⟩, ← hash.text?, ← size.nat?⟩
  | _ => none

end SavedFile

namespace Manifest

def toValue (m : Manifest) : Value :=
  .record [("operation_id", .text m.id), ("operation", .text m.operation),
    ("timestamp", .text m.timestamp), ("files", .array (m.files.map SavedFile.toValue))]

def ofValue? (v : Value) : Option Manifest := do
  match ← v.fields? ["operation_id", "operation", "timestamp", "files"] with
  | [some id, some operation, some timestamp, some files] =>
    return ⟨← id.text?, ← operation.text?, ← timestamp.text?,
      ← (← files.items?).mapM SavedFile.ofValue?⟩
  | _ => none

def print (m : Manifest) : Text := Json.print m.toValue

def parse? (document : Text) : Option Manifest := Json.read? document >>= ofValue?

def fileName : Text := "manifest.json"

end Manifest

structure Backup where
  root : Path
  directory : Path
  manifest : Manifest
deriving DecidableEq, Repr

namespace Backup

/-- The directory below the root of a workspace that holds its backups. -/
def home : Text := ".vbrewrite-backup"

def manifestPath (b : Backup) : Path := b.directory.join Manifest.fileName

variable {m : Type → Type} [Monad m]

/-- Starts a backup before an operation (`new`). -/
def start (disk : Disk m) (root : Path) (operation : Text) (id? : Option Text) :
    ExceptT Error m Backup := do
  let id ← match id? with
    | some id => pure id
    | none => disk.newId
  let directory := (root.join home).join id
  disk.makeAll directory
  return ⟨root, directory, ⟨id, operation, ← disk.now, []⟩⟩

/-- Copies a file; one that is there already is not copied again (`backup_file`). -/
def add (b : Backup) (disk : Disk m) (file : Path) : ExceptT Error m Backup := do
  match file.relativeTo? b.root with
  | none => throw (.outsideRoot file.text b.root.text)
  | some path =>
    if b.manifest.files.any (·.path.components = path.components) then return b
    let content ← disk.readFile file
    let copy := b.directory.join path.text
    if let some above := copy.parent? then disk.makeAll above
    disk.writeFile copy content
    let entry : SavedFile := ⟨path, sha256 content, content.length⟩
    return { b with manifest := { b.manifest with files := b.manifest.files ++ [entry] } }

/-- Writes the manifest and gives its path (`finalize`). -/
def finish (b : Backup) (disk : Disk m) : ExceptT Error m Path := do
  disk.writeFile b.manifestPath b.manifest.print.encode
  return b.manifestPath

/-- The manifest in a file (`load`). -/
def load (disk : Disk m) (path : Path) : ExceptT Error m Manifest := do
  match Manifest.parse? (← disk.readText path) with
  | some manifest => return manifest
  | none => throw .badManifest

/-- The later of two manifests with their paths; the second one if they are of the same time. -/
def later : Option (Text × Path) → Text × Path → Text × Path
  | none, found => found
  | some best, found => if (Text.order found.1 best.1).isLT then best else found

/-- The latest of the manifests in directories with the given names. -/
def latestIn (disk : Disk m) (directory : Path) (best? : Option (Text × Path)) :
    List Text → ExceptT Error m (Option (Text × Path))
  | [] => return best?
  | name :: rest => do
    let path := (directory.join name).join Manifest.fileName
    if ← disk.isFile path then
      let manifest ← load disk path
      latestIn disk directory (some (later best? (manifest.timestamp, path))) rest
    else latestIn disk directory best? rest

/-- The path of the manifest of the latest backup of a workspace (`latest`). -/
def latest? (disk : Disk m) (root : Path) : ExceptT Error m (Option Path) := do
  let directory := root.join home
  if ← disk.isDirectory directory then
    let best? ← latestIn disk directory none (← disk.list directory)
    return best?.map Prod.snd
  else return none

/-- The copies of a list of entries, each with the path it goes back to. -/
def copies (disk : Disk m) (directory root : Path) :
    List SavedFile → ExceptT Error m (List (Path × Bytes))
  | [] => return []
  | entry :: rest => do
    let content ← disk.readFile (directory.join entry.path.text)
    let hash := sha256 content
    if hash ≠ entry.hash then throw (.hashMismatch entry.path.text entry.hash hash)
    let more ← copies disk directory root rest
    return (root.join entry.path.text, content) :: more

def putBack (disk : Disk m) : List (Path × Bytes) → ExceptT Error m Unit
  | [] => return ()
  | (path, content) :: rest => do
    if let some above := path.parent? then disk.makeAll above
    disk.replaceFile path content "restore"
    putBack disk rest

/-- Restores the files of a backup below a root, and says how many there were
(`restore_from_manifest`). -/
def restore (disk : Disk m) (manifestPath root : Path) : ExceptT Error m Nat := do
  let manifest ← load disk manifestPath
  let files ← copies disk (manifestPath.parent?.getD ⟨[]⟩) root manifest.files
  putBack disk files
  return files.length

end Backup

end VbaRefactor
