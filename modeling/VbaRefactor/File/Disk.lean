import VbaRefactor.File.Tree

/-!
# Disks

What is needed of a file system, over any monad: the same code runs on a real disk and on a
`FileTree`, where it can be reasoned about. Operations give a fault or a result; `Disk.readFile` and
the like make the fault an error about the path.
-/

namespace VbaRefactor

structure Disk (m : Type → Type) where
  read : Path → m (Except FileFault Bytes)
  /-- Gives a file a content; the file is made if it is not there. -/
  write : Path → Bytes → m (Except FileFault Unit)
  /-- Gives a file another path, at once, in place of a file that may be there. -/
  rename : Path → Path → m (Except FileFault Unit)
  makeDirectories : Path → m (Except FileFault Unit)
  isFile : Path → m Bool
  isDirectory : Path → m Bool
  /-- The names in a directory, in order. -/
  list : Path → m (List Text)
  /-- The name under which a directory stands in the one above it. -/
  ownName? : Path → m (Option Text)
  /-- A name that was never given before. -/
  newId : m Text
  /-- The time, such as `2024-01-02T03:04:05Z`. -/
  now : m Text

namespace Disk

variable {m : Type → Type} [Monad m] {α : Type}

/-- The result of an operation on a path, or the error that it failed. -/
def attempt (p : Path) (action : m (Except FileFault α)) : ExceptT Error m α :=
  ExceptT.mk do
    match ← action with
    | .ok a => return .ok a
    | .error fault => return .error (.file p.text fault)

def readFile (disk : Disk m) (p : Path) : ExceptT Error m Bytes := attempt p (disk.read p)

def readText (disk : Disk m) (p : Path) : ExceptT Error m Text := do
  let bytes ← disk.readFile p
  match Text.decode? bytes with
  | some text => return text
  | none => throw (.file p.text .notText)

def writeFile (disk : Disk m) (p : Path) (content : Bytes) : ExceptT Error m Unit :=
  attempt p (disk.write p content)

def makeAll (disk : Disk m) (p : Path) : ExceptT Error m Unit := attempt p (disk.makeDirectories p)

/-- The file beside a file in which its new content is prepared (`temp_path_for`). -/
def preparedPath (p : Path) (purpose : Text) : Path :=
  (p.parent?.getD ⟨[]⟩).join (.concat [".", p.fileName?.getD "tmp", ".", purpose, ".tmp"])

/-- Replaces the content of a file at once: it is written beside the file and then put in place
(`write_atomic`). -/
def replaceFile (disk : Disk m) (p : Path) (content : Bytes) (purpose : Text) :
    ExceptT Error m Unit := do
  let prepared := preparedPath p purpose
  disk.writeFile prepared content
  attempt p (disk.rename prepared p)

def leadsSomewhere (disk : Disk m) (p : Path) : m Bool := do
  return (← disk.isFile p) || (← disk.isDirectory p)

end Disk

namespace FileTree

/-- The operation on the tree that is the state. -/
def change (f : FileTree → Except FileFault FileTree) : StateM FileTree (Except FileFault Unit) := do
  match f (← get) with
  | .ok t => MonadState.set t; return .ok ()
  | .error e => return .error e

/-- A tree as a disk, with the next new name and the time. -/
def disk (newId now : Text) : Disk (StateM FileTree) where
  read p := do return (← get).read p
  write p content := change (·.write p content)
  rename source target := change (·.rename source target)
  makeDirectories p := do
    let (t, result) := (← get).makeDirectories p
    MonadState.set t
    return result
  isFile p := do return (← get).isFile p
  isDirectory p := do return (← get).isDirectory p
  list p := do return (← get).list p
  ownName? p := do return ((← get).find? p).bind (·.1.getLast?)
  newId := return newId
  now := return now

end FileTree

end VbaRefactor
