import Std.Time.Format
import VbaRefactor.Cli.Run

/-!
# The program

Runs a command on the disk of the machine.
-/

namespace VbaRefactor

namespace RealDisk

def native (p : Path) : String := String.ofList p.text

def fault : IO.Error → FileFault
  | .noFileOrDirectory .. => .notFound
  | .alreadyExists .. => .alreadyExists
  | .inappropriateType _ 20 _ => .notDirectory
  | .inappropriateType _ 21 _ => .isDirectory
  | e => .described e.toString.toList

def attempt {α : Type} (action : IO α) : IO (Except FileFault α) := do
  match ← action.toBaseIO with
  | .ok a => return .ok a
  | .error e => return .error (fault e)

def isOfType (type : IO.FS.FileType) (p : Path) : IO Bool := do
  match ← (IO.FS.realPath (native p)).toBaseIO with
  | .error _ => return false
  | .ok path =>
    match ← path.metadata.toBaseIO with
    | .ok data => return data.type == type
    | .error _ => return false

/-- The names in a directory, in order. -/
def list (p : Path) : IO (List Text) := do
  let entries ← (← IO.FS.realPath (native p)).readDir
  let names := entries.toList.map fun entry => entry.fileName.toList
  return names.mergeSort fun a b => (Text.order a b).isLE

/-- The name under which a directory stands in the one above it. -/
def ownName? (p : Path) : IO (Option Text) := do
  match ← (IO.FS.realPath (native p)).toBaseIO with
  | .ok path => return Path.fileName? ⟨path.toString.toList⟩
  | .error _ => return none

/-- A random identifier in its usual form of five groups. -/
def newId : IO Text := do
  let bytes := (← IO.getRandomBytes 16).toList.map UInt8.toNat
  let marked := bytes.zipIdx.map fun (byte, i) =>
    if i = 6 then byte % 16 + 0x40 else if i = 8 then byte % 64 + 0x80 else byte
  let digits := marked.flatMap fun byte => [Nat.digitChar (byte / 16), Nat.digitChar (byte % 16)]
  return .concat [digits.take 8, "-", (digits.drop 8).take 4, "-", (digits.drop 12).take 4, "-",
    (digits.drop 16).take 4, "-", digits.drop 20]

/-- The time in universal time, to the second. -/
def now : IO Text := do
  let time := Std.Time.DateTime.ofTimestamp (← Std.Time.Timestamp.now) .UTC
  return (time.format "uuuu-MM-dd'T'HH:mm:ss'Z'").toList

def disk : Disk IO where
  read p := attempt do return (← IO.FS.readBinFile (native p)).toList
  write p content := attempt (IO.FS.writeBinFile (native p) ⟨content.toArray⟩)
  rename source target := attempt (IO.FS.rename (native source) (native target))
  makeDirectories p := attempt (IO.FS.createDirAll (native p))
  isFile := isOfType .file
  isDirectory := isOfType .dir
  list := list
  ownName? := ownName?
  newId := newId
  now := now

end RealDisk

end VbaRefactor

open VbaRefactor in
def main (arguments : List String) : IO UInt32 := do
  let response ← Cli.run RealDisk.disk (arguments.map String.toList)
  IO.print (String.ofList response.output)
  IO.eprint (String.ofList response.errors)
  return response.exitCode
