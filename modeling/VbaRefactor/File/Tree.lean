import VbaRefactor.Error
import VbaRefactor.File.Path
import VbaRefactor.File.Utf8

/-!
# File trees

A tree of directories and files as a value. Every place in it is the list of names that lead there
from the top, which is also where relative paths start. The operations fail as those of a file system
do, and say why.
-/

namespace VbaRefactor

inductive Entry where
  | directory
  | file (content : Bytes)
deriving DecidableEq, Repr

/-- A tree of directories and files, in order of the places; the top is not listed. -/
structure FileTree where
  entries : List (List Text × Entry)
deriving DecidableEq, Repr

namespace FileTree

def empty : FileTree := ⟨[]⟩

/-- The order of places: a directory comes before what is in it. -/
def order : List Text → List Text → Ordering
  | [], [] => .eq
  | [], _ :: _ => .lt
  | _ :: _, [] => .gt
  | a :: s, b :: t => (Text.order a b).then (order s t)

def get? (t : FileTree) (place : List Text) : Option Entry :=
  if place.isEmpty then some .directory else (t.entries.find? (·.1 = place)).map Prod.snd

/-- The entries with one more, or with another content. -/
def setEntry (place : List Text) (entry : Entry) :
    List (List Text × Entry) → List (List Text × Entry)
  | [] => [(place, entry)]
  | (at_, old) :: rest =>
    match order place at_ with
    | .lt => (place, entry) :: (at_, old) :: rest
    | .eq => (place, entry) :: rest
    | .gt => (at_, old) :: setEntry place entry rest

def set (t : FileTree) (place : List Text) (entry : Entry) : FileTree :=
  ⟨setEntry place entry t.entries⟩

/-- Takes away what stands at a place and below it. -/
def erase (t : FileTree) (place : List Text) : FileTree :=
  ⟨t.entries.filter fun entry => !place.isPrefixOf entry.1⟩

/-- The place that a list of names leads to; every place on the way has to be a directory. -/
def walk (t : FileTree) (place : List Text) : List Text → Except FileFault (List Text)
  | [] => .ok place
  | name :: rest =>
    match t.get? place with
    | none => .error .notFound
    | some (.file _) => .error .notDirectory
    | some .directory =>
      if name.isEmpty || name == ['.'] then walk t place rest
      else if name == ['.', '.'] then walk t place.dropLast rest
      else walk t (place ++ [name]) rest

/-- The place that a path leads to. Nothing is known of absolute paths. -/
def resolve (t : FileTree) (p : Path) : Except FileFault (List Text) :=
  if p.text.isEmpty || p.isAbsolute then .error .notFound else t.walk [] (p.text.split '/')

def find? (t : FileTree) (p : Path) : Option (List Text × Entry) :=
  match t.resolve p with
  | .ok place => (t.get? place).map (place, ·)
  | .error _ => none

def isDirectory (t : FileTree) (p : Path) : Bool := (t.find? p).any (·.2 = .directory)

def isFile (t : FileTree) (p : Path) : Bool := (t.find? p).any (·.2 ≠ .directory)

def read (t : FileTree) (p : Path) : Except FileFault Bytes :=
  match t.resolve p with
  | .error e => .error e
  | .ok place =>
    match t.get? place with
    | none => .error .notFound
    | some .directory => .error .isDirectory
    | some (.file content) => .ok content

/-- Gives a file a content; the file is made if it is not there. -/
def write (t : FileTree) (p : Path) (content : Bytes) : Except FileFault FileTree :=
  match t.resolve p with
  | .error e => .error e
  | .ok place =>
    if t.get? place = some .directory then .error .isDirectory else .ok (t.set place (.file content))

/-- Gives a file another path, in place of a file that may be there. -/
def rename (t : FileTree) (source target : Path) : Except FileFault FileTree :=
  match t.resolve source, t.read source, t.resolve target with
  | .ok old, .ok content, .ok new =>
    if t.get? new = some .directory then .error .isDirectory
    else .ok ((t.erase old).set new (.file content))
  | .error e, _, _ | _, .error e, _ | _, _, .error e => .error e

def makeDirectory (t : FileTree) (p : Path) : Except FileFault FileTree :=
  match t.resolve ⟨(p.text.reverse.dropWhile (· == '/')).reverse⟩ with
  | .error e => .error e
  | .ok place =>
    if (t.get? place).isSome then .error .alreadyExists else .ok (t.set place .directory)

/-- Makes the first directory of a list, and before that the next one if it is missing. A directory
that is there will do. -/
def makeFirst (t : FileTree) : List Path → FileTree × Except FileFault Unit
  | [] => (t, .error (.described "failed to create whole tree"))
  | p :: above =>
    let accept := fun (t : FileTree) (e : FileFault) =>
      (t, if t.isDirectory p then Except.ok () else .error e)
    if p.text.isEmpty then (t, .ok ())
    else
      match t.makeDirectory p with
      | .ok t => (t, .ok ())
      | .error .notFound =>
        match makeFirst t above with
        | (t, .error e) => (t, .error e)
        | (t, .ok ()) =>
          match t.makeDirectory p with
          | .ok t => (t, .ok ())
          | .error e => accept t e
      | .error e => accept t e

def makeDirectories (t : FileTree) (p : Path) : FileTree × Except FileFault Unit :=
  t.makeFirst p.ancestors

/-- The names in a directory, in order. -/
def list (t : FileTree) (p : Path) : List Text :=
  match t.resolve p with
  | .error _ => []
  | .ok place =>
    t.entries.filterMap fun (other, _) =>
      if other.dropLast = place then other.getLast? else none

end FileTree

end VbaRefactor
