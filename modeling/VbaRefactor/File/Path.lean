import VbaRefactor.Text.Basic

/-!
# Paths

A path is a text in which slashes separate names. Empty pieces and points between slashes mean
nothing, except that a leading slash makes a path absolute and a leading point counts; the components
of a path are the pieces that do mean something. Cutting a path keeps the text of what remains.
-/

namespace VbaRefactor

structure Path where
  text : Text
deriving DecidableEq, Repr

namespace Path

def isAbsolute (p : Path) : Bool := p.text.head? = some '/'

/-- The pieces between slashes, each with whether it is a component. The empty piece before a leading
slash stands for the root. -/
def pieces (p : Path) : List (Text × Bool) :=
  let isInner := fun (piece : Text) => !piece.isEmpty && piece != ['.']
  match p.text.split '/' with
  | [] => []
  | first :: rest => (first, !first.isEmpty || p.isAbsolute) :: rest.map fun piece => (piece, isInner piece)

def components (p : Path) : List Text := (p.pieces.filter (·.2)).map Prod.fst

/-- The pieces without those at the end that are no components. -/
def trimPieces (pieces : List (Text × Bool)) : List (Text × Bool) :=
  (pieces.reverse.dropWhile (!·.2)).reverse

def ofPieces (pieces : List (Text × Bool)) : Path :=
  match pieces with
  | [([], true)] => ⟨['/']⟩
  | _ => ⟨['/'].intercalate (pieces.map Prod.fst)⟩

/-- The path that leads from `base` along a further path. -/
def join (base : Path) (further : Text) : Path :=
  if further.head? = some '/' || base.text.isEmpty then ⟨further⟩
  else if base.text.getLast? = some '/' then ⟨base.text ++ further⟩
  else ⟨base.text ++ '/' :: further⟩

def parent? (p : Path) : Option Path :=
  match (trimPieces p.pieces).reverse with
  | [] => none
  | (last, _) :: before =>
    if last.isEmpty then none else some (ofPieces (trimPieces before.reverse))

/-- The last component if it is a name. -/
def fileName? (p : Path) : Option Text :=
  match p.components.getLast? with
  | some name => if name.isEmpty || name == ['.'] || name == ['.', '.'] then none else some name
  | none => none

/-- The parts of a file name before and after its last point. A name without a point, or with a point
only in front, is its own stem. -/
def stemAndExtension (name : Text) : Text × Option Text :=
  match Text.splitFirst? '.' name.reverse with
  | some (extension, stem) =>
    if stem.isEmpty then (name, none) else (stem.reverse, some extension.reverse)
  | none => (name, none)

/-- The file name up to its last point. -/
def stem? (p : Path) : Option Text := p.fileName?.map fun name => (stemAndExtension name).1

/-- The file name after its last point. -/
def extension? (p : Path) : Option Text := p.fileName?.bind fun name => (stemAndExtension name).2

/-- The pieces after the first `n` components. -/
def dropComponents : Nat → List (Text × Bool) → List (Text × Bool)
  | 0, pieces => pieces
  | _ + 1, [] => []
  | n + 1, (_, true) :: rest => dropComponents n rest
  | n + 1, (_, false) :: rest => dropComponents (n + 1) rest

/-- The path seen from a directory that it leads through. -/
def relativeTo? (p base : Path) : Option Path :=
  let count := base.components.length
  if base.components.isPrefixOf p.components then
    if count = 0 then some (ofPieces (trimPieces p.pieces))
    else some (ofPieces (trimPieces ((dropComponents count p.pieces).dropWhile (!·.2))))
  else none

/-- The path leads through a directory or file of this name. -/
def passes (p : Path) (name : Text) : Bool := p.components.contains name

/-- The path and the paths above it, up to the first component. -/
def ancestors (p : Path) : List Path :=
  match p.parent? with
  | none => [p]
  | some above => if above.text.length < p.text.length then p :: ancestors above else [p]
termination_by p.text.length

end Path

end VbaRefactor
