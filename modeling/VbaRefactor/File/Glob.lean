import VbaRefactor.File.Disk

/-!
# File patterns

A pattern is a path in which `?` stands for any character, `*` for any characters of a name, brackets
for a set of characters or its complement, and `**` for directories to any depth. `Glob.search` lists
the paths that a pattern matches: the names of a directory in order, and after a directory that is
passed through what was found in it.
-/

namespace VbaRefactor

namespace Glob

inductive Token where
  | char (c : Char)
  | any
  | sequence
  | everywhere
  | within (ranges : List (Char × Char))
  /-- A character of none of these ranges. -/
  | outside (ranges : List (Char × Char))
deriving DecidableEq, Repr

/-- Why a pattern is none, and where. -/
structure Fault where
  position : Nat
  problem : PatternProblem
deriving DecidableEq, Repr

def ranges : Text → List (Char × Char)
  | a :: '-' :: b :: rest => (a, b) :: ranges rest
  | a :: rest => (a, a) :: ranges rest
  | [] => []

/-- The set that follows an opening bracket, and what follows the closing one. A bracket right after
the opening one, or after its exclamation mark, is a character of the set. -/
def set? : Text → Option (Token × Text)
  | '!' :: first :: rest => (Text.splitFirst? ']' rest).map fun (more, after) =>
      (.outside (ranges (first :: more)), after)
  | '!' :: [] => none
  | first :: rest => (Text.splitFirst? ']' rest).map fun (more, after) =>
      (.within (ranges (first :: more)), after)
  | [] => none

theorem set?_length {cs after : Text} {token : Token} (h : set? cs = some (token, after)) :
    after.length < cs.length := by
  unfold set? at h
  split at h <;> first
    | contradiction
    | obtain ⟨found, hfound, heq⟩ := Option.map_eq_some_iff.1 h
      have hlt := Text.splitFirst?_length hfound
      obtain ⟨_, rfl⟩ := Prod.mk.inj heq
      simp only [List.length_cons]
      omega

/-- The elements of a pattern from a position on, after the character `before?`. -/
def tokens (position : Nat) (before? : Option Char) (cs : Text) : Except Fault (List Token) :=
  match cs with
  | [] => .ok []
  | '?' :: rest => (tokens (position + 1) (some '?') rest).map (.any :: ·)
  | '*' :: '*' :: '*' :: _ => .error ⟨position + 2, .asterisks⟩
  | '*' :: '*' :: rest =>
    if before?.any (· != '/') then .error ⟨position - 1, .partialName⟩
    else
      match rest with
      | [] => .ok [.everywhere]
      | c :: rest =>
        if c = '/' then (tokens (position + 3) (some '/') rest).map (.everywhere :: ·)
        else .error ⟨position + 2, .partialName⟩
  | '*' :: rest => (tokens (position + 1) (some '*') rest).map (.sequence :: ·)
  | '[' :: rest =>
    match h : set? rest with
    | none => .error ⟨position, .brackets⟩
    | some (token, after) =>
      have := set?_length h
      (tokens (position + 1 + (rest.length - after.length)) (some ']') after).map (token :: ·)
  | c :: rest => (tokens (position + 1) (some c) rest).map (.char c :: ·)
termination_by cs.length

def inRanges (ranges : List (Char × Char)) (c : Char) : Bool := ranges.any fun r => r.1 ≤ c && c ≤ r.2

def Token.accepts (c : Char) : Token → Bool
  | .char d => c == d
  | .any => true
  | .within ranges => inRanges ranges c
  | .outside ranges => !inRanges ranges c
  | .sequence | .everywhere => false

def accepts : List Token → Text → Bool
  | [], name => name.isEmpty
  | .sequence :: rest, [] => accepts rest []
  | .sequence :: rest, c :: name => accepts rest (c :: name) || accepts (.sequence :: rest) name
  | _ :: _, [] => false
  | token :: rest, c :: name => token.accepts c && accepts rest name
termination_by tokens name => (tokens.length, name.length)

inductive Part where
  | literal (name : Text)
  | everywhere
  | wild (tokens : List Token)
deriving DecidableEq, Repr

namespace Part

def ofTokens (tokens : List Token) : Part :=
  let chars := tokens.filterMap fun
    | .char c => some c
    | _ => none
  if tokens = [.everywhere] then .everywhere
  else if chars.length = tokens.length then .literal chars
  else .wild tokens

def accepts (name : Text) : Part → Bool
  | .literal text => text == name
  | .everywhere => true
  | .wild tokens => Glob.accepts tokens name

/-- A component that means any depth says it once. -/
def collapse : List Part → List Part
  | .everywhere :: .everywhere :: rest => collapse (.everywhere :: rest)
  | part :: rest => part :: collapse rest
  | [] => []

end Part

structure Pattern where
  scope : Path
  parts : List Part
  /-- Only directories match. -/
  directoriesOnly : Bool
deriving DecidableEq, Repr

def partsOf : List Text → Except Fault (List Part)
  | [] => .ok []
  | text :: rest =>
    match tokens 0 none text with
    | .error fault => .error fault
    | .ok found => (partsOf rest).map (Part.ofTokens found :: ·)

def parse (text : Text) : Except Fault Pattern :=
  match tokens 0 none text with
  | .error fault => .error fault
  | .ok _ =>
    let isAbsolute := text.head? = some '/'
    let relative := if isAbsolute then text.drop 1 else text
    let pieces := if relative.isEmpty then [[]]
      else
        let pieces := Text.split '/' relative
        if pieces.getLast? = some [] then pieces.dropLast else pieces
    (partsOf pieces).map fun parts =>
      ⟨⟨if isAbsolute then ['/'] else ['.']⟩, Part.collapse parts, text.getLast? = some '/'⟩

variable {m : Type → Type} [Monad m]

/-- The path of a name in a directory; in the directory where the search starts it is the name. -/
def child (directory : Path) (name : Text) : Path :=
  if directory.components = [['.']] then ⟨name⟩ else directory.join name

/-- The largest depth of directories; no path is longer than that. -/
def maxDepth : Nat := 4096

/-- What `found` gives for all that is in a directory, to a depth, each before what is in it. -/
def visit (disk : Disk m) (found : Path → Text → Bool → m (List Path)) :
    Nat → Path → m (List Path)
  | 0, _ => return []
  | depth + 1, directory => do
    let names ← disk.list directory
    names.flatMapM fun name => do
      let path := child directory name
      let isDirectory ← disk.isDirectory path
      let here ← found path name isDirectory
      let below ← if isDirectory then visit disk found depth path else pure []
      return here ++ below

/-- The paths below a path that the components of a pattern match. -/
def searchIn (disk : Disk m) (directoriesOnly : Bool) (path : Path) : List Part → m (List Path)
  | [] => do
    if directoriesOnly && !(← disk.isDirectory path) then return [] else return [path]
  | .literal name :: rest => do
    let next := child path name
    let isThere ← if name == ['.'] || name == ['.', '.'] then disk.isDirectory path
      else disk.leadsSomewhere next
    if isThere then searchIn disk directoriesOnly next rest else return []
  | .wild tokens :: rest => do
    if !(← disk.isDirectory path) then return []
    let dots : List Text := if tokens.head? = some (.char '.') then [['.', '.'], ['.']] else []
    let inDots ← (dots.filter (accepts tokens)).flatMapM fun name =>
      searchIn disk directoriesOnly (path.join name) rest
    let names ← disk.list path
    let inNames ← (names.filter (accepts tokens)).flatMapM fun name =>
      searchIn disk directoriesOnly (child path name) rest
    return inDots ++ inNames
  | [.everywhere] => do
    if !(← disk.isDirectory path) then return []
    visit disk (fun path _ isDirectory => return if isDirectory then [path] else []) maxDepth path
  | .everywhere :: part :: rest => do
    if !(← disk.isDirectory path) then return []
    visit disk (fun path name _ =>
      if part.accepts name then searchIn disk directoriesOnly path rest else return []) maxDepth path

def search (disk : Disk m) (pattern : Pattern) : m (List Path) :=
  searchIn disk pattern.directoriesOnly pattern.scope pattern.parts

end Glob

end VbaRefactor
