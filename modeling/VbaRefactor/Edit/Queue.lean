import VbaRefactor.Edit.Basic
import VbaRefactor.Error

/-!
# Queues of edits

Edits of a module are collected in a buffer and applied together. A buffer takes an edit only if it
can stand beside those already there, so that applying them never fails. `EditQueue` holds the
buffers of all modules that were edited.
-/

namespace VbaRefactor

/-- The lines of a module and the edits that wait for it, in the order they came. -/
structure EditBuffer where
  module : ModuleLines
  edits : List Edit
deriving DecidableEq, Repr

inductive Verdict where
  | queued
  /-- A pending edit does the same already. -/
  | absorbed
  /-- Its lines are not lines of the module. -/
  | outOfRange (first last : Nat)
  /-- It cannot stand beside a pending edit. -/
  | overlap (pending new : Nat × Nat)
deriving DecidableEq, Repr

namespace EditBuffer

def bounds (r : LineRange) : Nat × Nat := (r.first, r.last)

/-- What becomes of an insert. It may not stand inside a pending range. -/
def judgeInsert (b : EditBuffer) (line : Nat) : Verdict :=
  if line = 0 || b.module.lines.length + 1 < line then .outOfRange line line
  else
    match (b.edits.filterMap Edit.range?).find? (·.holdsInsert line) with
    | some range => .overlap (bounds range) (line, line)
    | none => .queued

/-- What becomes of an edit of a range beside the pending edits, the first of which decides that says
anything about it. -/
def judgeAgainst (new : Edit) (range : LineRange) : List Edit → Verdict
  | [] => .queued
  | pending :: rest =>
    if pending = new then .absorbed
    else
      match pending with
      | .insert line _ =>
        if range.holdsInsert line then .overlap (line, line) (bounds range)
        else judgeAgainst new range rest
      | .replace taken _ | .delete taken =>
        if taken.overlaps range then
          if new.isDelete && taken.contains range then .absorbed
          else .overlap (bounds taken) (bounds range)
        else judgeAgainst new range rest

def judgeRange (b : EditBuffer) (new : Edit) (range : LineRange) : Verdict :=
  if range.first = 0 || range.last < range.first || b.module.lines.length < range.last then
    .outOfRange range.first range.last
  else judgeAgainst new range b.edits

/-- What becomes of an edit (`queue`). -/
def judge (b : EditBuffer) : Edit → Verdict
  | .insert line _ => b.judgeInsert line
  | .replace range text => b.judgeRange (.replace range text) range
  | .delete range => b.judgeRange (.delete range) range

/-- The lines inserted before a line, in the order they were queued. -/
def insertsAt (b : EditBuffer) (line : Nat) : List Text :=
  b.edits.flatMap fun
    | .insert before text => if before = line then text.splitLines else []
    | _ => []

/-- The pending edits of ranges with their ranges, by first line. -/
def ranged (b : EditBuffer) : List (LineRange × Edit) :=
  (b.edits.filterMap fun e => e.range?.map (·, e)).mergeSort fun a c => a.1.first ≤ c.1.first

/-- The lines from line number `line` on, with the given edits of ranges applied. -/
def linesFrom (b : EditBuffer) (ranged : List (LineRange × Edit)) (line : Nat) : List Text :=
  if line ≤ b.module.lines.length then
    b.insertsAt line ++
      match ranged with
      | (range, edit) :: rest =>
        if range.first = line then edit.output ++ b.linesFrom rest (range.last + 1)
        else b.module.lines[line - 1]?.toList ++ b.linesFrom ((range, edit) :: rest) (line + 1)
      | [] => b.module.lines[line - 1]?.toList ++ b.linesFrom [] (line + 1)
  else b.insertsAt (b.module.lines.length + 1)
termination_by (ranged.length, b.module.lines.length + 1 - line)

/-- The lines of the module with all pending edits applied (`apply`). -/
def applied (b : EditBuffer) : List Text := b.linesFrom b.ranged 1

def appliedText (b : EditBuffer) : Text := b.module.joined b.applied

end EditBuffer

/-- New texts of the modules that changed, in order of the modules. -/
abbrev Changes := ModuleMap Text

/-- The modules that can be edited, and the buffers of those that were. -/
structure EditQueue where
  host : ModuleMap ModuleLines
  buffers : ModuleMap EditBuffer
deriving DecidableEq, Repr

namespace EditQueue

def start (host : ModuleMap ModuleLines) : EditQueue := ⟨host, []⟩

def pending (q : EditQueue) (m : ModuleName) : List Edit :=
  ((q.buffers.get? m).map EditBuffer.edits).getD []

/-- The buffer of a module, a new one if there is none yet. -/
def bufferOf? (q : EditQueue) (m : ModuleName) : Option EditBuffer :=
  (q.buffers.get? m).or ((q.host.get? m).map (⟨·, []⟩))

/-- Queues an edit, or says why it cannot be. -/
def queue (q : EditQueue) (m : ModuleName) (edit : Edit) : EditQueue × Option Error :=
  match q.bufferOf? m with
  | none => (q, some (.moduleNotFound m.shown))
  | some buffer =>
    let keep : EditQueue := { q with buffers := q.buffers.insert m buffer }
    match buffer.judge edit with
    | .queued =>
      ({ q with buffers := q.buffers.insert m { buffer with edits := buffer.edits ++ [edit] } }, none)
    | .absorbed => (keep, none)
    | .outOfRange first last => (keep, some (.invalidLineRange m first last))
    | .overlap pending new => (keep, some (.overlappingEdits m pending new))

/-- Queues edits of a module in order, up to the first that cannot be. -/
def queueAll (q : EditQueue) (m : ModuleName) : List Edit → EditQueue × Option Error
  | [] => (q, none)
  | edit :: rest =>
    match q.queue m edit with
    | (q, none) => q.queueAll m rest
    | (q, some e) => (q, some e)

/-- Drops every pending edit (`discard`). -/
def discard (q : EditQueue) : EditQueue :=
  { q with buffers := q.buffers.map fun (m, b) => (m, { b with edits := [] }) }

/-- The new texts of the modules whose pending edits change them. -/
def changes (q : EditQueue) : Changes :=
  q.buffers.filterMap fun (m, b) =>
    if !b.edits.isEmpty && b.appliedText ≠ b.module.text then some (m, b.appliedText) else none

/-- Applies every pending edit; after that none is pending (`commit`). -/
def commit (q : EditQueue) : Changes × EditQueue := (q.changes, q.discard)

end EditQueue

end VbaRefactor
