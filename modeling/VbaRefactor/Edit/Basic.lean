import VbaRefactor.Text.Lines

/-!
# Line edits

An edit replaces or deletes whole lines of a module, or inserts lines before one. Lines are counted
from 1 and mean the lines of the text before any edit.
-/

namespace VbaRefactor

/-- The lines from `first` to `last`, both included. -/
structure LineRange where
  first : Nat
  last : Nat
deriving DecidableEq, Repr, Inhabited

namespace LineRange

def single (line : Nat) : LineRange := ⟨line, line⟩

def overlaps (a b : LineRange) : Bool := a.first ≤ b.last && b.first ≤ a.last

def contains (a b : LineRange) : Bool := a.first ≤ b.first && b.last ≤ a.last

/-- Lines inserted before `line` would stand inside the range. -/
def holdsInsert (a : LineRange) (line : Nat) : Bool := a.first < line && line ≤ a.last

end LineRange

inductive Edit where
  | replace (range : LineRange) (text : Text)
  | delete (range : LineRange)
  /-- Inserts before a line; the line after the last one appends. -/
  | insert (line : Nat) (text : Text)
deriving DecidableEq, Repr

namespace Edit

def range? : Edit → Option LineRange
  | .replace range _ | .delete range => some range
  | .insert .. => none

def isDelete : Edit → Bool
  | .delete _ => true
  | _ => false

def output : Edit → List Text
  | .replace _ text | .insert _ text => text.splitLines
  | .delete _ => []

end Edit

structure ModuleLines where
  lines : List Text
  ending : Text
  trailing : Bool
deriving DecidableEq, Repr, Inhabited

namespace ModuleLines

/-- The lines of a text, with its own terminator. -/
def ofText (t : Text) : ModuleLines := ⟨t.lines, t.lineEnding, t.endsWithNewline⟩

def joined (m : ModuleLines) (lines : List Text) : Text := Text.joinLines lines m.ending m.trailing

def text (m : ModuleLines) : Text := m.joined m.lines

end ModuleLines

end VbaRefactor
