import VbaRefactor.Text.Basic

/-!
# Spans and extents

A span is a range of bytes of a text; an extent is a span together with the lines and columns of its
two ends.
-/

namespace VbaRefactor

/-- The bytes from `start` up to, and without, `stop`. -/
structure Span where
  start : Nat
  stop : Nat
deriving DecidableEq, Repr, Inhabited

namespace Span

def empty (pos : Nat) : Span := ⟨pos, pos⟩

def size (s : Span) : Nat := s.stop - s.start

def isEmpty (s : Span) : Bool := s.start == s.stop

def contains (s t : Span) : Bool := s.start ≤ t.start && t.stop ≤ s.stop

def cover (s t : Span) : Span := ⟨min s.start t.start, max s.stop t.stop⟩

end Span

def Text.slice (t : Text) (s : Span) : Text := (t.dropBytes s.start).takeBytes (s.stop - s.start)

theorem Text.slice_append (a b c : Text) :
    (a ++ (b ++ c)).slice ⟨a.byteSize, a.byteSize + b.byteSize⟩ = b := by
  simp [Text.slice, dropBytes_append, takeBytes_append]

/-- A span with the line (counted from 1) and the column (in bytes, counted from 0) of each end. -/
structure Extent where
  span : Span
  lineStart : Nat
  lineEnd : Nat
  colStart : Nat
  colEnd : Nat
deriving DecidableEq, Repr, Inhabited

end VbaRefactor
