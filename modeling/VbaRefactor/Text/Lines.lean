import VbaRefactor.Span

/-!
# Lines of a text

A line starts at the beginning of the text and after every line break: LF, CR, CR LF taken as one,
VT, FF, NEL, LS and PS. A line ends before the next LF, or before the CR LF that this LF closes.
Lines are counted from 1 and every position is an offset in bytes.
-/

namespace VbaRefactor

/-- The characters that break a line on their own. -/
def isLineBreak (c : Char) : Bool :=
  c == '\n' || c == '\r' || c == '\x0b' || c == '\x0c' || c == '\u0085' || c == '\u2028' || c == '\u2029'

namespace Text

/-- The positions right after the line breaks of a text that begins at position `pos`. -/
def startsFrom (pos : Nat) : Text → List Nat
  | [] => []
  | '\r' :: '\n' :: t => (pos + 2) :: startsFrom (pos + 2) t
  | c :: t =>
    if isLineBreak c then (pos + c.utf8Size) :: startsFrom (pos + c.utf8Size) t
    else startsFrom (pos + c.utf8Size) t

/-- The positions where the lines start, in order. -/
def lineStarts (t : Text) : List Nat := 0 :: startsFrom 0 t

def endsWithNewline (t : Text) : Bool := t.getLast? == some '\n'

/-- The number of lines; an empty line after a final line feed is not counted (`line_count`). -/
def lineCount (t : Text) : Nat :=
  if t.endsWithNewline then t.lineStarts.length - 1 else t.lineStarts.length

/-- The text has a carriage return directly before a line feed. -/
def hasCrLf : Text → Bool
  | '\r' :: '\n' :: _ => true
  | _ :: t => hasCrLf t
  | [] => false

/-- The line terminator of the text as a whole. -/
def lineEnding (t : Text) : Text := if t.hasCrLf then ['\r', '\n'] else ['\n']

/-- The line that a position lies on; positions past the end count as the end (`line_of`). -/
def lineOf (t : Text) (pos : Nat) : Nat :=
  let bound := min pos t.byteSize
  (t.lineStarts.filter (· ≤ bound)).length

/-- The position where a line starts; past the last line that is the end of the text
(`line_start`). -/
def lineStart (t : Text) (line : Nat) : Nat := (t.lineStarts[line - 1]?).getD t.byteSize

/-- The position where a line ends, before its terminator (`line_end`). -/
def lineEnd (t : Text) (line : Nat) : Nat :=
  let start := t.lineStart line
  let rest := t.dropBytes start
  let content := rest.takeWhile (· != '\n')
  if content.length < rest.length then start + byteSize (dropCr content) else t.byteSize

/-- The content of a line, without its terminator (`line_text`). -/
def lineText (t : Text) (line : Nat) : Text := t.slice ⟨t.lineStart line, t.lineEnd line⟩

/-- The contents of all lines, in order. -/
def lines (t : Text) : List Text := (List.range t.lineCount).map fun i => t.lineText (i + 1)

/-- The span of the whole lines `first` to `last`, without the last terminator. -/
def spanOfLines (t : Text) (first last : Nat) : Span := ⟨t.lineStart first, t.lineEnd last⟩

/-- The lines and columns of a span (`extent`). -/
def extent (t : Text) (s : Span) : Extent :=
  let first := t.lineOf s.start
  let last := t.lineOf s.stop
  { span := s
    lineStart := first
    lineEnd := last
    colStart := s.start - t.lineStart first
    colEnd := s.stop - t.lineStart last }

/-- The lines with a terminator between them, and one at the end where `trailing` asks for it. -/
def joinLines (lines : List Text) (ending : Text) (trailing : Bool) : Text :=
  ending.intercalate lines ++ if trailing && !lines.isEmpty then ending else []

end Text

end VbaRefactor
