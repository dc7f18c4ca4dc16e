import VbaRefactor.Text.Blank

/-!
# Joining continued lines

A line is continued when it ends in an underscore that stands alone or after a blank. Joining takes
the underscores away and puts the lines together with one blank between them, except next to a
parenthesis or before a comma.
-/

namespace VbaRefactor

namespace Text

/-- What stands before the underscore of a continued line. -/
def continuedHead? (line : Text) : Option Text :=
  let trimmed := line.trimEnd
  if trimmed.getLast? = some '_' then
    let head := trimmed.dropLast
    if head.isEmpty || head.getLast?.any isBlank then some head else none
  else none

/-- What goes between the text so far and the next line: a blank, unless a parenthesis or a comma
makes it needless. -/
def joint (out line : Text) : Text :=
  if out.getLast? = some '(' || line.head? = some ')' || line.head? = some ',' then [] else [' ']

/-- Joins lines onto the text so far, which ends in a continued line or not. -/
def joinContinued (out : Text) (continued : Bool) : List Text → Text
  | [] => out
  | raw :: rest =>
    let line := if continued then raw.dropCr.trimStart else raw.dropCr
    let out := if continued then out ++ joint out line else out
    match continuedHead? line, rest with
    | some head, _ :: _ => joinContinued (out ++ head.trimEnd) true rest
    | _, [] => out ++ line
    | none, _ :: _ => joinContinued (out ++ line ++ ['\n']) false rest

/-- The text with its continued lines joined (`collapse_continuations`). -/
def joinContinuations (t : Text) : Text := joinContinued [] false (t.split '\n')

end Text

end VbaRefactor
