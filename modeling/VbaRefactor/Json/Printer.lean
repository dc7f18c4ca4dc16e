import VbaRefactor.Json.Value

/-!
# Printing JSON

Every item and field stands on a line of its own, indented by two blanks for each level; empty arrays
and objects stand on one line.
-/

namespace VbaRefactor

namespace Json

def quotedChar (c : Char) : Text :=
  if c == '"' then ['\\', '"']
  else if c == '\\' then ['\\', '\\']
  else if c == '\x08' then ['\\', 'b']
  else if c == '\x0c' then ['\\', 'f']
  else if c == '\n' then ['\\', 'n']
  else if c == '\r' then ['\\', 'r']
  else if c == '\t' then ['\\', 't']
  else if c.toNat < 0x20 then
    .concat ["\\u00", [Nat.digitChar (c.toNat / 16), Nat.digitChar (c.toNat % 16)]]
  else [c]

def quoted (t : Text) : Text := '"' :: t.flatMap quotedChar ++ ['"']

namespace Number

def shown (n : Number) : Text :=
  .concat [if n.isNegative then ['-'] else [], n.whole,
    if n.fraction.isEmpty then [] else '.' :: n.fraction,
    match n.exponent? with
    | none => []
    | some (isNegative, digits) => 'e' :: (if isNegative then '-' :: digits else digits)]

end Number

def newLine (level : Nat) : Text := '\n' :: List.replicate (2 * level) ' '

namespace Value

mutual

/-- The text of a value whose first line stands at a level. -/
def pretty (level : Nat) : Value → Text
  | .null => "null"
  | .bool b => if b then "true" else "false"
  | .number n => n.shown
  | .string text? => quoted (text?.getD [])
  | .array [] => "[]"
  | .array (item :: rest) =>
    .concat ["[", newLine (level + 1), pretty (level + 1) item, prettyItems (level + 1) rest,
      newLine level, "]"]
  | .object [] => "\x7b\x7d"
  | .object ((key?, value) :: rest) =>
    .concat ["\x7b", newLine (level + 1), quoted (key?.getD []), ": ", pretty (level + 1) value,
      prettyFields (level + 1) rest, newLine level, "\x7d"]

/-- Further items, each after a comma. -/
def prettyItems (level : Nat) : List Value → Text
  | [] => []
  | item :: rest => .concat [",", newLine level, pretty level item, prettyItems level rest]

/-- Further fields, each after a comma. -/
def prettyFields (level : Nat) : List (Option Text × Value) → Text
  | [] => []
  | (key?, value) :: rest =>
    .concat [",", newLine level, quoted (key?.getD []), ": ", pretty level value,
      prettyFields level rest]

end

end Value

def print (v : Value) : Text := v.pretty 0

end Json

end VbaRefactor
