import VbaRefactor.Text.Shapeless

/-!
# Quoted text

Lists of names inside messages: each name in double quotes, with escapes for quotes, backslashes,
controls and characters without a shape of their own.
-/

namespace VbaRefactor

namespace Text

def codeEscape (c : Char) : Text :=
  .concat ["\\u\x7b", Nat.toDigits 16 c.toNat, "\x7d"]

def quotedChar (c : Char) : Text :=
  if c == '\x00' then "\\0"
  else if c == '\t' then "\\t"
  else if c == '\r' then "\\r"
  else if c == '\n' then "\\n"
  else if c == '\\' then "\\\\"
  else if c == '"' then "\\\""
  else if c.toNat < 0x20 || c.toNat == 0x7F || isShapeless c then codeEscape c
  else [c]

def quoted (t : Text) : Text := '"' :: t.flatMap quotedChar ++ ['"']

def bracketed (items : List Text) : Text :=
  '[' :: Text.concat (items.intersperse ", ") ++ [']']

end Text

end VbaRefactor
