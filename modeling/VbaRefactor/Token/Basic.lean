import VbaRefactor.Span

/-!
# Tokens

A token is a piece of module text with its category and its position. Blanks between tokens are not
kept; comments, line ends and line continuations are tokens of their own.
-/

namespace VbaRefactor

inductive TokenKind where
  /-- A name or keyword, also a `[bracketed]` name. -/
  | identifier
  | number
  | stringLiteral
  /-- A date between `#` signs. -/
  | dateLiteral
  | punct
  | colon
  | newline
  /-- An underscore that continues the line, through the line end. -/
  | continuation
  /-- A comment, or a directive line that starts with `#`. -/
  | comment
deriving DecidableEq, Repr

/-- A piece of text with its category and the position of its first byte. -/
structure Token where
  kind : TokenKind
  start : Nat
  text : Text
deriving DecidableEq, Repr

namespace Token

/-- The position after the last byte. -/
def stop (t : Token) : Nat := t.start + t.text.byteSize

def span (t : Token) : Span := ⟨t.start, t.stop⟩

/-- The token is this word, in any case. The word is given in lower case. -/
def isWord (t : Token) (word : Text) : Bool := t.kind == .identifier && t.text.fold == word

def isPunct (t : Token) (mark : Text) : Bool := t.kind == .punct && t.text == mark

end Token

end VbaRefactor
