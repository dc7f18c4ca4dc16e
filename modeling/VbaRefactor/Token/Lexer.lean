import VbaRefactor.Token.Basic

/-!
# Reading tokens

The reader cuts a text into pieces, each a single blank or the text of a token. What a character
begins depends on the characters that follow it and on three facts about what came before, which
`Lexer.Context` holds. Nothing of the text is lost: the pieces in order are the text.
-/

namespace VbaRefactor

namespace Lexer

/-- What the reader knows about the text before the next piece. -/
structure Context where
  /-- No token but continuations stands since the start, the last line end or the last colon. -/
  fresh : Bool
  /-- The text starts here or the character before is a blank. -/
  afterBlank : Bool
  /-- The last token can be followed by a member access. -/
  afterValue : Bool
deriving DecidableEq, Repr

def Context.initial : Context := ⟨true, true, false⟩

def isSpace (c : Char) : Bool := c == ' ' || c == '\t'

def isEol (c : Char) : Bool := c == '\n' || c == '\r'

def isDigit (c : Char) : Bool := '0' ≤ c && c ≤ '9'

def isLetter (c : Char) : Bool := ('a' ≤ c && c ≤ 'z') || ('A' ≤ c && c ≤ 'Z')

def isHexDigit (c : Char) : Bool := isDigit c || ('a' ≤ c && c ≤ 'f') || ('A' ≤ c && c ≤ 'F')

def isNameStart (c : Char) : Bool := isLetter c || 0x80 ≤ c.toNat

def isNameChar (c : Char) : Bool := isLetter c || isDigit c || c == '_' || 0x80 ≤ c.toNat

/-- The number of characters up to the end of the line. -/
def lineRest (rest : Text) : Nat := (rest.takeWhile (!isEol ·)).length

/-- After an underscore only blanks follow up to the end of the line. -/
def endsLine (rest : Text) : Bool :=
  match rest.dropWhile isSpace with
  | [] => true
  | c :: _ => isEol c

/-- The number of characters of a continuation after its underscore: blanks, then CR, LF or CR LF. -/
def continuationTail (rest : Text) : Nat :=
  (rest.takeWhile isSpace).length +
    match rest.dropWhile isSpace with
    | '\r' :: '\n' :: _ => 2
    | '\r' :: _ => 1
    | '\n' :: _ => 1
    | _ => 0

/-- The number of characters of a string after its opening quote; a doubled quote stands for one, and
an open string ends with its line. -/
def stringTail : Text → Nat
  | [] => 0
  | '"' :: '"' :: t => stringTail t + 2
  | '"' :: _ => 1
  | c :: t => if isEol c then 0 else stringTail t + 1

/-- The number of characters of a date after its opening `#`, if a date it is: it closes on its line,
is not empty and has no quote in it. -/
def dateTail? (rest : Text) : Option Nat :=
  let line := rest.takeWhile (!isEol ·)
  let inner := line.takeWhile (· != '#')
  if inner.length < line.length && !inner.isEmpty && !inner.contains '"' then some (inner.length + 1)
  else none

/-- The number of characters of a bracketed name after its bracket; an open one ends with its line. -/
def bracketTail (rest : Text) : Nat :=
  let line := rest.takeWhile (!isEol ·)
  let inner := line.takeWhile (· != ']')
  if inner.length < line.length then inner.length + 1 else line.length

/-- One when a mark of `marks` comes next and nothing that `blocks` follows it. -/
def suffixTail (marks : Text) (blocks : Char → Bool) : Text → Nat
  | m :: t => if marks.contains m && !(t.head?.any blocks) then 1 else 0
  | [] => 0

/-- The number of characters of a name after its first, with a type mark at its end. -/
def nameTail (rest : Text) : Nat :=
  let body := rest.takeWhile isNameChar
  body.length + suffixTail ['$', '%', '#', '@'] (fun c => isLetter c || isDigit c || c == '_')
    (rest.dropWhile isNameChar)

/-- The number of characters of an exponent, which counts only if digits follow. -/
def exponentTail : Text → Nat
  | e :: t =>
    if e == 'e' || e == 'E' then
      let signed := match t with
        | s :: _ => if s == '+' || s == '-' then 1 else 0
        | [] => 0
      let digits := ((t.drop signed).takeWhile isDigit).length
      if digits == 0 then 0 else 1 + signed + digits
    else 0
  | [] => 0

/-- The number of characters of a number after its first. -/
def numberTail (rest : Text) : Nat :=
  let body := (rest.takeWhile fun c => isDigit c || c == '.').length
  let exponent := exponentTail (rest.drop body)
  body + exponent + suffixTail ['%', '&', '!', '#', '@', '^'] (fun c => isLetter c || isDigit c)
    (rest.drop (body + exponent))

/-- The number of characters of a number in another base after its `&`, if digits follow. -/
def radixTail? : Text → Option Nat
  | h :: t =>
    if h == 'H' || h == 'h' || h == 'O' || h == 'o' then
      let digits := (t.takeWhile isHexDigit).length
      if digits == 0 then none
      else some (1 + digits + if (t.drop digits).head? == some '&' then 1 else 0)
    else none
  | [] => none

/-- The category of the token that begins with `c`, and how many characters of `rest` belong to it. -/
def recognize (ctx : Context) (c : Char) (rest : Text) : TokenKind × Nat :=
  if c == '\r' then (.newline, if rest.head? == some '\n' then 1 else 0)
  else if c == '\n' then (.newline, 0)
  else if c == '_' && ctx.afterBlank && endsLine rest then (.continuation, continuationTail rest)
  else if c == '\x27' || (c == '#' && ctx.fresh) then (.comment, lineRest rest)
  else if c == '"' then (.stringLiteral, stringTail rest)
  else if c == '#' then
    match dateTail? rest with
    | some n => (.dateLiteral, n)
    | none => (.punct, 0)
  else if c == '[' then (.identifier, bracketTail rest)
  else if isNameStart c then
    let n := nameTail rest
    if ctx.fresh && Text.fold (c :: rest.take n) == ['r', 'e', 'm'] then (.comment, lineRest rest)
    else (.identifier, n)
  else if isDigit c || (c == '.' && rest.head?.any isDigit && !ctx.afterValue) then
    (.number, numberTail rest)
  else if c == '&' && (radixTail? rest).isSome then (.number, (radixTail? rest).getD 0)
  else if c == ':' then
    if rest.head? == some '=' then (.punct, 1) else (.colon, 0)
  else if (c == '<' && (rest.head? == some '=' || rest.head? == some '>'))
      || (c == '>' && rest.head? == some '=') then (.punct, 1)
  else (.punct, 0)

/-- The context after a token of this category that begins with `c`. -/
def Context.after (ctx : Context) (kind : TokenKind) (c : Char) : Context where
  fresh := match kind with
    | .newline | .colon => true
    | .continuation => ctx.fresh
    | _ => false
  afterBlank := false
  afterValue := kind == .identifier || (kind == .punct && c == ')')

/-- A part of a text: a blank between tokens, or the text of a token. -/
inductive Piece where
  | blank (c : Char)
  | token (kind : TokenKind) (text : Text)
deriving DecidableEq, Repr

def Piece.text : Piece → Text
  | .blank c => [c]
  | .token _ text => text

/-- The pieces of a text that follows the given context. -/
def pieces (ctx : Context) : Text → List Piece
  | [] => []
  | c :: rest =>
    if isSpace c then
      .blank c :: pieces { ctx with afterBlank := true } rest
    else
      let (kind, n) := recognize ctx c rest
      .token kind (c :: rest.take n) :: pieces (ctx.after kind c) (rest.drop n)
termination_by text => text.length
decreasing_by
  · simp
  · simp only [List.length_drop, List.length_cons]; omega

/-- The tokens among pieces that start at position `pos`. -/
def place (pos : Nat) : List Piece → List Token
  | [] => []
  | .blank c :: ps => place (pos + c.utf8Size) ps
  | .token kind text :: ps => ⟨kind, pos, text⟩ :: place (pos + text.byteSize) ps

theorem pieces_text (ctx : Context) (text : Text) :
    ((pieces ctx text).map Piece.text).flatten = text := by
  fun_induction pieces ctx text with
  | case1 => rfl
  | case2 ctx c rest hspace ih => simp [Piece.text, ih]
  | case3 ctx c rest hspace kind n hclass ih => simp [Piece.text, ih]

end Lexer

/-- The tokens of a text, in order (`tokenize`). -/
def tokenize (text : Text) : List Token := Lexer.place 0 (Lexer.pieces .initial text)

end VbaRefactor
