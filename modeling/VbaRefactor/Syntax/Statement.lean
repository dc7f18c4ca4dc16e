import VbaRefactor.Token.Lexer

/-!
# Statements

A statement is the run of tokens between line ends and colons, without comments and continuations, so
that a statement continued over several lines is one run. Parentheses are followed with a depth that
never falls below zero.
-/

namespace VbaRefactor

/-- The significant tokens of one statement, in order. -/
abbrev Statement := List Token

namespace Statement

/-- The statement with one more token in front of the first of a list of statements. -/
def consFirst (t : Token) : List Statement → List Statement
  | [] => [[t]]
  | s :: rest => (t :: s) :: rest

/-- The runs between separators, empty ones included. -/
def runs : List Token → List Statement
  | [] => [[]]
  | t :: ts =>
    match t.kind with
    | .newline | .colon => [] :: runs ts
    | .comment | .continuation => runs ts
    | _ => consFirst t (runs ts)

/-- The statements of a list of tokens (`split_statements`). -/
def ofTokens (tokens : List Token) : List Statement := (runs tokens).filter (!·.isEmpty)

/-- The folded text of the token at an index, if it is a name or keyword. -/
def word? (s : Statement) (i : Nat) : Option Text :=
  match s[i]? with
  | some t => if t.kind = .identifier then some t.text.fold else none
  | none => none

def isWord (s : Statement) (i : Nat) (word : Text) : Bool := s[i]?.any (·.isWord word)

def isPunct (s : Statement) (i : Nat) (mark : Text) : Bool := s[i]?.any (·.isPunct mark)

def isName (s : Statement) (i : Nat) : Bool := s[i]?.any (·.kind == .identifier)

/-- The depth after a token: an opening parenthesis adds one, a closing one takes one if it can. -/
def depthAfter (depth : Nat) (t : Token) : Nat :=
  if t.isPunct "(" then depth + 1 else if t.isPunct ")" then depth - 1 else depth

/-- Where the parentheses that are open at a depth are all closed again. -/
def closing? (depth : Nat) : Statement → Option Nat
  | [] => none
  | t :: ts =>
    if t.isPunct ")" && depth ≤ 1 then some 0
    else (closing? (depthAfter depth t) ts).map (· + 1)

/-- The index of the parenthesis that closes the one at index `start` (`matching_paren`). -/
def matching? (s : Statement) (start : Nat) : Option Nat :=
  (closing? 0 (s.drop start)).map (start + ·)

/-- The pieces between the commas outside of parentheses, empty ones included (`split_commas`). -/
def splitAtCommas (depth : Nat) : Statement → List Statement
  | [] => [[]]
  | t :: ts =>
    if depth = 0 ∧ t.isPunct "," then [] :: splitAtCommas 0 ts
    else consFirst t (splitAtCommas (depthAfter depth t) ts)

/-- The span from the first to the last token (`cover`). -/
def cover? (s : Statement) : Option Span :=
  match s.head?, s.getLast? with
  | some first, some last => some (first.span.cover last.span)
  | _, _ => none

def textIn? (s : Statement) (text : Text) : Option Text := (cover? s).map text.slice

end Statement

/-- The name that a token spells, without brackets around it. -/
def Token.name (t : Token) : Text :=
  match t.text with
  | '[' :: inner => if inner.getLast? = some ']' then inner.dropLast else t.text
  | _ => t.text

end VbaRefactor
