import VbaRefactor.Json.Value

/-!
# Reading JSON

A document is cut into tokens, and a machine with a stack of open arrays and objects takes them one
after another. `Json.read?` gives the value of a document that is one JSON value and blanks.
-/

namespace VbaRefactor

namespace Json

inductive Token where
  | openArray
  | closeArray
  | openObject
  | closeObject
  | comma
  | colon
  | null
  | bool (value : Bool)
  | number (value : Number)
  | string (text? : Option Text)
deriving DecidableEq, Repr

/-- A part of a string: a character, or a UTF-16 unit given by an escape. -/
inductive Piece where
  | char (c : Char)
  | unit (value : Nat)
deriving DecidableEq, Repr

namespace Piece

/-- The text of a list of pieces. Two units of a pair stand for one character, and a unit of a pair
that stands alone for none. -/
def text? : List Piece → Option Text
  | [] => some []
  | .char c :: rest => (text? rest).map (c :: ·)
  | .unit high :: .unit low :: rest =>
    if high < 0xD800 || 0xDFFF < high then
      (text? (.unit low :: rest)).map (Char.ofNat high :: ·)
    else if high < 0xDC00 && 0xDC00 ≤ low && low ≤ 0xDFFF then
      (text? rest).map (Char.ofNat (0x10000 + (high - 0xD800) * 0x400 + (low - 0xDC00)) :: ·)
    else none
  | .unit value :: rest =>
    if value < 0xD800 || 0xDFFF < value then (text? rest).map (Char.ofNat value :: ·) else none

end Piece

def hexDigit? (c : Char) : Option Nat :=
  if '0' ≤ c && c ≤ '9' then some (c.toNat - '0'.toNat)
  else if 'a' ≤ c && c ≤ 'f' then some (c.toNat - 'a'.toNat + 10)
  else if 'A' ≤ c && c ≤ 'F' then some (c.toNat - 'A'.toNat + 10)
  else none

/-- The unit that four hexadecimal digits stand for. -/
def unit? (a b c d : Char) : Option Nat := do
  return (((← hexDigit? a) * 16 + (← hexDigit? b)) * 16 + (← hexDigit? c)) * 16 + (← hexDigit? d)

def escaped? : Char → Option Char
  | '"' => some '"'
  | '\\' => some '\\'
  | '/' => some '/'
  | 'b' => some '\x08'
  | 'f' => some '\x0c'
  | 'n' => some '\n'
  | 'r' => some '\r'
  | 't' => some '\t'
  | _ => none

/-- The pieces of a string up to its closing quote, and what follows it. -/
def stringPieces? : Text → Option (List Piece × Text)
  | [] => none
  | '"' :: rest => some ([], rest)
  | '\\' :: 'u' :: a :: b :: c :: d :: rest => do
    let unit ← unit? a b c d
    let (pieces, rest) ← stringPieces? rest
    return (.unit unit :: pieces, rest)
  | '\\' :: c :: rest => do
    let char ← escaped? c
    let (pieces, rest) ← stringPieces? rest
    return (.char char :: pieces, rest)
  | c :: rest =>
    if c.toNat < 0x20 || c == '\\' then none
    else (stringPieces? rest).map fun (pieces, rest) => (.char c :: pieces, rest)

/-- The digits in front, of which there has to be one. -/
def digits? (cs : Text) : Option (Text × Text) :=
  match cs.takeWhile Char.isDigit with
  | [] => none
  | digits => some (digits, cs.dropWhile Char.isDigit)

/-- The digits before the point: a zero stands alone. -/
def whole? : Text → Option (Text × Text)
  | '0' :: rest => some (['0'], rest)
  | cs => digits? cs

/-- The fraction in front, if a point is there. -/
def fraction? : Text → Option (Text × Text)
  | '.' :: rest => digits? rest
  | cs => some ([], cs)

/-- The exponent in front, if its mark is there. -/
def exponent? : Text → Option (Option (Bool × Text) × Text)
  | c :: rest =>
    if c == 'e' || c == 'E' then
      let signed := match rest with
        | '+' :: digits => (false, digits)
        | '-' :: digits => (true, digits)
        | digits => (false, digits)
      (digits? signed.2).map fun (digits, rest) => (some (signed.1, digits), rest)
    else some (none, c :: rest)
  | [] => some (none, [])

def number? (cs : Text) : Option (Number × Text) := do
  let signed := match cs with
    | '-' :: rest => (true, rest)
    | _ => (false, cs)
  let (whole, rest) ← whole? signed.2
  let (fraction, rest) ← fraction? rest
  let (exponent, rest) ← exponent? rest
  return (⟨signed.1, whole, fraction, exponent⟩, rest)

/-- What follows a word, if it is in front. -/
def afterWord? (word : String) (cs : Text) : Option Text :=
  if word.toList.isPrefixOf cs then some (cs.drop word.length) else none

def isBlank (c : Char) : Bool := c == ' ' || c == '\t' || c == '\n' || c == '\r'

/-- The token in front, and what follows it. -/
def token? (cs : Text) : Option (Token × Text) :=
  match cs with
  | '[' :: rest => some (.openArray, rest)
  | ']' :: rest => some (.closeArray, rest)
  | '\x7b' :: rest => some (.openObject, rest)
  | '\x7d' :: rest => some (.closeObject, rest)
  | ',' :: rest => some (.comma, rest)
  | ':' :: rest => some (.colon, rest)
  | '"' :: rest => (stringPieces? rest).map fun (pieces, rest) => (.string (Piece.text? pieces), rest)
  | 'n' :: _ => (afterWord? "null" cs).map (.null, ·)
  | 't' :: _ => (afterWord? "true" cs).map (.bool true, ·)
  | 'f' :: _ => (afterWord? "false" cs).map (.bool false, ·)
  | _ => (number? cs).map fun (n, rest) => (.number n, rest)

def tokens? (cs : Text) : Option (List Token) :=
  match cs with
  | [] => some []
  | c :: rest =>
    if isBlank c then tokens? rest
    else
      match token? (c :: rest) with
      | none => none
      | some (token, after) =>
        if after.length < (c :: rest).length then (tokens? after).map (token :: ·) else none
termination_by cs.length
decreasing_by
  · simp
  · assumption

/-- An array or object that is open, its content so far the last one first. -/
inductive Frame where
  | array (items : List Value)
  /-- The value of the named field is still to come. -/
  | object (fields : List (Option Text × Value)) (name? : Option Text)

/-- What may follow; the innermost open array or object stands first. -/
inductive State where
  | value (outer : List Frame)
  | firstItem (outer : List Frame)
  | afterItem (items : List Value) (outer : List Frame)
  | firstKey (outer : List Frame)
  | key (fields : List (Option Text × Value)) (outer : List Frame)
  | colon (fields : List (Option Text × Value)) (name? : Option Text) (outer : List Frame)
  | afterField (fields : List (Option Text × Value)) (outer : List Frame)
  | done (value : Value)

namespace State

def put (v : Value) : List Frame → State
  | [] => .done v
  | .array items :: outer => .afterItem (v :: items) outer
  | .object fields name? :: outer => .afterField ((name?, v) :: fields) outer

def begin? (outer : List Frame) : Token → Option State
  | .openArray => some (.firstItem outer)
  | .openObject => some (.firstKey outer)
  | .null => some (put .null outer)
  | .bool b => some (put (.bool b) outer)
  | .number n => some (put (.number n) outer)
  | .string text? => some (put (.string text?) outer)
  | _ => none

def step? : State → Token → Option State
  | .value outer, token => begin? outer token
  | .firstItem outer, .closeArray => some (put (.array []) outer)
  | .firstItem outer, token => begin? (.array [] :: outer) token
  | .afterItem items outer, .comma => some (.value (.array items :: outer))
  | .afterItem items outer, .closeArray => some (put (.array items.reverse) outer)
  | .firstKey outer, .closeObject => some (put (.object []) outer)
  | .firstKey outer, .string text? => some (.colon [] text? outer)
  | .key fields outer, .string text? => some (.colon fields text? outer)
  | .colon fields name? outer, .colon => some (.value (.object fields name? :: outer))
  | .afterField fields outer, .comma => some (.key fields outer)
  | .afterField fields outer, .closeObject => some (put (.object fields.reverse) outer)
  | _, _ => none

def value? : State → Option Value
  | .done v => some v
  | _ => none

end State

def read? (document : Text) : Option Value := do
  let tokens ← tokens? document
  let state ← tokens.foldlM State.step? (.value [])
  state.value?

end Json

end VbaRefactor
