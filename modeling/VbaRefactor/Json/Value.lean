import VbaRefactor.Text.Basic

/-!
# JSON values

A value keeps what a document says: the fields of an object in order, with repetitions, and numbers as
they are written. A string whose escapes name half of a surrogate pair has no text. `Value.isPlain`
tells the values that can be taken apart: all strings are texts and all numbers fit into a double.
-/

namespace VbaRefactor

namespace Json

structure Number where
  isNegative : Bool
  whole : Text
  /-- The digits after the point; there are none if there is no point. -/
  fraction : Text
  /-- The digits of the exponent, and whether it is negative. -/
  exponent? : Option (Bool × Text)
deriving DecidableEq, Repr

namespace Number

def ofDigits (digits : Text) : Nat := digits.foldl (fun n c => 10 * n + (c.toNat - '0'.toNat)) 0

def ofNat (n : Nat) : Number := ⟨false, Text.ofNat n, [], none⟩

/-- The natural number that is written without sign, point and exponent, in 64 bits. -/
def natural? (n : Number) : Option Nat :=
  let value := ofDigits n.whole
  if !n.isNegative && n.fraction.isEmpty && n.exponent?.isNone && value < .pow 2 64 then some value
  else none

/-- The exponent of the last digit. -/
def scale (n : Number) : Int :=
  let exponent : Int := match n.exponent? with
    | none => 0
    | some (isNegative, digits) => if isNegative then -(ofDigits digits) else ofDigits digits
  exponent - n.fraction.length

/-- The number rounds to a finite double: its size is below the middle between the largest double and
the next power of two. Sizes far from that limit are told by the number of digits. -/
def fitsDouble (n : Number) : Bool :=
  let digits := (n.whole ++ n.fraction).dropWhile (· == '0')
  let limit := Nat.pow 2 1024 - Nat.pow 2 970
  let size := n.scale + digits.length
  if digits.isEmpty || size ≤ 300 then true
  else if 400 < size then false
  else if 0 ≤ n.scale then ofDigits digits * .pow 10 n.scale.toNat < limit
  else ofDigits digits < limit * .pow 10 (-n.scale).toNat

end Number

inductive Value where
  | null
  | bool (value : Bool)
  | number (value : Number)
  | string (text? : Option Text)
  | array (items : List Value)
  | object (fields : List (Option Text × Value))
deriving Repr

namespace Value

def text (t : Text) : Value := .string (some t)

def nat (n : Nat) : Value := .number (.ofNat n)

def record (fields : List (String × Value)) : Value :=
  .object (fields.map fun (key, value) => (some key.toList, value))

mutual

/-- All strings are texts, and all numbers fit into a double. -/
def isPlain : Value → Bool
  | .null | .bool _ => true
  | .number n => n.fitsDouble
  | .string text? => text?.isSome
  | .array items => arePlain items
  | .object fields => fieldsArePlain fields

def arePlain : List Value → Bool
  | [] => true
  | item :: rest => isPlain item && arePlain rest

/-- All keys are texts, and all values are plain. -/
def fieldsArePlain : List (Option Text × Value) → Bool
  | [] => true
  | (key?, value) :: rest => key?.isSome && isPlain value && fieldsArePlain rest

end

mutual

def depth : Value → Nat
  | .array items => depthOfItems items + 1
  | .object fields => depthOfFields fields + 1
  | _ => 0

def depthOfItems : List Value → Nat
  | [] => 0
  | item :: rest => max (depth item) (depthOfItems rest)

def depthOfFields : List (Option Text × Value) → Nat
  | [] => 0
  | (_, value) :: rest => max (depth value) (depthOfFields rest)

end

end Value

def valuesOf (key : String) (fields : List (Option Text × Value)) : List Value :=
  (fields.filter (·.1 == some key.toList)).map Prod.snd

/-- The values of known fields, in order, as far as they are there. An object has each at most once,
beside any others; an array lists them from the first on and holds nothing else. -/
def Value.fields? (keys : List String) : Value → Option (List (Option Value))
  | .object fields =>
    if fields.all (·.1.isSome) && keys.all (fun key => (valuesOf key fields).length ≤ 1) then
      some (keys.map fun key => (valuesOf key fields).head?)
    else none
  | .array items =>
    if items.length ≤ keys.length then some ((List.range keys.length).map (items[·]?)) else none
  | _ => none

namespace Value

def text? : Value → Option Text
  | .string text? => text?
  | _ => none

def items? : Value → Option (List Value)
  | .array items => some items
  | _ => none

/-- The natural number of 64 bits that a value is. -/
def nat? : Value → Option Nat
  | .number n => n.natural?
  | _ => none

def texts? (v : Value) : Option (List Text) := v.items?.bind (·.mapM text?)

/-- The text of a field that may be absent or `null`. -/
def optionalText? : Option Value → Option (Option Text)
  | none | some .null => some none
  | some v => v.text?.map some

/-- The truth value of a field that may be absent, which then is false. -/
def flag? : Option Value → Option Bool
  | none => some false
  | some (.bool b) => some b
  | some _ => none

end Value

end Json

end VbaRefactor
