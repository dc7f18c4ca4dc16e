/-!
# Text

Module text, names and messages are lists of characters. Positions in a text are offsets in bytes of
its UTF-8 form, so every operation that cuts a text by position goes through the byte sizes below.
Names are compared without regard to the case of ASCII letters.
-/

namespace VbaRefactor

/-- A text is its list of characters. -/
abbrev Text := List Char

instance : Coe String Text := ⟨String.toList⟩

namespace Text

/-- The number of bytes of the UTF-8 form. -/
def byteSize : Text → Nat
  | [] => 0
  | c :: t => c.utf8Size + byteSize t

/-- What remains after the first `n` bytes. -/
def dropBytes : Nat → Text → Text
  | 0, t => t
  | _ + 1, [] => []
  | n + 1, c :: t => dropBytes (n + 1 - c.utf8Size) t

/-- The characters within the first `n` bytes. -/
def takeBytes : Nat → Text → Text
  | 0, _ => []
  | _ + 1, [] => []
  | n + 1, c :: t => c :: takeBytes (n + 1 - c.utf8Size) t

@[simp]
theorem byteSize_nil : byteSize [] = 0 := rfl

@[simp]
theorem byteSize_cons (c : Char) (t : Text) : byteSize (c :: t) = c.utf8Size + byteSize t := rfl

@[simp]
theorem byteSize_append (s t : Text) : byteSize (s ++ t) = byteSize s + byteSize t := by
  induction s with
  | nil => simp
  | cons c s ih => simp [ih, Nat.add_assoc]

theorem dropBytes_append (s t : Text) : dropBytes (byteSize s) (s ++ t) = t := by
  induction s with
  | nil => simp [dropBytes]
  | cons c s ih =>
    have hpos := c.utf8Size_pos
    obtain ⟨n, hn⟩ : ∃ n, c.utf8Size + byteSize s = n + 1 := ⟨c.utf8Size + byteSize s - 1, by omega⟩
    have hrest : n + 1 - c.utf8Size = byteSize s := by omega
    simp [hn, dropBytes, hrest, ih]

theorem takeBytes_append (s t : Text) : takeBytes (byteSize s) (s ++ t) = s := by
  induction s with
  | nil => simp [takeBytes]
  | cons c s ih =>
    have hpos := c.utf8Size_pos
    obtain ⟨n, hn⟩ : ∃ n, c.utf8Size + byteSize s = n + 1 := ⟨c.utf8Size + byteSize s - 1, by omega⟩
    have hrest : n + 1 - c.utf8Size = byteSize s := by omega
    simp [hn, takeBytes, hrest, ih]

/-- The text with its ASCII letters in lower case; names are compared in this form. -/
def fold (t : Text) : Text := t.map Char.toLower

/-- Two names are the same up to the case of ASCII letters. -/
def SameName (a b : Text) : Prop := a.fold = b.fold

instance (a b : Text) : Decidable (SameName a b) := inferInstanceAs (Decidable (_ = _))

/-- The order of texts by code points, which is also the order of their UTF-8 forms. -/
def order : Text → Text → Ordering
  | [], [] => .eq
  | [], _ :: _ => .lt
  | _ :: _, [] => .gt
  | a :: s, b :: t => (compare a.toNat b.toNat).then (order s t)

/-- The pieces between the occurrences of `sep`; there is one more piece than occurrences. -/
def split (sep : Char) : Text → List Text
  | [] => [[]]
  | c :: t =>
    match split sep t with
    | [] => [[c]]
    | piece :: pieces => if c = sep then [] :: piece :: pieces else (c :: piece) :: pieces

/-- The parts before and after the first occurrence of `sep`. -/
def splitFirst? (sep : Char) (t : Text) : Option (Text × Text) :=
  match t.dropWhile (· != sep) with
  | [] => none
  | _ :: after => some (t.takeWhile (· != sep), after)

theorem splitFirst?_length {sep : Char} {t : Text} {parts : Text × Text}
    (h : splitFirst? sep t = some parts) : parts.2.length < t.length := by
  have hle := (List.dropWhile_sublist (· != sep) (l := t)).length_le
  unfold splitFirst? at h
  split at h
  · contradiction
  · rename_i c after hdrop
    cases h
    rw [hdrop, List.length_cons] at hle
    exact hle

/-- The text without one carriage return at its end. -/
def dropCr (t : Text) : Text :=
  if t.getLast? = some '\r' then t.dropLast else t

/-- The lines of a text that separates them by line feeds, each without a carriage return at its end. -/
def splitLines (t : Text) : List Text := (t.split '\n').map dropCr

def concat (parts : List Text) : Text := parts.flatten

/-- Decimal digits. -/
def ofNat (n : Nat) : Text := Nat.toDigits 10 n

end Text

end VbaRefactor
