import VbaRefactor.Text.Basic

/-!
# Text in files

The content of a file is a list of bytes; a text is stored in its UTF-8 form.
-/

namespace VbaRefactor

abbrev Bytes := List UInt8

namespace Text

/-- The UTF-8 form of a text. -/
def encode (t : Text) : Bytes := (String.ofList t).toUTF8.toList

/-- The text of which the bytes are the UTF-8 form. -/
def decode? (bytes : Bytes) : Option Text :=
  (String.fromUTF8? ⟨bytes.toArray⟩).map String.toList

end Text

end VbaRefactor
