import VbaRefactor.Text.Basic

/-!
# Blank characters

The characters of the Unicode property White_Space, and trimming by them.
-/

namespace VbaRefactor

/-- The character has the Unicode property White_Space. -/
def isBlank (c : Char) : Bool :=
  let n := c.toNat
  (9 ≤ n && n ≤ 13) || n == 0x20 || n == 0x85 || n == 0xA0 || n == 0x1680
    || (0x2000 ≤ n && n ≤ 0x200A) || n == 0x2028 || n == 0x2029 || n == 0x202F || n == 0x205F
    || n == 0x3000

namespace Text

def trimStart (t : Text) : Text := t.dropWhile isBlank

def trimEnd (t : Text) : Text := (t.reverse.dropWhile isBlank).reverse

def trim (t : Text) : Text := t.trimStart.trimEnd

end Text

end VbaRefactor
