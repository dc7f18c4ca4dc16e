import VbaRefactor.File.Utf8

/-!
# SHA-256

The hash by which the content of a file is recognized, written as 64 hexadecimal digits.
-/

namespace VbaRefactor

namespace Sha256

def roundConstants : List UInt32 := [
  0x428a2f98, 0x71374491, 0xb5c0fbcf, 0xe9b5dba5, 0x3956c25b, 0x59f111f1, 0x923f82a4, 0xab1c5ed5,
  0xd807aa98, 0x12835b01, 0x243185be, 0x550c7dc3, 0x72be5d74, 0x80deb1fe, 0x9bdc06a7, 0xc19bf174,
  0xe49b69c1, 0xefbe4786, 0x0fc19dc6, 0x240ca1cc, 0x2de92c6f, 0x4a7484aa, 0x5cb0a9dc, 0x76f988da,
  0x983e5152, 0xa831c66d, 0xb00327c8, 0xbf597fc7, 0xc6e00bf3, 0xd5a79147, 0x06ca6351, 0x14292967,
  0x27b70a85, 0x2e1b2138, 0x4d2c6dfc, 0x53380d13, 0x650a7354, 0x766a0abb, 0x81c2c92e, 0x92722c85,
  0xa2bfe8a1, 0xa81a664b, 0xc24b8b70, 0xc76c51a3, 0xd192e819, 0xd6990624, 0xf40e3585, 0x106aa070,
  0x19a4c116, 0x1e376c08, 0x2748774c, 0x34b0bcb5, 0x391c0cb3, 0x4ed8aa4a, 0x5b9cca4f, 0x682e6ff3,
  0x748f82ee, 0x78a5636f, 0x84c87814, 0x8cc70208, 0x90befffa, 0xa4506ceb, 0xbef9a3f7, 0xc67178f2]

structure Words where
  a : UInt32
  b : UInt32
  c : UInt32
  d : UInt32
  e : UInt32
  f : UInt32
  g : UInt32
  h : UInt32
deriving DecidableEq, Repr

namespace Words

def start : Words := ⟨0x6a09e667, 0xbb67ae85, 0x3c6ef372, 0xa54ff53a, 0x510e527f, 0x9b05688c,
  0x1f83d9ab, 0x5be0cd19⟩

def add (x y : Words) : Words := ⟨x.a + y.a, x.b + y.b, x.c + y.c, x.d + y.d, x.e + y.e, x.f + y.f,
  x.g + y.g, x.h + y.h⟩

def toList (x : Words) : List UInt32 := [x.a, x.b, x.c, x.d, x.e, x.f, x.g, x.h]

end Words

/-- The word turned to the right by `n` bits. -/
def rotate (x : UInt32) (n : UInt32) : UInt32 := (x >>> n) ||| (x <<< (32 - n))

/-- One round with its constant and a word of the message. -/
def round (s : Words) (step : UInt32 × UInt32) : Words :=
  let sum1 := rotate s.e 6 ^^^ rotate s.e 11 ^^^ rotate s.e 25
  let choice := (s.e &&& s.f) ^^^ (~~~s.e &&& s.g)
  let first := s.h + sum1 + choice + step.1 + step.2
  let sum0 := rotate s.a 2 ^^^ rotate s.a 13 ^^^ rotate s.a 22
  let majority := (s.a &&& s.b) ^^^ (s.a &&& s.c) ^^^ (s.b &&& s.c)
  ⟨first + sum0 + majority, s.a, s.b, s.c, s.d + first, s.e, s.f, s.g⟩

/-- The message words of the later rounds, from the words so far, the last one first. -/
def extend : Nat → List UInt32 → List UInt32
  | 0, words => words
  | n + 1, words =>
    let word := fun i => words[i]?.getD 0
    let small0 := rotate (word 14) 7 ^^^ rotate (word 14) 18 ^^^ (word 14 >>> 3)
    let small1 := rotate (word 1) 17 ^^^ rotate (word 1) 19 ^^^ (word 1 >>> 10)
    extend n ((word 15 + small0 + word 6 + small1) :: words)

def wordsOf : Bytes → List UInt32
  | a :: b :: c :: d :: rest =>
    (a.toUInt32 <<< 24 ||| b.toUInt32 <<< 16 ||| c.toUInt32 <<< 8 ||| d.toUInt32) :: wordsOf rest
  | _ => []

/-- Works a block of 64 bytes into the words. -/
def absorb (s : Words) (block : Bytes) : Words :=
  let message := (extend 48 (wordsOf block).reverse).reverse
  s.add ((roundConstants.zip message).foldl round s)

/-- Works `n` blocks into the words. -/
def absorbAll : Nat → Words → Bytes → Words
  | 0, s, _ => s
  | n + 1, s, bytes => absorbAll n (absorb s (bytes.take 64)) (bytes.drop 64)

/-- The lowest `n` bytes of a number, the highest first. -/
def bigEndian (n value : Nat) : Bytes :=
  (List.range n).map fun i => UInt8.ofNat (value >>> (8 * (n - 1 - i)) % 256)

/-- The message filled up to whole blocks: a one bit, zeros, and the number of bits. -/
def padded (bytes : Bytes) : Bytes :=
  let zeros := (119 - bytes.length % 64) % 64
  bytes ++ 0x80 :: List.replicate zeros 0 ++ bigEndian 8 (8 * bytes.length)

def wordDigits (w : UInt32) : Text :=
  (List.range 8).map fun i => Nat.digitChar (w.toNat >>> (4 * (7 - i)) % 16)

end Sha256

/-- The SHA-256 hash of bytes. -/
def sha256 (bytes : Bytes) : Text :=
  let message := Sha256.padded bytes
  (Sha256.absorbAll (message.length / 64) .start message).toList.flatMap Sha256.wordDigits

end VbaRefactor
