import VbaRefactor.Text.Basic

/-!
# Upper case

The full upper case form of a character, which can be up to three characters long, and names that
start with one.
-/

namespace VbaRefactor

/-- The first and last code point of each run above ASCII in which every second one stands right behind
its upper case. -/
def upperPairs : List (Nat × Nat) := [
  (0x101, 0x12F), (0x133, 0x137), (0x13A, 0x148), (0x14B, 0x177), (0x17A, 0x17E), (0x183, 0x185),
  (0x188, 0x188), (0x18C, 0x18C), (0x192, 0x192), (0x199, 0x199), (0x1A1, 0x1A5), (0x1A8, 0x1A8),
  (0x1AD, 0x1AD), (0x1B0, 0x1B0), (0x1B4, 0x1B6), (0x1B9, 0x1B9), (0x1BD, 0x1BD), (0x1C5, 0x1C5),
  (0x1C8, 0x1C8), (0x1CB, 0x1CB), (0x1CE, 0x1DC), (0x1DF, 0x1EF), (0x1F2, 0x1F2), (0x1F5, 0x1F5),
  (0x1F9, 0x21F), (0x223, 0x233), (0x23C, 0x23C), (0x242, 0x242), (0x247, 0x24F), (0x371, 0x373),
  (0x377, 0x377), (0x3D9, 0x3EF), (0x3F8, 0x3F8), (0x3FB, 0x3FB), (0x461, 0x481), (0x48B, 0x4BF),
  (0x4C2, 0x4CE), (0x4D1, 0x52F), (0x1E01, 0x1E95), (0x1EA1, 0x1EFF), (0x2184, 0x2184),
  (0x2C61, 0x2C61), (0x2C68, 0x2C6C), (0x2C73, 0x2C73), (0x2C76, 0x2C76), (0x2C81, 0x2CE3),
  (0x2CEC, 0x2CEE), (0x2CF3, 0x2CF3), (0xA641, 0xA66D), (0xA681, 0xA69B), (0xA723, 0xA72F),
  (0xA733, 0xA76F), (0xA77A, 0xA77C), (0xA77F, 0xA787), (0xA78C, 0xA78C), (0xA791, 0xA793),
  (0xA797, 0xA7A9), (0xA7B5, 0xA7C3), (0xA7C8, 0xA7CA), (0xA7D1, 0xA7D1), (0xA7D7, 0xA7D9),
  (0xA7F6, 0xA7F6)
]

/-- The first and last code point of the other runs above ASCII, and the distance to the upper case. -/
def upperRuns : List (Nat × Nat × Int) := [
  (0xB5, 0xB5, 743), (0xE0, 0xF6, -32), (0xF8, 0xFE, -32), (0xFF, 0xFF, 121), (0x131, 0x131, -232),
  (0x17F, 0x17F, -300), (0x180, 0x180, 195), (0x195, 0x195, 97), (0x19A, 0x19A, 163),
  (0x19E, 0x19E, 130), (0x1BF, 0x1BF, 56), (0x1C6, 0x1C6, -2), (0x1C9, 0x1C9, -2),
  (0x1CC, 0x1CC, -2), (0x1DD, 0x1DD, -79), (0x1F3, 0x1F3, -2), (0x23F, 0x240, 10815),
  (0x250, 0x250, 10783), (0x251, 0x251, 10780), (0x252, 0x252, 10782), (0x253, 0x253, -210),
  (0x254, 0x254, -206), (0x256, 0x257, -205), (0x259, 0x259, -202), (0x25B, 0x25B, -203),
  (0x25C, 0x25C, 42319), (0x260, 0x260, -205), (0x261, 0x261, 42315), (0x263, 0x263, -207),
  (0x265, 0x265, 42280), (0x266, 0x266, 42308), (0x268, 0x268, -209), (0x269, 0x269, -211),
  (0x26A, 0x26A, 42308), (0x26B, 0x26B, 10743), (0x26C, 0x26C, 42305), (0x26F, 0x26F, -211),
  (0x271, 0x271, 10749), (0x272, 0x272, -213), (0x275, 0x275, -214), (0x27D, 0x27D, 10727),
  (0x280, 0x280, -218), (0x282, 0x282, 42307), (0x283, 0x283, -218), (0x287, 0x287, 42282),
  (0x288, 0x288, -218), (0x289, 0x289, -69), (0x28A, 0x28B, -217), (0x28C, 0x28C, -71),
  (0x292, 0x292, -219), (0x29D, 0x29D, 42261), (0x29E, 0x29E, 42258), (0x345, 0x345, 84),
  (0x37B, 0x37D, 130), (0x3AC, 0x3AC, -38), (0x3AD, 0x3AF, -37), (0x3B1, 0x3C1, -32),
  (0x3C2, 0x3C2, -31), (0x3C3, 0x3CB, -32), (0x3CC, 0x3CC, -64), (0x3CD, 0x3CE, -63),
  (0x3D0, 0x3D0, -62), (0x3D1, 0x3D1, -57), (0x3D5, 0x3D5, -47), (0x3D6, 0x3D6, -54),
  (0x3D7, 0x3D7, -8), (0x3F0, 0x3F0, -86), (0x3F1, 0x3F1, -80), (0x3F2, 0x3F2, 7),
  (0x3F3, 0x3F3, -116), (0x3F5, 0x3F5, -96), (0x430, 0x44F, -32), (0x450, 0x45F, -80),
  (0x4CF, 0x4CF, -15), (0x561, 0x586, -48), (0x10D0, 0x10FA, 3008), (0x10FD, 0x10FF, 3008),
  (0x13F8, 0x13FD, -8), (0x1C80, 0x1C80, -6254), (0x1C81, 0x1C81, -6253), (0x1C82, 0x1C82, -6244),
  (0x1C83, 0x1C84, -6242), (0x1C85, 0x1C85, -6243), (0x1C86, 0x1C86, -6236),
  (0x1C87, 0x1C87, -6181), (0x1C88, 0x1C88, 35266), (0x1D79, 0x1D79, 35332), (0x1D7D, 0x1D7D, 3814),
  (0x1D8E, 0x1D8E, 35384), (0x1E9B, 0x1E9B, -59), (0x1F00, 0x1F07, 8), (0x1F10, 0x1F15, 8),
  (0x1F20, 0x1F27, 8), (0x1F30, 0x1F37, 8), (0x1F40, 0x1F45, 8), (0x1F51, 0x1F57, 8),
  (0x1F60, 0x1F67, 8), (0x1F70, 0x1F71, 74), (0x1F72, 0x1F75, 86), (0x1F76, 0x1F77, 100),
  (0x1F78, 0x1F79, 128), (0x1F7A, 0x1F7B, 112), (0x1F7C, 0x1F7D, 126), (0x1FB0, 0x1FB1, 8),
  (0x1FBE, 0x1FBE, -7205), (0x1FD0, 0x1FD1, 8), (0x1FE0, 0x1FE1, 8), (0x1FE5, 0x1FE5, 7),
  (0x214E, 0x214E, -28), (0x2170, 0x217F, -16), (0x24D0, 0x24E9, -26), (0x2C30, 0x2C5F, -48),
  (0x2C65, 0x2C65, -10795), (0x2C66, 0x2C66, -10792), (0x2D00, 0x2D25, -7264),
  (0x2D27, 0x2D27, -7264), (0x2D2D, 0x2D2D, -7264), (0xA794, 0xA794, 48), (0xAB53, 0xAB53, -928),
  (0xAB70, 0xABBF, -38864), (0xFF41, 0xFF5A, -32), (0x10428, 0x1044F, -40), (0x104D8, 0x104FB, -40),
  (0x10597, 0x105A1, -39), (0x105A3, 0x105B1, -39), (0x105B3, 0x105B9, -39),
  (0x105BB, 0x105BC, -39), (0x10CC0, 0x10CF2, -64), (0x118C0, 0x118DF, -32),
  (0x16E60, 0x16E7F, -32), (0x1E922, 0x1E943, -34)
]

/-- The runs with an iota that comes to stand behind the upper case. -/
def upperIotaRuns : List (Nat × Nat × Int) := [
  (0x1F80, 0x1F87, -120), (0x1F88, 0x1F8F, -128), (0x1F90, 0x1F97, -104), (0x1F98, 0x1F9F, -112),
  (0x1FA0, 0x1FA7, -56), (0x1FA8, 0x1FAF, -64)
]

/-- The other code points above ASCII whose upper case is longer than one character. -/
def upperExpansions : List (Nat × List Nat) := [
  (0xDF, [0x53, 0x53]), (0x149, [0x2BC, 0x4E]), (0x1F0, [0x4A, 0x30C]),
  (0x390, [0x399, 0x308, 0x301]), (0x3B0, [0x3A5, 0x308, 0x301]), (0x587, [0x535, 0x552]),
  (0x1E96, [0x48, 0x331]), (0x1E97, [0x54, 0x308]), (0x1E98, [0x57, 0x30A]),
  (0x1E99, [0x59, 0x30A]), (0x1E9A, [0x41, 0x2BE]), (0x1F50, [0x3A5, 0x313]),
  (0x1F52, [0x3A5, 0x313, 0x300]), (0x1F54, [0x3A5, 0x313, 0x301]), (0x1F56, [0x3A5, 0x313, 0x342]),
  (0x1FB2, [0x1FBA, 0x399]), (0x1FB3, [0x391, 0x399]), (0x1FB4, [0x386, 0x399]),
  (0x1FB6, [0x391, 0x342]), (0x1FB7, [0x391, 0x342, 0x399]), (0x1FBC, [0x391, 0x399]),
  (0x1FC2, [0x1FCA, 0x399]), (0x1FC3, [0x397, 0x399]), (0x1FC4, [0x389, 0x399]),
  (0x1FC6, [0x397, 0x342]), (0x1FC7, [0x397, 0x342, 0x399]), (0x1FCC, [0x397, 0x399]),
  (0x1FD2, [0x399, 0x308, 0x300]), (0x1FD3, [0x399, 0x308, 0x301]), (0x1FD6, [0x399, 0x342]),
  (0x1FD7, [0x399, 0x308, 0x342]), (0x1FE2, [0x3A5, 0x308, 0x300]), (0x1FE3, [0x3A5, 0x308, 0x301]),
  (0x1FE4, [0x3A1, 0x313]), (0x1FE6, [0x3A5, 0x342]), (0x1FE7, [0x3A5, 0x308, 0x342]),
  (0x1FF2, [0x1FFA, 0x399]), (0x1FF3, [0x3A9, 0x399]), (0x1FF4, [0x38F, 0x399]),
  (0x1FF6, [0x3A9, 0x342]), (0x1FF7, [0x3A9, 0x342, 0x399]), (0x1FFC, [0x3A9, 0x399]),
  (0xFB00, [0x46, 0x46]), (0xFB01, [0x46, 0x49]), (0xFB02, [0x46, 0x4C]),
  (0xFB03, [0x46, 0x46, 0x49]), (0xFB04, [0x46, 0x46, 0x4C]), (0xFB05, [0x53, 0x54]),
  (0xFB06, [0x53, 0x54]), (0xFB13, [0x544, 0x546]), (0xFB14, [0x544, 0x535]),
  (0xFB15, [0x544, 0x53B]), (0xFB16, [0x54E, 0x546]), (0xFB17, [0x544, 0x53D])
]

def shiftIn? (runs : List (Nat × Nat × Int)) (n : Nat) : Option Char :=
  (runs.find? fun run => run.1 ≤ n && n ≤ run.2.1).map fun run => .ofNat ((n : Int) + run.2.2).toNat

def upperCase (c : Char) : Text :=
  let n := c.toNat
  if n < 0x80 then [c.toUpper]
  else match upperExpansions.find? (·.1 == n), shiftIn? upperIotaRuns n with
    | some (_, expansion), _ => expansion.map Char.ofNat
    | none, some upper => [upper, .ofNat 0x399]
    | none, none =>
      if upperPairs.any fun run => run.1 ≤ n && n ≤ run.2 && (n - run.1) % 2 == 0 then [.ofNat (n - 1)]
      else [(shiftIn? upperRuns n).getD c]

def Text.capitalized : Text → Text
  | [] => []
  | c :: t => upperCase c ++ t

end VbaRefactor
