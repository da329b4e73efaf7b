import Mathlib.Data.List.GetD

/-!
# The bitmaps

The tables of character.h, icons.h and mouse_shape.h. A row of a character or of an icon is
written as one binary number, whose highest bit is the first column; a row that the source leaves
out is zero.
-/
namespace Bitmaps

abbrev characterWidth : ℕ := 9
abbrev characterHeight : ℕ := 18
abbrev characterNumber : ℕ := 96
abbrev iconSize : ℕ := 30
abbrev iconNumber : ℕ := 5
abbrev mouseHeight : ℕ := 18
abbrev mouseWidth : ℕ := 15

/-- The characters from the space to the tilde. -/
def characterRows : List (List ℕ) :=
  [[0, 0, 0, 0, 0, 0, 0, 0, 0, 0, 0, 0, 0, 0, 0, 0, 0, 0],
   [0, 0, 0, 0, 192, 192, 192, 192, 192, 192, 192, 0, 192, 192, 0, 0, 0, 0],
   [0, 0, 0, 0, 216, 216, 216, 0, 0, 0, 0, 0, 0, 0, 0, 0, 0, 0],
   [0, 0, 0, 0, 108, 110, 126, 252, 236, 110, 124, 236, 108, 0, 0, 0, 0, 0],
   [0, 0, 16, 56, 124, 214, 208, 240, 56, 28, 22, 214, 124, 56, 16, 0, 0, 0],
   [0, 0, 0, 0, 230, 430, 428, 248, 48, 62, 107, 235, 206, 0, 0, 0, 0, 0],
   [0, 0, 0, 0, 112, 216, 400, 226, 118, 156, 388, 206, 123, 0, 0, 0, 0, 0],
   [0, 0, 0, 0, 192, 192, 192, 0, 0, 0, 0, 0, 0, 0, 0, 0, 0, 0],
   [0, 0, 0, 0, 48, 96, 96, 192, 192, 192, 192, 192, 224, 96, 48, 0, 0, 0],
   [0, 0, 0, 0, 384, 192, 192, 96, 96, 96, 96, 96, 224, 192, 384, 0, 0, 0],
   [0, 0, 0, 96, 96, 504, 96, 240, 408, 0, 0, 0, 0, 0, 0, 0, 0, 0],
   [0, 0, 0, 0, 0, 0, 16, 16, 16, 254, 16, 16, 16, 0, 0, 0, 0, 0],
   [0, 0, 0, 0, 0, 0, 0, 0, 0, 0, 0, 0, 96, 96, 192, 0, 0, 0],
   [0, 0, 0, 0, 0, 0, 0, 0, 240, 240, 0, 0, 0, 0, 0, 0, 0, 0],
   [0, 0, 0, 0, 0, 0, 0, 0, 0, 0, 0, 192, 192, 0, 0, 0, 0, 0],
   [0, 0, 0, 4, 12, 8, 24, 16, 16, 48, 32, 96, 64, 192, 128, 0, 0, 0],
   [0, 0, 0, 0, 120, 252, 204, 204, 204, 204, 204, 252, 120, 0, 0, 0, 0, 0],
   [0, 0, 0, 0, 112, 240, 48, 48, 48, 48, 48, 48, 252, 0, 0, 0, 0, 0],
   [0, 0, 0, 0, 120, 204, 12, 12, 24, 56, 112, 96, 252, 0, 0, 0, 0, 0],
   [0, 0, 0, 0, 120, 204, 12, 12, 120, 12, 12, 204, 120, 0, 0, 0, 0, 0],
   [0, 0, 0, 0, 24, 56, 120, 120, 216, 408, 508, 24, 24, 24, 0, 0, 0, 0],
   [0, 0, 0, 0, 252, 192, 192, 248, 28, 12, 12, 220, 120, 0, 0, 0, 0, 0],
   [0, 0, 0, 60, 120, 224, 192, 248, 204, 204, 204, 236, 120, 0, 0, 0, 0, 0],
   [0, 0, 0, 0, 252, 140, 28, 24, 24, 48, 48, 48, 96, 0, 0, 0, 0, 0],
   [0, 0, 0, 120, 204, 204, 204, 248, 120, 204, 204, 204, 120, 0, 0, 0, 0, 0],
   [0, 0, 0, 0, 120, 220, 204, 204, 204, 124, 12, 12, 56, 240, 0, 0, 0, 0],
   [0, 0, 0, 0, 0, 0, 0, 192, 192, 0, 0, 192, 192, 0, 0, 0, 0, 0],
   [0, 0, 0, 0, 0, 0, 0, 192, 192, 0, 0, 0, 64, 192, 192, 256, 0, 0],
   [0, 0, 0, 0, 0, 4, 12, 24, 48, 96, 48, 24, 12, 4, 0, 0, 0, 0],
   [0, 0, 0, 0, 0, 0, 0, 254, 0, 0, 254, 0, 0, 0, 0, 0, 0, 0],
   [0, 0, 0, 0, 0, 64, 48, 24, 12, 6, 12, 24, 48, 64, 0, 0, 0, 0],
   [0, 0, 0, 120, 252, 204, 12, 12, 24, 48, 48, 0, 48, 48, 0, 0, 0, 0],
   [0, 0, 0, 0, 126, 455, 511, 493, 461, 461, 477, 511, 448, 126, 0, 0, 0, 0],
   [0, 0, 0, 0, 24, 60, 60, 60, 102, 102, 255, 199, 131, 0, 0, 0, 0, 0],
   [0, 0, 0, 0, 248, 204, 204, 204, 248, 204, 204, 204, 248, 0, 0, 0, 0, 0],
   [0, 0, 0, 0, 60, 102, 192, 192, 192, 192, 192, 102, 60, 0, 0, 0, 0],
   [0, 0, 0, 0, 252, 206, 195, 195, 195, 195, 195, 198, 252, 0, 0, 0, 0, 0],
   [0, 0, 0, 0, 252, 192, 192, 192, 252, 192, 192, 192, 252, 0, 0, 0, 0, 0],
   [0, 0, 0, 0, 252, 196, 192, 192, 248, 192, 192, 192, 192, 0, 0, 0, 0, 0],
   [0, 0, 0, 0, 60, 114, 192, 192, 206, 198, 198, 118, 60, 0, 0, 0, 0, 0],
   [0, 0, 0, 0, 198, 198, 198, 198, 254, 198, 198, 198, 198, 0, 0, 0, 0, 0],
   [0, 0, 0, 0, 120, 48, 48, 48, 48, 48, 48, 48, 120, 0, 0, 0, 0, 0],
   [0, 0, 0, 0, 120, 48, 48, 48, 48, 48, 48, 304, 224, 0, 0, 0, 0, 0],
   [0, 0, 0, 0, 199, 206, 220, 248, 240, 248, 220, 206, 199, 0, 0, 0, 0, 0],
   [0, 0, 0, 0, 192, 192, 192, 192, 192, 192, 192, 192, 252, 0, 0, 0, 0, 0],
   [0, 0, 0, 0, 198, 198, 238, 238, 254, 214, 198, 198, 198, 0, 0, 0, 0, 0],
   [0, 0, 0, 0, 396, 460, 460, 492, 428, 444, 412, 412, 396, 0, 0, 0, 0, 0],
   [0, 0, 0, 0, 56, 108, 198, 198, 198, 198, 198, 108, 56, 0, 0, 0, 0, 0],
   [0, 0, 0, 0, 248, 204, 204, 204, 252, 248, 192, 192, 192, 192, 0, 0, 0, 0],
   [0, 0, 0, 0, 124, 198, 387, 387, 387, 387, 387, 198, 254, 124, 7, 0, 0, 0],
   [0, 0, 0, 248, 252, 198, 198, 206, 248, 220, 206, 198, 195, 0, 0, 0, 0, 0],
   [0, 0, 0, 0, 120, 204, 192, 192, 112, 56, 12, 12, 204, 120, 0, 0, 0, 0],
   [0, 0, 0, 0, 510, 48, 48, 48, 48, 48, 48, 48, 48, 0, 0, 0, 0, 0],
   [0, 0, 0, 0, 195, 195, 195, 195, 195, 195, 195, 231, 126, 0, 0, 0, 0, 0],
   [0, 0, 0, 0, 390, 390, 196, 204, 204, 108, 120, 120, 48, 0, 0, 0, 0, 0],
   [0, 0, 0, 0, 258, 258, 258, 406, 438, 252, 236, 72, 72, 0, 0, 0, 0, 0],
   [0, 0, 0, 0, 130, 198, 108, 56, 16, 56, 108, 198, 130, 0, 0, 0, 0, 0],
   [0, 0, 0, 0, 390, 204, 204, 120, 120, 48, 48, 48, 48, 0, 0, 0, 0, 0],
   [0, 0, 0, 0, 254, 12, 12, 24, 16, 48, 96, 192, 254, 0, 0, 0, 0, 0],
   [0, 0, 0, 0, 112, 96, 96, 96, 96, 96, 96, 96, 96, 96, 112, 0, 0, 0],
   [0, 0, 0, 0, 384, 192, 192, 192, 96, 96, 96, 48, 48, 48, 24, 0, 0, 0],
   [0, 0, 0, 0, 224, 96, 96, 96, 96, 96, 96, 96, 96, 96, 224, 0, 0, 0],
   [0, 0, 0, 0, 24, 60, 102, 195, 129, 0, 0, 0, 0, 0, 0, 0, 0, 0],
   [0, 0, 0, 0, 0, 0, 0, 0, 0, 0, 0, 0, 0, 252, 252, 0, 0, 0],
   [0, 0, 0, 224, 112, 0, 0, 0, 0, 0, 0, 0, 0, 0, 0, 0, 0, 0],
   [0, 0, 0, 0, 0, 0, 56, 76, 12, 60, 108, 108, 124, 0, 0, 0, 0, 0],
   [0, 0, 0, 192, 192, 192, 192, 252, 238, 198, 198, 238, 252, 0, 0, 0, 0, 0],
   [0, 0, 0, 0, 0, 0, 0, 124, 224, 192, 192, 224, 124, 0, 0, 0, 0, 0],
   [0, 0, 0, 6, 6, 6, 6, 126, 230, 198, 198, 238, 126, 0, 0, 0, 0, 0],
   [0, 0, 0, 0, 0, 0, 120, 204, 204, 252, 192, 196, 120, 0, 0, 0, 0, 0],
   [0, 0, 0, 56, 96, 96, 96, 248, 96, 96, 96, 96, 96, 0, 0, 0, 0, 0],
   [0, 0, 0, 0, 0, 0, 0, 126, 230, 198, 198, 238, 126, 6, 206, 124, 0, 0],
   [0, 0, 0, 192, 192, 192, 192, 248, 236, 204, 204, 204, 204, 0, 0, 0, 0, 0],
   [0, 0, 0, 96, 96, 0, 0, 224, 96, 96, 96, 96, 120, 0, 0, 0, 0, 0],
   [0, 0, 0, 96, 96, 0, 0, 224, 96, 96, 96, 96, 96, 96, 96, 448, 0, 0],
   [0, 0, 0, 192, 192, 192, 192, 204, 216, 240, 240, 248, 220, 0, 0, 0, 0, 0],
   [0, 0, 0, 112, 48, 48, 48, 48, 48, 48, 48, 48, 60, 0, 0, 0, 0, 0],
   [0, 0, 0, 0, 0, 0, 0, 126, 219, 219, 219, 219, 219, 0, 0, 0, 0, 0],
   [0, 0, 0, 0, 0, 0, 0, 248, 236, 204, 204, 204, 204, 0, 0, 0, 0, 0],
   [0, 0, 0, 0, 0, 0, 56, 124, 198, 198, 198, 198, 124, 56, 0, 0, 0, 0],
   [0, 0, 0, 0, 0, 0, 0, 252, 230, 198, 198, 206, 252, 192, 192, 192, 192, 0],
   [0, 0, 0, 0, 0, 0, 0, 126, 230, 198, 198, 238, 126, 6, 6, 6, 0, 0],
   [0, 0, 0, 0, 0, 0, 0, 124, 112, 96, 96, 96, 96, 0, 0, 0, 0, 0],
   [0, 0, 0, 0, 0, 0, 112, 200, 192, 96, 48, 24, 152, 112, 0, 0, 0, 0],
   [0, 0, 0, 0, 0, 96, 96, 508, 96, 96, 96, 100, 120, 0, 0, 0, 0, 0],
   [0, 0, 0, 0, 0, 0, 0, 204, 204, 204, 204, 204, 116, 0, 0, 0, 0, 0],
   [0, 0, 0, 0, 0, 0, 0, 396, 396, 136, 216, 112, 112, 32, 0, 0, 0, 0],
   [0, 0, 0, 0, 0, 257, 387, 403, 403, 186, 254, 238, 68, 0, 0, 0, 0, 0],
   [0, 0, 0, 0, 0, 0, 0, 136, 216, 112, 112, 216, 136, 0, 0, 0, 0, 0],
   [0, 0, 0, 0, 0, 0, 0, 260, 396, 140, 216, 112, 48, 32, 96, 192, 0, 0],
   [0, 0, 0, 0, 0, 0, 0, 248, 24, 48, 96, 192, 248, 0, 0, 0, 0, 0],
   [0, 0, 0, 0, 112, 96, 96, 96, 64, 192, 64, 96, 96, 96, 112, 0, 0, 0],
   [0, 0, 0, 192, 192, 192, 192, 192, 192, 192, 192, 192, 192, 192, 192, 192, 0, 0],
   [0, 0, 0, 0, 448, 192, 192, 192, 64, 96, 64, 192, 192, 192, 448, 0, 0, 0],
   [0, 0, 0, 0, 0, 0, 0, 0, 246, 444, 0, 0, 0, 0, 0, 0, 0, 0]]

/-- The icons for closing, minimizing, windows, folders and chess. -/
def iconRows : List (List ℕ) :=
  [[0x00000000, 0x00000000, 0x00000000, 0x00000000, 0x00c000c0, 0x01e001e0, 0x03f003f0,
    0x03f807f0, 0x01fc0fe0, 0x00fe1fc0, 0x007f3f80, 0x003fff00, 0x001ffe00, 0x000ffc00,
    0x0007f800, 0x0007f800, 0x000ffc00, 0x001ffe00, 0x003fff00, 0x007f3f80, 0x00fe1fc0,
    0x01fc0fe0, 0x03f807f0, 0x03f003f0, 0x01e001e0, 0x00c000c0, 0x00000000, 0x00000000,
    0x00000000, 0x00000000],
   [0x00000000, 0x00000000, 0x00000000, 0x00000000, 0x00000000, 0x00000000, 0x00000000,
    0x00000000, 0x00000000, 0x00000000, 0x00000000, 0x00000000, 0x01ffffe0, 0x01ffffe0,
    0x01ffffe0, 0x01ffffe0, 0x01ffffe0, 0x00000000, 0x00000000, 0x00000000, 0x00000000,
    0x00000000, 0x00000000, 0x00000000, 0x00000000, 0x00000000, 0x00000000, 0x00000000,
    0x00000000, 0x00000000],
   [0x00000000, 0x00000000, 0x00000000, 0x00000000, 0x03ff3ff0, 0x03ff3ff0, 0x03ff3ff0,
    0x03ff3ff0, 0x03ff3ff0, 0x03ff3ff0, 0x03ff3ff0, 0x03ff3ff0, 0x03ff3ff0, 0x03ff3ff0,
    0x00000000, 0x00000000, 0x03ff3ff0, 0x03ff3ff0, 0x03ff3ff0, 0x03ff3ff0, 0x03ff3ff0,
    0x03ff3ff0, 0x03ff3ff0, 0x03ff3ff0, 0x03ff3ff0, 0x03ff3ff0, 0x00000000, 0x00000000,
    0x00000000, 0x00000000],
   [0x00000000, 0x00000000, 0x00000000, 0x00000000, 0x00000000, 0x0fff0000, 0x0fff8000,
    0x0ffffff8, 0x0ffffffc, 0x0ffffffc, 0x0ffffffc, 0x0ffffffc, 0x0ffffffc, 0x0ffffffc,
    0x0ffffffc, 0x0ffffffc, 0x0ffffffc, 0x0ffffffc, 0x0ffffffc, 0x0ffffffc, 0x0ffffffc,
    0x0ffffffc, 0x0ffffffc, 0x0ffffffc, 0x0ffffffc, 0x00000000, 0x00000000, 0x00000000,
    0x00000000, 0x00000000],
   [0x00000000, 0x00000000, 0x0ffffffc, 0x0ffffffc, 0x0ffffffc, 0x0e0f83fc, 0x0e0f83fc,
    0x0e0f83fc, 0x0e0f83fc, 0x0e0f83fc, 0x0ff07c1c, 0x0ff07c1c, 0x0ff07c1c, 0x0ff07c1c,
    0x0ff07c1c, 0x0e0f83fc, 0x0e0f83fc, 0x0e0f83fc, 0x0e0f83fc, 0x0e0f83fc, 0x0ff07c1c,
    0x0ff07c1c, 0x0ff07c1c, 0x0ff07c1c, 0x0ff07c1c, 0x0ffffffc, 0x0ffffffc, 0x0ffffffc,
    0x00000000, 0x00000000]]

/-- The arrow and the hand. -/
def mouseRows : List (List (List ℕ)) :=
  [[[2, 2, 0, 0, 0, 0, 0, 0, 0, 0, 0, 0, 0, 0, 0],
    [2, 1, 2, 0, 0, 0, 0, 0, 0, 0, 0, 0, 0, 0, 0],
    [2, 1, 1, 2, 0, 0, 0, 0, 0, 0, 0, 0, 0, 0, 0],
    [2, 1, 1, 1, 2, 0, 0, 0, 0, 0, 0, 0, 0, 0, 0],
    [2, 1, 1, 1, 1, 2, 0, 0, 0, 0, 0, 0, 0, 0, 0],
    [2, 1, 1, 1, 1, 1, 2, 0, 0, 0, 0, 0, 0, 0, 0],
    [2, 1, 1, 1, 1, 1, 1, 2, 0, 0, 0, 0, 0, 0, 0],
    [2, 1, 1, 1, 1, 1, 1, 1, 2, 0, 0, 0, 0, 0, 0],
    [2, 1, 1, 1, 1, 1, 1, 1, 1, 2, 0, 0, 0, 0, 0],
    [2, 1, 1, 1, 1, 1, 1, 1, 1, 1, 2, 0, 0, 0, 0],
    [2, 1, 1, 1, 1, 1, 1, 1, 1, 1, 1, 2, 0, 0, 0],
    [2, 1, 1, 1, 1, 1, 1, 2, 2, 2, 2, 2, 0, 0, 0],
    [2, 1, 1, 1, 2, 1, 1, 2, 0, 0, 0, 0, 0, 0, 0],
    [2, 1, 1, 2, 0, 2, 1, 1, 2, 0, 0, 0, 0, 0, 0],
    [2, 1, 2, 0, 0, 2, 1, 1, 2, 0, 0, 0, 0, 0, 0],
    [2, 2, 0, 0, 0, 0, 2, 1, 1, 2, 0, 0, 0, 0, 0],
    [0, 0, 0, 0, 0, 0, 2, 1, 1, 2, 0, 0, 0, 0, 0],
    [0, 0, 0, 0, 0, 0, 0, 2, 2, 0, 0, 0, 0, 0, 0]],
   [[0, 0, 0, 0, 0, 0, 0, 0, 0, 0, 0, 0, 0, 0, 0],
    [0, 0, 0, 0, 0, 0, 0, 0, 0, 0, 0, 0, 0, 0, 0],
    [0, 0, 0, 0, 0, 0, 0, 0, 0, 0, 0, 0, 0, 0, 0],
    [0, 0, 0, 0, 0, 1, 1, 1, 0, 0, 0, 0, 0, 0, 0],
    [0, 0, 0, 1, 1, 1, 2, 2, 1, 1, 1, 0, 0, 0, 0],
    [0, 0, 1, 2, 2, 1, 2, 2, 1, 2, 2, 1, 1, 0, 0],
    [0, 1, 1, 2, 2, 1, 2, 2, 1, 2, 2, 1, 2, 1, 0],
    [1, 2, 1, 2, 2, 1, 2, 2, 1, 2, 2, 1, 2, 2, 1],
    [1, 2, 1, 2, 2, 2, 2, 2, 2, 2, 2, 1, 2, 2, 1],
    [1, 2, 2, 2, 2, 2, 2, 2, 2, 2, 2, 2, 2, 2, 1],
    [1, 2, 2, 2, 2, 2, 2, 2, 2, 2, 2, 2, 2, 2, 1],
    [0, 1, 2, 2, 2, 2, 2, 2, 2, 2, 2, 2, 2, 2, 1],
    [0, 1, 2, 2, 2, 2, 2, 2, 2, 2, 2, 2, 2, 2, 1],
    [0, 0, 1, 2, 2, 2, 2, 2, 2, 2, 2, 2, 2, 1, 0],
    [0, 0, 1, 2, 2, 2, 2, 2, 2, 2, 2, 2, 2, 1, 0],
    [0, 0, 0, 1, 2, 2, 2, 2, 2, 2, 2, 2, 2, 1, 0],
    [0, 0, 0, 1, 2, 2, 2, 2, 2, 2, 2, 2, 1, 0, 0],
    [0, 0, 0, 1, 1, 1, 1, 1, 1, 1, 1, 1, 1, 0, 0]]]

/-- `table[n][i][j] == 1`, in a table whose rows have `width` columns. -/
def bit (table : List (List ℕ)) (width n i j : ℕ) : Bool :=
  ((table.getD n []).getD i 0).testBit (width - 1 - j)

/-- `character[ord][i][j] == 1` -/
def character (ord i j : ℕ) : Bool := bit characterRows characterWidth ord i j

/-- `icons[icon][i][j] == 1` -/
def icons (icon i j : ℕ) : Bool := bit iconRows iconSize icon i j

/-- `mouse_pointer[mode][i][j]` -/
def mousePointer (mode i j : ℕ) : ℕ := ((mouseRows.getD mode []).getD i []).getD j 0

theorem getD_of_all {α : Type} {P : α → Prop} {l : List α} {d : α} (hl : ∀ a ∈ l, P a) (hd : P d)
    (n : ℕ) : P (l.getD n d) := by
  by_cases hn : n < l.length
  · rw [List.getD_eq_getElem l d hn]
    exact hl _ (List.getElem_mem hn)
  · rw [List.getD_eq_default l d (Nat.not_lt.mp hn)]
    exact hd

/-- The points of the cursor are blank or have one of two colours. -/
theorem mousePointer_le (mode i j : ℕ) : mousePointer mode i j ≤ 2 := by
  have hall : ∀ shape ∈ mouseRows, ∀ row ∈ shape, ∀ point ∈ row, point ≤ 2 := by decide
  have hnil {α : Type} {P : α → Prop} : ∀ a ∈ ([] : List α), P a := fun a ha =>
    absurd ha List.not_mem_nil
  have hshape := getD_of_all (P := fun shape => ∀ row ∈ shape, ∀ point ∈ row, point ≤ 2)
    hall hnil mode
  have hrow := getD_of_all (P := fun row => ∀ point ∈ row, point ≤ 2) hshape hnil i
  exact getD_of_all hrow (Nat.zero_le 2) j

end Bitmaps
