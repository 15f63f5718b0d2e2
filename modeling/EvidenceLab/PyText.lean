/-
# Texts as Python sees them

The functions on strings that the retrieval package and the event log use: lower case, blanks, runs
of characters and decimal digits, after the Unicode tables of Python 3.12.
-/
import Mathlib

namespace PyText

/-- `str.lower`.  The Kelvin sign and the dotted capital I are the only characters beyond ASCII with
an ASCII letter in their lower case; the others stand for themselves, which no test against ASCII
text can tell. -/
def lower (s : String) : List Char :=
  s.toList.flatMap fun c =>
    if c = '\u212A' then ['k'] else if c = '\u0130' then ['i', '\u0307'] else [c.toLower]

/-- `str.isspace` of one character, also `\s` in a pattern. -/
def isSpace (c : Char) : Bool :=
  let n := c.toNat
  (9 ≤ n && n ≤ 13) || (28 ≤ n && n ≤ 32) || n == 0x85 || n == 0xa0 || n == 0x1680
    || (0x2000 ≤ n && n ≤ 0x200a) || n == 0x2028 || n == 0x2029 || n == 0x202f
      || n == 0x205f || n == 0x3000

/-- The zeros of the decimal digits of Unicode; each is followed by its nine other digits. -/
def decimalZeros : List ℕ :=
  [0x30, 0x660, 0x6f0, 0x7c0, 0x966, 0x9e6, 0xa66, 0xae6, 0xb66, 0xbe6, 0xc66, 0xce6, 0xd66,
    0xde6, 0xe50, 0xed0,
    0xf20, 0x1040, 0x1090, 0x17e0, 0x1810, 0x1946, 0x19d0, 0x1a80, 0x1a90, 0x1b50, 0x1bb0,
    0x1c40, 0x1c50, 0xa620,
    0xa8d0, 0xa900, 0xa9d0, 0xa9f0, 0xaa50, 0xabf0, 0xff10, 0x104a0, 0x10d30, 0x11066, 0x110f0,
    0x11136, 0x111d0,
    0x112f0, 0x11450, 0x114d0, 0x11650, 0x116c0, 0x11730, 0x118e0, 0x11950, 0x11c50, 0x11d50,
    0x11da0, 0x11f50,
    0x16a60, 0x16ac0, 0x16b50, 0x1d7ce, 0x1d7d8, 0x1d7e2, 0x1d7ec, 0x1d7f6, 0x1e140, 0x1e2f0,
    0x1e4f0, 0x1e950,
    0x1fbf0]

/-- `\d` in a pattern. -/
def isDecimal (c : Char) : Bool :=
  decimalZeros.any fun first => first ≤ c.toNat && c.toNat < first + 10

/-- The maximal runs of characters with a property, in order. -/
def runs (p : Char → Bool) (cs : List Char) : List (List Char) :=
  (cs.splitOnP (fun c => !p c)).filter (fun run => !run.isEmpty)

/-- `" ".join(s.split())`. -/
def joinWords (s : String) : List Char := [' '].intercalate (runs (fun c => !isSpace c) s.toList)

/-- A run of blanks replaced by one space; `inRun` says that the last character was a blank. -/
def collapse (inRun : Bool) : List Char → List Char
  | [] => []
  | c :: cs =>
      if isSpace c then (if inRun then collapse true cs else ' ' :: collapse true cs)
        else c :: collapse false cs

/-- `s.strip()`. -/
def strip (cs : List Char) : List Char := ((cs.dropWhile isSpace).reverse.dropWhile isSpace).reverse

end PyText
