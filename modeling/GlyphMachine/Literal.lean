import GlyphMachine.Word

/-!
# Literals

A literal is a run of upper-case hexadecimal digits and points.  `Literal.value` reads one:
digits before the first point shift in from the right and the last four count, digits after it
fill the fraction from the left and the first four count, further points mean nothing.
`Literal.text` writes a word back with the fewest digits.
-/

namespace GlyphMachine.Literal

/-- The value of an upper-case hexadecimal digit. -/
def digit? (c : Char) : Option Nat :=
  if '0' ≤ c ∧ c ≤ '9' then some (c.toNat - 48)
  else if 'A' ≤ c ∧ c ≤ 'F' then some (c.toNat - 55)
  else none

/-- Whether `c` may stand in a literal. -/
def isLiteralChar (c : Char) : Bool := c == '.' || (digit? c).isSome

/-- A literal read so far. -/
structure Reading where
  /-- The digits before the point. -/
  whole : UInt16 := 0
  /-- The digits after the point, in their final places. -/
  fraction : UInt16 := 0
  /-- How many fraction digits are still taken; `none` before the point. -/
  places : Option Nat := none
deriving DecidableEq

/-- Reads one more character. -/
def Reading.next (r : Reading) (c : Char) : Reading :=
  match digit? c, r.places with
  | none, none => { r with places := some 4 }
  | none, some _ => r
  | some d, none => { r with whole := r.whole * 16 + UInt16.ofNat d }
  | some _, some 0 => r
  | some d, some (n + 1) =>
    { r with fraction := r.fraction + UInt16.ofNat (d <<< (4 * n)), places := some n }

/-- The word that a run of literal characters denotes. -/
def value (text : List Char) : Word :=
  let r := text.foldl Reading.next {}
  Word.ofHalves r.whole.toUInt32 r.fraction.toUInt32

/-- The upper-case hexadecimal digit of `n < 16`. -/
def digitChar (n : Nat) : Char := Char.ofNat (if n < 10 then 48 + n else 55 + n)

/-- The four hexadecimal digits of a half word, most significant first. -/
def digits (h : UInt16) : List Nat :=
  let n := h.toNat
  [n / 4096, n / 256 % 16, n / 16 % 16, n % 16]

/-- The digits of the whole half, without leading zeros. -/
def wholeDigits (h : UInt16) : List Nat :=
  match (digits h).dropWhile (· == 0) with
  | [] => [0]
  | ds => ds

/-- The digits of the fraction half, without trailing zeros. -/
def fractionDigits (h : UInt16) : List Nat :=
  ((digits h).reverse.dropWhile (· == 0)).reverse

/-- The characters of the shortest literal for `w` that starts with a digit. -/
def chars (w : Word) : List Char :=
  let before := (wholeDigits w.whole).map digitChar
  match (fractionDigits w.fraction).map digitChar with
  | [] => before
  | after => before ++ '.' :: after

/-- The shortest literal for `w` that starts with a digit. -/
def text (w : Word) : String := String.ofList (chars w)

end GlyphMachine.Literal
