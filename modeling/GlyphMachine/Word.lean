/-!
# Fixed-point words

Every value the machine holds is a `Word`: 32 bits read as a signed number with 16 bits before
and 16 bits after the point.  Data, addresses, loop counters and return addresses share this
form, so an address is written in the whole half and used after the halves are exchanged.

* Sums and differences are those of `Int32`: they wrap.
* `product`, `quotient` and `remainder` compute in 64 bits, truncate toward zero and then wrap.
* `shift` and `rotate` take their amount from the whole half of the second operand.
* `sine`, `root` and `angle` compute in double precision, in the order written here, and drop what
  lies beyond the last fraction bit.  Angles are counted in turns: `1.0` is one full turn.
* `swapHalves_swapHalves` — exchanging the halves twice changes nothing; hence
  `offset_ofAddress`: the word that names an address is read back as that address.
-/

namespace GlyphMachine

/-- A fixed-point number: the signed integer `n` stands for `n / 65536`. -/
abbrev Word := Int32

namespace Word

/-- The number one. -/
def one : Word := 65536

/-- The 16 bits before the point. -/
def whole (w : Word) : UInt16 := (w.toUInt32 >>> 16).toUInt16

/-- The 16 bits after the point. -/
def fraction (w : Word) : UInt16 := w.toUInt32.toUInt16

/-- The word with the given halves; only the low 16 bits of each count. -/
def ofHalves (whole fraction : UInt32) : Word :=
  ((whole <<< 16) ||| (fraction &&& 0xFFFF)).toInt32

/-- Exchanges the whole and the fraction half.  It is its own inverse. -/
def swapHalves (w : Word) : Word :=
  ((w.toUInt32 <<< 16) ||| (w.toUInt32 >>> 16)).toInt32

/-- The integer that a word names as an offset or as a jump target. -/
def offset (w : Word) : Int := w.swapHalves.toInt

/-- The word that names the address `n`: what `offset` reads back while `n` fits in 31 bits. -/
def ofAddress (n : Nat) : Word := swapHalves (Int32.ofNat n)

/-! ## Arithmetic -/

/-- `a * b`, truncated toward zero. -/
def product (a b : Word) : Word := (a.toInt64 * b.toInt64 / 65536).toInt32

/-- `a / b`, truncated toward zero; dividing by zero gives zero. -/
def quotient (a b : Word) : Word :=
  if b = 0 then 0 else (a.toInt64 * 65536 / b.toInt64).toInt32

/-- What `a` leaves over whole multiples of `b`, with the sign of `a`; zero when `b` is zero. -/
def remainder (a b : Word) : Word := if b = 0 then 0 else a % b

/-- Shifts by the low six bits of the whole half of `amount`: `0` to `31` to the left, `32` to
`63` to the right by `0` to `31`, keeping the sign. -/
def shift (value amount : Word) : Word :=
  let steps := (amount >>> 16) &&& 63
  if steps < 32 then value <<< steps else value >>> (steps - 32)

/-- Rotates to the right by the low five bits of the whole half of `amount`. -/
def rotate (value amount : Word) : Word :=
  let steps := (amount.toUInt32 >>> 16) &&& 31
  ((value.toUInt32 >>> steps) ||| (value.toUInt32 <<< (32 - steps))).toInt32

/-- The word when it is negative, else zero. -/
def negativePart (w : Word) : Word := if w < 0 then w else 0

/-- The word when it is positive, else zero. -/
def positivePart (w : Word) : Word := if 0 < w then w else 0

/-- The smallest positive word when `w` is zero, else zero. -/
def zeroTest (w : Word) : Word := if w = 0 then 1 else 0

/-! ## Sine, root and angle -/

/-- The angle of one full turn in radians. -/
def fullTurn : Float := 6.283185307179586476925286766559

/-- The number of words in one unit, and in one turn. -/
def unit : Float := 65536.0

/-- The sine of an angle in turns. -/
def sine (w : Word) : Word := (Float.sin (w.toFloat * (fullTurn / unit)) * unit).toInt32

/-- The square root; zero for negative words. -/
def root (w : Word) : Word :=
  if w < 0 then 0 else (unit * Float.sqrt (w.toFloat / unit)).toInt32

/-- The angle of the vector `(x, y)` in turns. -/
def angle (y x : Word) : Word := (Float.atan2 y.toFloat x.toFloat * (unit / fullTurn)).toInt32

/-! ## Laws -/

theorem toBitVec_swapHalves (w : Word) :
    w.swapHalves.toBitVec = (w.toBitVec <<< 16) ||| (w.toBitVec >>> 16) := by
  simp [swapHalves]

@[simp]
theorem swapHalves_swapHalves (w : Word) : w.swapHalves.swapHalves = w := by
  apply Int32.toBitVec_inj.1
  rw [toBitVec_swapHalves, toBitVec_swapHalves]
  apply BitVec.eq_of_getLsbD_eq
  intro i hi
  simp only [BitVec.getLsbD_or, BitVec.getLsbD_shiftLeft, BitVec.getLsbD_ushiftRight]
  by_cases h : i < 16
  · have h1 : 16 + i < 32 := by omega
    have h2 : ¬ 16 + i < 16 := by omega
    have h3 : (32 : Nat) ≤ 16 + (16 + i) := by omega
    simp [h, h1, h2, BitVec.getLsbD_of_ge _ _ h3]
  · have h1 : i - 16 < 16 := by omega
    have h2 : 16 + (i - 16) = i := by omega
    have h3 : ¬ 16 + i < 32 := by omega
    have h4 : (32 : Nat) ≤ 16 + (16 + i) := by omega
    simp [h, h1, h2, h3, hi, BitVec.getLsbD_of_ge _ _ h4]

/-- An address below `2 ^ 31` survives being named by a word. -/
theorem offset_ofAddress {n : Nat} (h : n < 2147483648) : (ofAddress n).offset = n := by
  rw [offset, ofAddress, swapHalves_swapHalves, Int32.toInt_ofNat_of_lt (by omega)]

end Word
end GlyphMachine
