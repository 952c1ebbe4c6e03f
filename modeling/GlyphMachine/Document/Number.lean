import GlyphMachine.Document.Text

/-!
# Numbers of a settings document

Whole numbers are signed 64-bit numbers, written in decimal, or without a sign in hexadecimal,
octal or binary after `0x`, `0o` or `0b`.  A number with a fraction or an exponent must not be
too large for a double.  Single underscores may stand between digits, and a decimal number
starts with a zero only if that is all there is before the point.
-/

namespace GlyphMachine.Document

/-- A number with a fraction or an exponent. -/
inductive Decimal where
  /-- The digits as a whole number, times a power of ten. -/
  | finite (negative : Bool) (digits : Nat) (exponent : Int)
  | infinite (negative : Bool)
  | undefined (negative : Bool)
deriving DecidableEq

/-! ## Digits -/

/-- Whether a character is a digit in the given base, at most sixteen. -/
def isDigitOf (base : Nat) (c : Char) : Bool := (hexDigit? c).any (· < base)

/-- The number with the given digits. -/
def ofDigits (base : Nat) (ds : List Char) : Nat :=
  ds.foldl (fun n c => base * n + (hexDigit? c).getD 0) 0

/-- The rest of a run of digits, without the underscores between them. -/
def moreDigits (base : Nat) : List Char → List Char × List Char
  | [] => ([], [])
  | '_' :: c :: rest =>
    if isDigitOf base c then
      let (ds, rest) := moreDigits base rest
      (c :: ds, rest)
    else ([], '_' :: c :: rest)
  | c :: rest =>
    if isDigitOf base c then
      let (ds, rest) := moreDigits base rest
      (c :: ds, rest)
    else ([], c :: rest)

/-- A run of digits, without the underscores between them. -/
def digits? (base : Nat) : Reader (List Char)
  | [] => none
  | c :: rest =>
    if isDigitOf base c then
      let (ds, rest) := moreDigits base rest
      some (c :: ds, rest)
    else none

/-- The digits of a decimal number before the point. -/
def wholeDigits? : Reader (List Char)
  | '0' :: rest => some (['0'], rest)
  | cs => digits? 10 cs

/-- Whether a minus sign starts here, and what follows a sign of either kind. -/
def sign : List Char → Bool × List Char
  | '-' :: rest => (true, rest)
  | '+' :: rest => (false, rest)
  | cs => (false, cs)

/-- The number of the given size and sign. -/
def withSign (negative : Bool) (n : Nat) : Int := if negative then -n else n

/-! ## Whole numbers -/

/-- A number that fits into 64 bits with its sign. -/
def fit? (n : Int) : Option Int :=
  if -9223372036854775808 ≤ n ∧ n ≤ 9223372036854775807 then some n else none

/-- A number in the given base, after the mark of that base. -/
def based? (base : Nat) (cs : List Char) : Option (Int × List Char) := do
  let (ds, rest) ← digits? base cs
  some (← fit? (ofDigits base ds), rest)

/-- A whole number. -/
def integer? : Reader Int
  | '0' :: 'x' :: rest => based? 16 rest
  | '0' :: 'o' :: rest => based? 8 rest
  | '0' :: 'b' :: rest => based? 2 rest
  | cs => do
    let (negative, cs) := sign cs
    let (ds, rest) ← wholeDigits? cs
    some (← fit? (withSign negative (ofDigits 10 ds)), rest)

/-! ## Numbers with a fraction or an exponent -/

/-- The least number that is nearer to infinity than to any double, `2 ^ 1024 - 2 ^ 970`. -/
def doubleLimit : Nat := 18014398509481983 <<< 970

/-- Whether digits times a power of ten reach `doubleLimit`, which has 309 digits. -/
def isBeyondDouble (ds : List Char) (exponent : Int) : Bool :=
  let ds := ds.dropWhile (· == '0')
  let size : Int := ds.length + exponent
  if ds.isEmpty || size < 309 then false
  else if 309 < size then true
  else
    let n := ofDigits 10 ds
    doubleLimit * Nat.pow 10 (-exponent).toNat ≤ n * Nat.pow 10 exponent.toNat

/-- The digits after a point. -/
def fraction? : Reader (List Char)
  | '.' :: rest => digits? 10 rest
  | _ => none

/-- An exponent with its mark. -/
def exponent? : Reader Int
  | [] => none
  | c :: rest =>
    if c = 'e' ∨ c = 'E' then do
      let (negative, rest) := sign rest
      let (ds, rest) ← digits? 10 rest
      some (withSign negative (ofDigits 10 ds), rest)
    else none

/-- The number with the given digits.  Of the numbers beyond the doubles, positive ones are
refused. -/
def finite? (negative : Bool) (ds : List Char) (exponent : Int) : Option Decimal :=
  if !negative && isBeyondDouble ds exponent then none
  else some (.finite negative (ofDigits 10 ds) exponent)

/-- A number with a fraction or an exponent, or both. -/
def decimal? (cs : List Char) : Option (Decimal × List Char) :=
  match sign cs with
  | (negative, 'i' :: 'n' :: 'f' :: rest) => some (.infinite negative, rest)
  | (negative, 'n' :: 'a' :: 'n' :: rest) => some (.undefined negative, rest)
  | (negative, cs) => do
    let (whole, rest) ← wholeDigits? cs
    match fraction? rest with
    | some (fraction, rest) =>
      let (exponent, rest) := (exponent? rest).getD (0, rest)
      some (← finite? negative (whole ++ fraction) (exponent - fraction.length), rest)
    | none =>
      let (exponent, rest) ← exponent? rest
      some (← finite? negative whole exponent, rest)

end GlyphMachine.Document
