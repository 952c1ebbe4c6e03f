import GlyphMachine.Opcode
import GlyphMachine.Text.Unprintable

/-!
# Decoding characters

`Opcode.decode` says which opcode a character stands for, or why it stands for none.  Reading a
program never reports these causes: it skips the character.

A character in a message stands between single quotes.  The common controls, the quote and the
backslash have short escapes, other unprintable characters show their code point.
-/

namespace GlyphMachine

/-! ## Quoted characters -/

namespace Text

/-- The code point in lower-case hexadecimal. -/
def codePoint (c : Char) : String := String.ofList (Nat.toDigits 16 c.toNat)

/-- The text of `c` inside quotes. -/
def escapeChar (c : Char) : String :=
  if c = '\x00' then "\\0"
  else if c = '\t' then "\\t"
  else if c = '\r' then "\\r"
  else if c = '\n' then "\\n"
  else if c = '\x27' then "\\\x27"
  else if c = '\\' then "\\\\"
  else if isUnprintable c then "\\u\x7b" ++ codePoint c ++ "\x7d"
  else String.singleton c

/-- The character between single quotes. -/
def quoteChar (c : Char) : String := "\x27" ++ escapeChar c ++ "\x27"

end Text

/-! ## Decoding -/

/-- Why a character is no opcode. -/
inductive DecodeError where
  /-- The character means nothing. -/
  | unknownSymbol (c : Char)
  /-- The character belongs to a literal. -/
  | literalDigit (c : Char)
deriving DecidableEq

/-- The wording of the cause. -/
def DecodeError.message : DecodeError → String
  | .unknownSymbol c => "unknown symbol " ++ Text.quoteChar c
  | .literalDigit c => "literal digit " ++ Text.quoteChar c ++ " is not an opcode"

/-- The opcode of a character. -/
def Opcode.decode (c : Char) : Except DecodeError Opcode :=
  match Opcode.ofChar? c with
  | some op => .ok op
  | none => .error (if Literal.isLiteralChar c then .literalDigit c else .unknownSymbol c)

end GlyphMachine
