import GlyphMachine.Instruction

/-!
# Printing programs

* `Program.source` writes a program as text that reads back: one blank between instructions, so
  that a literal touches an opcode only inside a fused instruction.
* `Program.listing` writes one line per instruction: address, mnemonic, literal and target.  Short
  texts are padded to the width of their column, and a text that is too long for it is kept whole.
-/

namespace GlyphMachine

/-! ## Columns -/

namespace Text

/-- Fills a text on the left up to `width` characters. -/
def padLeft (width : Nat) (fill : Char) (s : List Char) : List Char :=
  List.replicate (width - s.length) fill ++ s

/-- Fills a text with blanks on the right up to `width` characters. -/
def padRight (width : Nat) (s : List Char) : List Char :=
  s ++ List.replicate (width - s.length) ' '

/-- Cuts the blanks at the end of a text. -/
def trimEnd (s : List Char) : List Char := (s.reverse.dropWhile (· == ' ')).reverse

/-- The decimal digits of a number, at least `width` of them. -/
def decimal (width n : Nat) : List Char := padLeft width '0' (Nat.toDigits 10 n)

/-- The lower-case hexadecimal digits of a number, at least `width` of them. -/
def hexadecimal (width n : Nat) : List Char := padLeft width '0' (Nat.toDigits 16 n)

end Text

/-! ## Programs -/

/-- The instruction as it is written in a program. -/
def Instruction.source : Instruction → List Char
  | push w => Literal.chars w
  | op code literal _ => (literal.elim [] Literal.chars) ++ code.symbol.toList

/-- The name of the operation in a listing. -/
def Instruction.mnemonic (i : Instruction) : String :=
  match i.opcode? with
  | some code => code.mnemonic
  | none => "PUSH"

/-- The line of a listing for the instruction at `addr`, without its end. -/
def Instruction.listingLine (addr : Nat) (i : Instruction) : List Char :=
  let columns := Text.decimal 4 addr ++ [' ', ' '] ++ Text.padRight 12 i.mnemonic.toList ++ [' '] ++
    Text.padRight 9 (i.literal?.elim [] Literal.chars)
  let arrow := match i.target? with
    | some target => [' ', '-', '>', ' '] ++ Text.decimal 4 target
    | none => []
  Text.trimEnd (columns ++ arrow)

namespace Program

/-- The program as text. -/
def source (p : Program) : String :=
  String.ofList ([' '].intercalate (p.map Instruction.source))

/-- The listing of the program. -/
def listing (p : Program) : String :=
  String.ofList (p.mapIdx fun addr i => i.listingLine addr ++ ['\n']).flatten

end Program
end GlyphMachine
