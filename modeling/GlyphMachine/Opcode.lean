import GlyphMachine.Literal

/-!
# Opcodes

The instruction set: one character each, except the reversed rotation, which is written as two
touching `v`.  `Opcode.symbol` is the written form, `Opcode.mnemonic` the name in listings, and
`Opcode.ofChar?` reads a character back.
-/

namespace GlyphMachine

/-- An operation of the machine. -/
inductive Opcode where
  | add
  | sub
  | mul
  | div
  | mod
  | bitAnd
  | bitOr
  | bitXor
  | bitNot
  | shift
  | rotate
  | sine
  | root
  | angle
  | negativePart
  | positivePart
  | zeroTest
  /-- Push the top word again. -/
  | dup
  /-- Drop the top word. -/
  | pop
  /-- Exchange the top two words. -/
  | exchange
  /-- Rotate the third word to the top. -/
  | rotateUp
  /-- Rotate the top word to the third place. -/
  | rotateDown
  /-- Copy the word `n` below the top. -/
  | pick
  /-- Overwrite the word `n` below the top. -/
  | bury
  | load
  | store
  /-- Move the top of the control stack to the data stack. -/
  | fromControl
  /-- Move the top of the data stack to the control stack. -/
  | toControl
  /-- The counter of the innermost loop. -/
  | index
  /-- The counter of the loop around the innermost. -/
  | outerIndex
  /-- Start a conditional loop. -/
  | begin
  /-- Go round again while the popped word is not zero. -/
  | loopWhile
  /-- Start a counted loop. -/
  | times
  /-- Count down and go round again while the counter is not zero. -/
  | loop
  /-- Skip to the other branch when the popped word is zero. -/
  | branch
  | otherwise
  | endBranch
  /-- Define a subroutine and skip over its body. -/
  | define
  | ret
  | call
  | jump
  /-- Push the context of the sample. -/
  | context
  /-- End the video pass and go on with audio. -/
  | mediaSwitch
  | terminate
deriving DecidableEq

namespace Opcode

/-- The written form. -/
def symbol : Opcode → String
  | add => "+"
  | sub => "-"
  | mul => "*"
  | div => "/"
  | mod => "%"
  | bitAnd => "&"
  | bitOr => "|"
  | bitXor => "^"
  | bitNot => "~"
  | shift => "l"
  | rotate => "r"
  | sine => "s"
  | root => "q"
  | angle => "a"
  | negativePart => "<"
  | positivePart => ">"
  | zeroTest => "="
  | dup => "d"
  | pop => "p"
  | exchange => "x"
  | rotateUp => "v"
  | rotateDown => "vv"
  | pick => ")"
  | bury => "("
  | load => "@"
  | store => "!"
  | fromControl => "R"
  | toControl => "P"
  | index => "i"
  | outerIndex => "j"
  | begin => "["
  | loopWhile => "]"
  | times => "X"
  | loop => "L"
  | branch => "?"
  | otherwise => ":"
  | endBranch => ";"
  | define => "\x7b"
  | ret => "\x7d"
  | call => "V"
  | jump => "J"
  | context => "w"
  | mediaSwitch => "M"
  | terminate => "T"

/-- The name in listings. -/
def mnemonic : Opcode → String
  | add => "ADD"
  | sub => "SUB"
  | mul => "MUL"
  | div => "DIV"
  | mod => "MOD"
  | bitAnd => "AND"
  | bitOr => "OR"
  | bitXor => "XOR"
  | bitNot => "NOT"
  | shift => "SHIFT"
  | rotate => "ROR"
  | sine => "SIN"
  | root => "SQRT"
  | angle => "ATAN2"
  | negativePart => "NEG_PART"
  | positivePart => "POS_PART"
  | zeroTest => "IS_ZERO"
  | dup => "DUP"
  | pop => "POP"
  | exchange => "EXCHANGE"
  | rotateUp => "TRIROT"
  | rotateDown => "TRIROT_REV"
  | pick => "PICK"
  | bury => "BURY"
  | load => "LOAD"
  | store => "STORE"
  | fromControl => "FROM_CONTROL"
  | toControl => "TO_CONTROL"
  | index => "INDEX"
  | outerIndex => "OUTER_INDEX"
  | begin => "BEGIN"
  | loopWhile => "WHILE"
  | times => "TIMES"
  | loop => "LOOP"
  | branch => "IF"
  | otherwise => "ELSE"
  | endBranch => "ENDIF"
  | define => "DEFINE"
  | ret => "RETURN"
  | call => "CALL"
  | jump => "JUMP"
  | context => "WHERE"
  | mediaSwitch => "MEDIA_SWITCH"
  | terminate => "TERMINATE"

/-- The opcode that a single character stands for. -/
def ofChar? : Char → Option Opcode
  | '+' => some add
  | '-' => some sub
  | '*' => some mul
  | '/' => some div
  | '%' => some mod
  | '&' => some bitAnd
  | '|' => some bitOr
  | '^' => some bitXor
  | '~' => some bitNot
  | 'l' => some shift
  | 'r' => some rotate
  | 's' => some sine
  | 'q' => some root
  | 'a' => some angle
  | '<' => some negativePart
  | '>' => some positivePart
  | '=' => some zeroTest
  | 'd' => some dup
  | 'p' => some pop
  | 'x' => some exchange
  | 'v' => some rotateUp
  | ')' => some pick
  | '(' => some bury
  | '@' => some load
  | '!' => some store
  | 'R' => some fromControl
  | 'P' => some toControl
  | 'i' => some index
  | 'j' => some outerIndex
  | '[' => some begin
  | ']' => some loopWhile
  | 'X' => some times
  | 'L' => some loop
  | '?' => some branch
  | ':' => some otherwise
  | ';' => some endBranch
  | '\x7b' => some define
  | '\x7d' => some ret
  | 'V' => some call
  | 'J' => some jump
  | 'w' => some context
  | 'M' => some mediaSwitch
  | 'T' => some terminate
  | _ => none

/-- The opcode with the given written form. -/
def ofSymbol? (s : String) : Option Opcode :=
  match s.toList with
  | [c] => ofChar? c
  | ['v', 'v'] => some rotateDown
  | _ => none

/-- Whether a literal written directly before the opcode becomes part of the instruction. -/
def takesLiteral : Opcode → Bool
  | add | sub | mul | div | mod | bitAnd | bitOr | bitXor | bitNot | shift | rotate | sine | root
  | angle | dup | pop | pick | bury | load | store | toControl | times | define | call | jump =>
    true
  | _ => false

@[simp]
theorem ofSymbol?_symbol (code : Opcode) : ofSymbol? code.symbol = some code := by
  cases code <;> rfl

/-- No opcode is a literal character. -/
theorem isLiteralChar_eq_false {c : Char} {code : Opcode} (h : ofChar? c = some code) :
    Literal.isLiteralChar c = false := by
  unfold ofChar? at h
  split at h <;> try rfl
  cases h

end Opcode
end GlyphMachine
