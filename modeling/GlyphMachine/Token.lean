import GlyphMachine.Instruction

/-!
# Tokens

A source text is cut into literals and opcodes; every other character separates tokens and
means nothing.  A token keeps the span of characters it covers, because a literal is fused with
an opcode only when the two touch.

A literal that touches an opcode which takes one becomes a single instruction.  Sine, root and
complement of a literal are constants and become a push.  Two touching rotations become the
reversed rotation.  Every other token is an instruction of its own.
-/

namespace GlyphMachine

/-- What a token stands for. -/
inductive Lexeme where
  | literal (w : Word)
  | op (code : Opcode)
deriving DecidableEq

/-- A lexeme and the characters `start, …, stop - 1` that it covers. -/
structure Token where
  lexeme : Lexeme
  start : Nat
  stop : Nat
deriving DecidableEq

namespace Token

/-- Whether `next` starts where `t` stops. -/
def touches (t next : Token) : Bool := t.stop == next.start

/-- The token of a run of literal characters, given last character first, that stops at `stop`;
an empty run is no token. -/
def ofRun (stop : Nat) (run : List Char) : List Token :=
  if run.isEmpty then []
  else [⟨.literal (Literal.value run.reverse), stop - run.length, stop⟩]

/-- The tokens from position `pos` on, when the literal characters of `run`, last first, stand
directly before it. -/
def scanFrom (pos : Nat) (run : List Char) : List Char → List Token
  | [] => ofRun pos run
  | c :: cs =>
    if Literal.isLiteralChar c then scanFrom (pos + 1) (c :: run) cs
    else
      let rest := scanFrom (pos + 1) [] cs
      match Opcode.ofChar? c with
      | some code => ofRun pos run ++ ⟨.op code, pos, pos + 1⟩ :: rest
      | none => ofRun pos run ++ rest

/-- The tokens of a text. -/
def scan (text : List Char) : List Token := scanFrom 0 [] text

end Token

namespace Instruction

/-- The instruction of a literal that touches the opcode after it. -/
def fuse (code : Opcode) (w : Word) : Instruction :=
  match code with
  | .sine => push w.sine
  | .root => push w.root
  | .bitNot => push (~~~w)
  | code => fused code w

/-- The single instruction of two neighbouring tokens, if they form one. -/
def ofPair? (t next : Token) : Option Instruction :=
  if t.touches next then
    match t.lexeme, next.lexeme with
    | .literal w, .op code => if code.takesLiteral then some (fuse code w) else none
    | .op .rotateUp, .op .rotateUp => some (plain .rotateDown)
    | _, _ => none
  else none

/-- The instruction of a token that stands alone. -/
def ofToken (t : Token) : Instruction :=
  match t.lexeme with
  | .literal w => push w
  | .op code => plain code

/-- The instructions of a list of tokens, no targets set. -/
def ofTokens : List Token → List Instruction
  | [] => []
  | [t] => [ofToken t]
  | t :: next :: rest =>
    match ofPair? t next with
    | some i => i :: ofTokens rest
    | none => ofToken t :: ofTokens (next :: rest)

end Instruction
end GlyphMachine
