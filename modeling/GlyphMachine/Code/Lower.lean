import GlyphMachine.Addressing
import GlyphMachine.Code

/-!
# Lowering

`Instruction.lower` says what one instruction does: at most one straight-line operation, and a
transfer of control if what runs next is not simply the next instruction.
-/

namespace GlyphMachine

/-- What a single instruction contributes to a block. -/
structure Lowered where
  op : Option Op := none
  exit : Option Exit := none
deriving DecidableEq

namespace Lowered

/-- An instruction that does nothing. -/
def nothing : Lowered := {}

/-- An instruction that goes on to the next. -/
def straight (op : Op) : Lowered := { op := some op }

/-- An instruction that only transfers control. -/
def leave (exit : Exit) : Lowered := { exit := some exit }

end Lowered

namespace Instruction

/-- Arithmetic on two words, of which a fused literal is the top one. -/
def lowerBinary (f : BinaryOp) : Option Word → Lowered
  | none => .straight (.binary f)
  | some w => .straight (.binaryWith f w)

/-- Arithmetic on one word; on a fused literal it is a constant. -/
def lowerUnary (f : UnaryOp) : Option Word → Lowered
  | none => .straight (.unary f)
  | some w => .straight (.push (f.apply w))

/-- A load; a fused literal fixes the address. -/
def lowerLoad (addressing : Addressing) : Option Word → Lowered
  | none => .straight .load
  | some w =>
    if addressing.isDirect w.address then .straight (.loadDirect w.address)
    else .straight (.loadAt w.address)

/-- A store; a fused literal fixes the address. -/
def lowerStore (addressing : Addressing) : Option Word → Lowered
  | none => .straight .store
  | some w =>
    if addressing.isDirect w.address then .straight (.storeDirect w.address)
    else .straight (.storeAt w.address)

/-- A definition; without an end it does nothing. -/
def lowerDefine (entry : Word) (literal : Option Word) : Option Nat → Lowered
  | none => .nothing
  | some last =>
    { op := some (match literal with
        | none => .define entry
        | some w => .defineAt w.address entry)
      exit := some (.goto (last + 1)) }

/-- What the operation `code` at `addr` does, for its fused literal and target. -/
def lowerOp (addressing : Addressing) (addr : Nat) (code : Opcode) (literal : Option Word)
    (target : Option Nat) : Lowered :=
  let next := addr + 1
  let here := Word.ofAddress next
  match code with
  | .add => lowerBinary .add literal
  | .sub => lowerBinary .sub literal
  | .mul => lowerBinary .mul literal
  | .div => lowerBinary .div literal
  | .mod => lowerBinary .mod literal
  | .bitAnd => lowerBinary .bitAnd literal
  | .bitOr => lowerBinary .bitOr literal
  | .bitXor => lowerBinary .bitXor literal
  | .shift => lowerBinary .shift literal
  | .rotate => lowerBinary .rotate literal
  | .angle => lowerBinary .angle literal
  | .sine => lowerUnary .sine literal
  | .root => lowerUnary .root literal
  | .bitNot => lowerUnary .bitNot literal
  | .negativePart => .straight (.unary .negativePart)
  | .positivePart => .straight (.unary .positivePart)
  | .zeroTest => .straight (.unary .zeroTest)
  | .dup => .straight (literal.elim .dup .pushTwice)
  | .pop => if literal.isSome then .nothing else .straight .drop
  | .exchange => .straight .exchange
  | .rotateUp => .straight .rotateUp
  | .rotateDown => .straight .rotateDown
  | .pick => .straight (literal.elim .pick fun w => .pickAt w.offset)
  | .bury => .straight (literal.elim .bury fun w => .buryAt w.offset)
  | .load => lowerLoad addressing literal
  | .store => lowerStore addressing literal
  | .fromControl => .straight .fromControl
  | .toControl => .straight (literal.elim .toControl .toControlWith)
  | .index => .straight (.controlPeek 1)
  | .outerIndex => .straight (.controlPeek 3)
  | .begin => .straight (.mark here)
  | .loopWhile => .leave (.loopWhile next)
  | .times => .straight (literal.elim (.markCounted here) fun w => .markCountedWith w here)
  | .loop => .leave (.countDown next)
  | .branch => target.elim .nothing fun last => .leave (.ifZero (last + 1) next)
  | .otherwise => target.elim .nothing fun last => .leave (.goto (last + 1))
  | .endBranch => .nothing
  | .define => lowerDefine here literal target
  | .ret => .leave .ret
  | .call => .leave (.call here (literal.map Word.address))
  | .jump => .leave (literal.elim .jump fun w => .jumpTo w.offset)
  | .context => .straight .context
  | .mediaSwitch => .leave (.switch addr next)
  | .terminate => .leave (.terminate addr)

/-- What the instruction at `addr` does. -/
def lower (addressing : Addressing) (addr : Nat) : Instruction → Lowered
  | push w => .straight (.push w)
  | op code literal target => lowerOp addressing addr code literal target

end Instruction
end GlyphMachine
