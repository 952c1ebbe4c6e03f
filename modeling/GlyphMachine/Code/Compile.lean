import GlyphMachine.Code.Lower

/-!
# Compiling programs into blocks

The instructions are lowered in order.  A block is closed after every instruction that
transfers control; what is left open at the end goes on to the address after the program.
-/

namespace GlyphMachine

/-- The code built from the instructions read so far. -/
structure CodeBuilder where
  blocks : Array Block := #[]
  entries : Array Entry := #[]
  /-- The operations of the open block. -/
  body : Array Op := #[]

namespace CodeBuilder

/-- Adds an operation to the open block. -/
def addOp (b : CodeBuilder) : Option Op → CodeBuilder
  | none => b
  | some op => { b with body := b.body.push op }

/-- Closes the open block. -/
def close (b : CodeBuilder) (exit : Exit) : CodeBuilder :=
  { b with blocks := b.blocks.push ⟨b.body.toList, exit⟩, body := #[] }

/-- Adds the instruction at the next address. -/
def add (b : CodeBuilder) (l : Lowered) : CodeBuilder :=
  let b := { b with entries := b.entries.push ⟨b.blocks.size, b.body.size⟩ }
  let b := b.addOp l.op
  match l.exit with
  | none => b
  | some exit => b.close exit

/-- Whether the last address lies in the open block. -/
def isOpen (b : CodeBuilder) : Bool :=
  match b.entries.back? with
  | none => false
  | some entry => entry.block == b.blocks.size

/-- The finished code. -/
def finish (b : CodeBuilder) : Code :=
  let b := if b.isOpen then b.close (.goto b.entries.size) else b
  ⟨b.blocks, b.entries⟩

end CodeBuilder

namespace Program

/-- What the instructions of a program do, in address order. -/
def lowered (addressing : Addressing) (p : Program) : List Lowered :=
  p.mapIdx fun addr i => i.lower addressing addr

/-- The program in blocks, for the given addressing. -/
def compile (addressing : Addressing) (p : Program) : Code :=
  ((p.lowered addressing).foldl CodeBuilder.add {}).finish

end Program
end GlyphMachine
