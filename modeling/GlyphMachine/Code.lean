import GlyphMachine.Instruction

/-!
# Block code

A program is run as *blocks*: stretches of straight-line operations that end in one transfer of
control.  Every address of the program has an entry, a block and an offset into it, so that a
jump into the middle of a block runs the rest of that block.
-/

namespace GlyphMachine

/-- Arithmetic on the two top words. -/
inductive BinaryOp where
  | add | sub | mul | div | mod | bitAnd | bitOr | bitXor | shift | rotate | angle
deriving DecidableEq

/-- The result for the top word and the one under it. -/
def BinaryOp.apply : BinaryOp → (second top : Word) → Word
  | add, v, w => v + w
  | sub, v, w => v - w
  | mul, v, w => v.product w
  | div, v, w => v.quotient w
  | mod, v, w => v.remainder w
  | bitAnd, v, w => v &&& w
  | bitOr, v, w => v ||| w
  | bitXor, v, w => v ^^^ w
  | shift, v, w => Word.shift v w
  | rotate, v, w => Word.rotate v w
  | angle, v, w => Word.angle w v

/-- Arithmetic on the top word. -/
inductive UnaryOp where
  | sine | root | bitNot | negativePart | positivePart | zeroTest
deriving DecidableEq

/-- The result for the top word. -/
def UnaryOp.apply : UnaryOp → Word → Word
  | sine, w => w.sine
  | root, w => w.root
  | bitNot, w => ~~~w
  | negativePart, w => w.negativePart
  | positivePart, w => w.positivePart
  | zeroTest, w => w.zeroTest

/-- A straight-line operation. -/
inductive Op where
  | push (w : Word)
  | pushTwice (w : Word)
  | binary (f : BinaryOp)
  /-- The fused literal is the top operand. -/
  | binaryWith (f : BinaryOp) (w : Word)
  | unary (f : UnaryOp)
  | dup
  | drop
  | exchange
  | rotateUp
  | rotateDown
  | pick
  | pickAt (n : Int)
  | bury
  | buryAt (n : Int)
  | load
  /-- A fixed address that may show a stack. -/
  | loadAt (addr : Nat)
  /-- A fixed address in memory. -/
  | loadDirect (addr : Nat)
  | store
  | storeAt (addr : Nat)
  | storeDirect (addr : Nat)
  | fromControl
  | toControl
  | toControlWith (w : Word)
  /-- Push the control word `n` below the top. -/
  | controlPeek (n : Int)
  /-- Push the loop marker. -/
  | mark (marker : Word)
  /-- Move the counter to the control stack and push the loop marker. -/
  | markCounted (marker : Word)
  | markCountedWith (count marker : Word)
  /-- Store the entry of a subroutine at the popped address. -/
  | define (entry : Word)
  | defineAt (addr : Nat) (entry : Word)
  /-- Push the context of the sample. -/
  | context
deriving DecidableEq

/-- How a block hands control on. -/
inductive Exit where
  | goto (next : Nat)
  /-- Pop; zero goes to `skipTo`, everything else to `next`. -/
  | ifZero (skipTo next : Nat)
  /-- Pop; zero leaves the loop, everything else goes back to the marker. -/
  | loopWhile (next : Nat)
  /-- Count down; zero leaves the loop, everything else goes back to the marker. -/
  | countDown (next : Nat)
  /-- Go to the popped control word. -/
  | ret
  /-- Push the return address and go where the slot says; the slot is popped if not given. -/
  | call (back : Word) (slot : Option Nat)
  /-- Go to the popped word. -/
  | jump
  | jumpTo (target : Int)
  /-- End the video pass. -/
  | switch (addr resume : Nat)
  | terminate (addr : Nat)
deriving DecidableEq

/-- Straight-line operations and the transfer after them. -/
structure Block where
  ops : List Op
  exit : Exit
deriving DecidableEq

/-- Where an address of the program is found in its blocks. -/
structure Entry where
  block : Nat
  offset : Nat
deriving DecidableEq

/-- A program in blocks. -/
structure Code where
  /-- The blocks in program order. -/
  blocks : Array Block
  /-- The entry of every address. -/
  entries : Array Entry
deriving DecidableEq

namespace Code

/-- The code of the empty program. -/
def empty : Code := ⟨#[], #[]⟩

/-- The number of addresses. -/
@[inline]
def size (c : Code) : Nat := c.entries.size

/-- The number of blocks. -/
def blockCount (c : Code) : Nat := c.blocks.size

/-- The number of operations in all blocks. -/
def opCount (c : Code) : Nat := c.blocks.foldl (fun n b => n + b.ops.length) 0

/-- What is run from an address on: the rest of its block, and the transfer. -/
@[inline]
def rest? (c : Code) (addr : Nat) : Option Block := do
  let entry ← c.entries[addr]?
  let block ← c.blocks[entry.block]?
  some { block with ops := block.ops.drop entry.offset }

end Code
end GlyphMachine
