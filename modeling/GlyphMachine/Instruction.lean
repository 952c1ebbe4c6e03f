import GlyphMachine.Opcode

/-!
# Instructions and programs

An instruction pushes a word, or performs an operation.  An operation may carry the literal
written directly before it, and an opener that has found its closer carries the closer's
address as its target.  A program is the list of its instructions; the address of an
instruction is its place in the list.
-/

namespace GlyphMachine

/-- One instruction of a program. -/
inductive Instruction where
  /-- Push a word. -/
  | push (w : Word)
  /-- Perform an operation, with a fused literal and the address of the matching closer. -/
  | op (code : Opcode) (literal : Option Word) (target : Option Nat)
deriving DecidableEq

namespace Instruction

/-- The bare operation. -/
abbrev plain (code : Opcode) : Instruction := .op code none none

/-- The operation fused with the literal before it. -/
abbrev fused (code : Opcode) (w : Word) : Instruction := .op code (some w) none

/-- The operation performed; a push performs none. -/
def opcode? : Instruction → Option Opcode
  | push _ => none
  | op code _ _ => some code

/-- The word carried: what a push pushes, or the fused literal. -/
def literal? : Instruction → Option Word
  | push w => some w
  | op _ literal _ => literal

/-- The address of the matching closer. -/
def target? : Instruction → Option Nat
  | push _ => none
  | op _ _ target => target

/-- Whether the instruction performs `code`. -/
def performs (i : Instruction) (code : Opcode) : Bool := i.opcode? == some code

/-- The instruction with a new target; a push has none to change. -/
def withTarget (i : Instruction) (target : Nat) : Instruction :=
  match i with
  | push w => push w
  | op code literal _ => op code literal (some target)

end Instruction

/-- A program: its instructions in address order. -/
abbrev Program := List Instruction

end GlyphMachine
