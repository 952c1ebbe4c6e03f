import GlyphMachine.Memory

/-!
# The address space

Addresses have 20 bits.  In simple addressing all of them name memory.  In full addressing the
upper part shows the two stacks, bottom first:

* `00000`–`C7FFF` memory;
* `C8000`–`CFFFF` the control stack, twice;
* `D0000`–`DFFFF` the lower half of the data stack;
* `E0000`–`FFFFF` the data stack.
-/

namespace GlyphMachine

/-- How loads, stores, definitions and calls read an address. -/
inductive Addressing where
  /-- Memory, and the stacks above it. -/
  | full
  /-- Memory only. -/
  | simple
deriving DecidableEq

/-- The place that an address names. -/
inductive Region where
  | memory (addr : Nat)
  | control (index : Nat)
  | data (index : Nat)
deriving DecidableEq

/-- The first address that shows a stack in full addressing. -/
def windowStart : Nat := 0xC8000

/-- The address that a word names: its swapped halves, 20 bits of them. -/
@[inline]
def Word.address (w : Word) : Nat := w.swapHalves.toUInt32.toNat % memorySize

namespace Addressing

/-- The place that an address names. -/
@[inline]
def region (a : Addressing) (addr : Nat) : Region :=
  let addr := addr % memorySize
  match a with
  | simple => .memory addr
  | full =>
    if addr < windowStart then .memory addr
    else if addr < 0xD0000 then .control (addr % 0x4000)
    else if addr < 0xE0000 then .data (addr % 0x10000)
    else .data (addr % 0x20000)

/-- Whether an address surely names memory. -/
def isDirect (a : Addressing) (addr : Nat) : Bool := a = simple || addr < windowStart

end Addressing
end GlyphMachine
