import GlyphMachine.Word

/-!
# Memory

A fixed number of words, zero at first.  Addresses beyond the last word wrap around.
-/

namespace GlyphMachine

/-- The number of words of memory. -/
abbrev memorySize : Nat := 1048576

/-- The memory of a machine. -/
structure Memory where
  words : Vector Word memorySize

namespace Memory

/-- Memory with nothing written. -/
def zero : Memory := ⟨Vector.replicate memorySize 0⟩

/-- An address wrapped around to lie inside the memory. -/
@[inline]
def wrap (addr : Nat) : Fin memorySize := ⟨addr % memorySize, Nat.mod_lt addr (by decide)⟩

/-- The word at an address. -/
@[inline]
def get (m : Memory) (addr : Nat) : Word := m.words.get (wrap addr)

/-- Writes the word at an address. -/
@[inline]
def put (m : Memory) (addr : Nat) (w : Word) : Memory :=
  ⟨m.words.set (wrap addr) w (wrap addr).isLt⟩

/-- Two memories are equal when they hold the same words. -/
theorem ext_get {m n : Memory} (h : ∀ addr, m.get addr = n.get addr) : m = n := by
  obtain ⟨v⟩ := m
  obtain ⟨u⟩ := n
  congr 1
  apply Vector.ext
  intro i hi
  have := h i
  simpa [get, wrap, Vector.get, Nat.mod_eq_of_lt hi] using this

@[simp]
theorem get_zero (addr : Nat) : zero.get addr = 0 := by simp [zero, get, Vector.get]

/-- A write changes the word at its own address, and at no other. -/
theorem get_put (m : Memory) (addr other : Nat) (w : Word) :
    (m.put addr w).get other =
      if addr % memorySize = other % memorySize then w else m.get other := by
  simp [get, put, wrap, Vector.get, Vector.set, Array.getElem_set]
  rfl

end Memory
end GlyphMachine
