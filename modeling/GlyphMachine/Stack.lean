import GlyphMachine.Word

/-!
# Bounded stacks

A stack reads zero wherever nothing was written: an empty stack pops zero, and so do places
below the bottom and above the top.  Pushing onto a full stack is dropped.  Words can also be
reached by their index from the bottom or by their distance from the top; a write above the top
fills the gap with zeros, as long as the index stays below the capacity.
-/

namespace GlyphMachine

/-- A stack of words with room for `capacity` of them. -/
structure Stack where
  capacity : Nat
  /-- The words, bottom first. -/
  words : Array Word
deriving DecidableEq

namespace Stack

/-- The empty stack. -/
def empty (capacity : Nat) : Stack := ⟨capacity, #[]⟩

/-- The number of words. -/
@[inline]
def size (s : Stack) : Nat := s.words.size

/-- Whether there are no words. -/
def isEmpty (s : Stack) : Bool := s.words.isEmpty

/-- Forgets all words. -/
def clear (s : Stack) : Stack := { s with words := #[] }

/-- Puts a word on top, or drops it when the stack is full. -/
@[inline]
def push (s : Stack) (w : Word) : Stack :=
  if s.size < s.capacity then { s with words := s.words.push w } else s

/-- The top word, zero on an empty stack. -/
@[inline]
def top (s : Stack) : Word := s.words.back?.getD 0

/-- Removes the top word, if there is one. -/
@[inline]
def drop (s : Stack) : Stack := { s with words := s.words.pop }

/-- The top word and the stack without it. -/
@[inline]
def pop (s : Stack) : Word × Stack := (s.top, s.drop)

/-! ## Access by index -/

/-- The word at an index from the bottom, zero above the top. -/
@[inline]
def get (s : Stack) (index : Nat) : Word := s.words.getD index 0

/-- Writes the word at an index from the bottom, growing the stack with zeros if need be. -/
@[inline]
def put (s : Stack) (index : Nat) (w : Word) : Stack :=
  if index < s.capacity then
    if index < s.size then { s with words := s.words.setIfInBounds index w }
    else { s with words := (s.words ++ Array.replicate (index - s.size) 0).push w }
  else s

/-- The index of the word `n` below the top; a negative `n` counts above it. -/
@[inline]
def indexFromTop? (s : Stack) (n : Int) : Option Nat := Int.toNat? (s.size - 1 - n)

/-- The word `n` below the top. -/
@[inline]
def fromTop (s : Stack) (n : Int) : Word :=
  match s.indexFromTop? n with
  | some index => s.get index
  | none => 0

/-- Writes the word `n` below the top; below the bottom there is nothing to write. -/
@[inline]
def putFromTop (s : Stack) (n : Int) (w : Word) : Stack :=
  match s.indexFromTop? n with
  | some index => s.put index w
  | none => s

/-! ## Rearranging the top -/

/-- Pushes the top word again. -/
@[inline]
def dup (s : Stack) : Stack := s.push s.top

/-- Exchanges the top two words, if there are two. -/
def exchange (s : Stack) : Stack :=
  let n := s.size
  if 2 ≤ n then { s with words := s.words.swapIfInBounds (n - 2) (n - 1) } else s

/-- Brings the third word to the top, if there are three: `a b c` becomes `b c a`. -/
def rotateUp (s : Stack) : Stack :=
  let n := s.size
  if 3 ≤ n then
    { s with words := (s.words.swapIfInBounds (n - 3) (n - 2)).swapIfInBounds (n - 2) (n - 1) }
  else s

/-- Takes the top word to the third place, if there are three: `a b c` becomes `c a b`. -/
def rotateDown (s : Stack) : Stack :=
  let n := s.size
  if 3 ≤ n then
    { s with words := (s.words.swapIfInBounds (n - 2) (n - 1)).swapIfInBounds (n - 3) (n - 2) }
  else s

/-! ## Computing on the top -/

/-- Replaces the top word `w` by `f w`. -/
@[inline]
def unary (s : Stack) (f : Word → Word) : Stack :=
  let w := s.top
  s.drop.push (f w)

/-- Replaces the top word `w` and the word `v` under it by `f v w`. -/
@[inline]
def binary (s : Stack) (f : Word → Word → Word) : Stack :=
  let w := s.top
  s.drop.unary fun v => f v w

end Stack
end GlyphMachine
