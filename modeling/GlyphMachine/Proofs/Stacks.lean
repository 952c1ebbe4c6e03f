import GlyphMachine.Stack.Lemmas

/-!
# Stacks with a few words on top

What an operation sees of a stack with room and one or two words pushed onto it: the operands of
arithmetic, or the counter and the marker of a loop.

* `get_push` — a pushed word is the one at the old size, and no other word changes.
* `exists_push_push` — every stack of two words or more, within its bound, is such a stack.
* `unary_push`, `binary_push_push` — the result takes the place of the operands.
* `fromTop_push_push`, `putFromTop_push_push` — the counter under the loop marker.
-/

namespace GlyphMachine.Stack

variable {s : Stack} {v w : Word} {i : Nat}

theorem size_push_of_lt (h : s.size < s.capacity) : (s.push w).size = s.size + 1 := by
  rw [size_push, if_pos h]

theorem get_push (h : s.size < s.capacity) :
    (s.push w).get i = if i = s.size then w else s.get i := by
  unfold push
  rw [if_pos h]
  simp only [get, Array.getD_eq_getD_getElem?, Array.getElem?_push]
  unfold size
  split <;> rfl

theorem unary_push (h : s.size < s.capacity) (f : Word → Word) :
    (s.push v).unary f = s.push (f v) := by
  rw [unary, top_push h, drop_push h]

/-- A stack within its bound that is not empty is one with a word pushed onto it. -/
theorem exists_push (h : s.Bounded) (hsize : 0 < s.size) :
    ∃ (t : Stack) (w : Word), t.size < t.capacity ∧ s = t.push w := by
  obtain ⟨capacity, words⟩ := s
  obtain ⟨rest, w, rfl⟩ := Array.eq_push_of_size_ne_zero (Nat.ne_of_gt hsize)
  have hroom : rest.size < capacity := by
    simpa [Bounded, size, Nat.succ_le_iff] using h
  exact ⟨⟨capacity, rest⟩, w, hroom, (if_pos hroom).symm⟩

theorem exists_push_push (h : s.Bounded) (hsize : 2 ≤ s.size) :
    ∃ (t : Stack) (v w : Word), t.size + 2 ≤ t.capacity ∧ s = (t.push v).push w := by
  obtain ⟨t, w, hroom, rfl⟩ := exists_push h (Nat.lt_of_lt_of_le (by decide) hsize)
  rw [size_push_of_lt hroom] at hsize
  obtain ⟨t, v, hroom', rfl⟩ := exists_push (Nat.le_of_lt hroom) (Nat.lt_of_succ_lt_succ hsize)
  rw [size_push_of_lt hroom', capacity_push] at hroom
  exact ⟨t, v, w, hroom, rfl⟩

section TwoWords

variable (h : s.size + 2 ≤ s.capacity)
include h

theorem room_push : (s.push v).size < (s.push v).capacity := by
  rw [size_push_of_lt (by omega), capacity_push]
  omega

theorem binary_push_push (f : Word → Word → Word) :
    ((s.push v).push w).binary f = s.push (f v w) := by
  rw [binary, top_push (room_push h), drop_push (room_push h)]
  exact unary_push (by omega) _

theorem size_push_push : ((s.push v).push w).size = s.size + 2 := by
  rw [size_push_of_lt (room_push h), size_push_of_lt (by omega)]

theorem drop_drop_push_push : ((s.push v).push w).drop.drop = s := by
  rw [drop_push (room_push h), drop_push (by omega)]

theorem indexFromTop?_push_push : ((s.push v).push w).indexFromTop? 1 = some s.size := by
  have hindex : (((s.push v).push w).size : Int) - 1 - 1 = s.size := by
    rw [size_push_push h]
    omega
  rw [indexFromTop?, hindex]
  rfl

/-- The word under the top one. -/
theorem fromTop_push_push : ((s.push v).push w).fromTop 1 = v := by
  have hne : ¬ s.size = (s.push v).size := by
    rw [size_push_of_lt (by omega)]
    omega
  simp only [fromTop, indexFromTop?_push_push h]
  rw [get_push (room_push h), if_neg hne, get_push (by omega), if_pos rfl]

/-- Overwriting the word under the top one. -/
theorem putFromTop_push_push (u : Word) :
    ((s.push v).push w).putFromTop 1 u = (s.push u).push w := by
  have hroom : s.size < s.capacity := by omega
  have hcapacity : s.size < ((s.push v).push w).capacity := by
    rw [capacity_push, capacity_push]
    exact hroom
  simp only [putFromTop, indexFromTop?_push_push h]
  apply ext_get
  · simp
  · rw [size_put, if_pos hcapacity, size_push_push h, size_push_push h]
    omega
  · intro i
    rw [get_put hcapacity, get_push (room_push h), get_push (room_push h), get_push hroom,
      get_push hroom, size_push_of_lt hroom, size_push_of_lt hroom]
    by_cases h₁ : s.size = i
    · subst h₁
      simp
    · rw [if_neg h₁, if_neg (Ne.symm h₁), if_neg (Ne.symm h₁)]

end TwoWords
end GlyphMachine.Stack
