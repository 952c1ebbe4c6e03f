import GlyphMachine.Stack

/-!
# Laws of stacks

What each operation does to the capacity, to the size and to the word at each index.

* `size_put`, `get_put` — a write makes the stack just large enough and changes one word.
* `pop_push` — a word pushed onto a stack with room is the next one popped.
* `Bounded` — no operation takes a stack beyond its capacity.
-/

namespace GlyphMachine.Stack

variable {s : Stack} {w : Word} {i j : Nat}

/-- Two stacks are equal when they have the same capacity, size and words. -/
theorem ext_get {s t : Stack} (hc : s.capacity = t.capacity) (hs : s.size = t.size)
    (hg : ∀ i, s.get i = t.get i) : s = t := by
  obtain ⟨c, a⟩ := s
  obtain ⟨d, b⟩ := t
  simp only [size] at hs
  simp only [get, Array.getD_eq_getD_getElem?] at hg
  have hab : a = b := by
    apply Array.ext hs
    intro i hi hi'
    have := hg i
    rwa [Array.getElem?_eq_getElem hi, Array.getElem?_eq_getElem hi'] at this
  subst hab
  simp only at hc
  rw [hc]

/-! ## Capacity -/

@[simp]
theorem capacity_empty (c : Nat) : (empty c).capacity = c := rfl

@[simp]
theorem capacity_clear : s.clear.capacity = s.capacity := rfl

@[simp]
theorem capacity_push : (s.push w).capacity = s.capacity := by
  unfold push
  split <;> rfl

@[simp]
theorem capacity_drop : s.drop.capacity = s.capacity := rfl

@[simp]
theorem capacity_put : (s.put i w).capacity = s.capacity := by
  unfold put
  split
  · split <;> rfl
  · rfl

@[simp]
theorem capacity_putFromTop (n : Int) : (s.putFromTop n w).capacity = s.capacity := by
  unfold putFromTop
  split
  · exact capacity_put
  · rfl

@[simp]
theorem capacity_dup : s.dup.capacity = s.capacity := capacity_push

@[simp]
theorem capacity_exchange : s.exchange.capacity = s.capacity := by
  simp only [exchange]
  split <;> rfl

@[simp]
theorem capacity_rotateUp : s.rotateUp.capacity = s.capacity := by
  simp only [rotateUp]
  split <;> rfl

@[simp]
theorem capacity_rotateDown : s.rotateDown.capacity = s.capacity := by
  simp only [rotateDown]
  split <;> rfl

/-! ## Size -/

@[simp]
theorem size_empty (c : Nat) : (empty c).size = 0 := rfl

@[simp]
theorem size_clear : s.clear.size = 0 := rfl

theorem size_push : (s.push w).size = if s.size < s.capacity then s.size + 1 else s.size := by
  unfold push
  split <;> simp [size]

@[simp]
theorem size_drop : s.drop.size = s.size - 1 := by simp [drop, size]

theorem size_put :
    (s.put i w).size = if i < s.capacity then max s.size (i + 1) else s.size := by
  unfold put
  split
  · split
    · rename_i hi
      simp only [size, Array.size_setIfInBounds] at hi ⊢
      omega
    · rename_i hi
      simp only [size, Array.size_push, Array.size_append, Array.size_replicate] at hi ⊢
      omega
  · rfl

@[simp]
theorem size_exchange : s.exchange.size = s.size := by
  simp only [exchange]
  split
  · simp [size]
  · rfl

@[simp]
theorem size_rotateUp : s.rotateUp.size = s.size := by
  simp only [rotateUp]
  split
  · simp [size]
  · rfl

@[simp]
theorem size_rotateDown : s.rotateDown.size = s.size := by
  simp only [rotateDown]
  split
  · simp [size]
  · rfl

/-! ## Words -/

theorem get_eq_zero (h : s.size ≤ i) : s.get i = 0 := by
  simp [get, Array.getD_eq_getD_getElem?, Array.getElem?_eq_none h]

/-- A write below the capacity changes the word at its own index and no other. -/
theorem get_put (h : i < s.capacity) : (s.put i w).get j = if i = j then w else s.get j := by
  unfold put
  rw [if_pos h]
  split
  · rename_i hi
    simp only [get, Array.getD_eq_getD_getElem?, Array.getElem?_setIfInBounds]
    split
    · unfold size at hi
      rw [if_pos hi]
      rfl
    · rfl
  · rename_i hi
    unfold size at *
    simp only [get, Array.getD_eq_getD_getElem?, Array.getElem?_push, Array.size_append,
      Array.size_replicate]
    have hsize : s.words.size + (i - s.words.size) = i := by omega
    rw [hsize]
    by_cases e : i = j
    · simp [e]
    · rw [if_neg (by omega), if_neg e, Array.getElem?_append]
      split
      · rfl
      · rename_i hj
        rw [Array.getElem?_eq_none (by omega : s.words.size ≤ j), Array.getElem?_replicate]
        split <;> rfl

/-- A write at or above the capacity is dropped. -/
theorem put_of_le (h : s.capacity ≤ i) : s.put i w = s := by
  unfold put
  rw [if_neg (by omega)]

theorem top_push (h : s.size < s.capacity) : (s.push w).top = w := by
  unfold push top
  rw [if_pos h]
  simp

theorem drop_push (h : s.size < s.capacity) : (s.push w).drop = s := by
  unfold push drop
  rw [if_pos h]
  simp

/-- A word pushed onto a stack with room is the next one popped. -/
theorem pop_push (h : s.size < s.capacity) : (s.push w).pop = (w, s) := by
  rw [pop, top_push h, drop_push h]

/-- A full stack does not change when a word is pushed. -/
theorem push_of_le (h : s.capacity ≤ s.size) : s.push w = s := by
  unfold push
  rw [if_neg (by omega)]

/-! ## The bound -/

/-- The words fit. -/
def Bounded (s : Stack) : Prop := s.size ≤ s.capacity

theorem Bounded.empty (c : Nat) : (empty c).Bounded := Nat.zero_le _

theorem Bounded.clear : s.clear.Bounded := Nat.zero_le _

theorem Bounded.push (h : s.Bounded) : (s.push w).Bounded := by
  unfold Bounded at *
  rw [size_push, capacity_push]
  split <;> omega

theorem Bounded.drop (h : s.Bounded) : s.drop.Bounded := by
  unfold Bounded at *
  rw [size_drop, capacity_drop]
  omega

theorem Bounded.put (h : s.Bounded) : (s.put i w).Bounded := by
  unfold Bounded at *
  rw [size_put, capacity_put]
  split <;> omega

theorem Bounded.putFromTop (h : s.Bounded) (n : Int) : (s.putFromTop n w).Bounded := by
  unfold Stack.putFromTop
  split
  · exact h.put
  · exact h

theorem Bounded.exchange (h : s.Bounded) : s.exchange.Bounded := by
  unfold Bounded at *
  rwa [size_exchange, capacity_exchange]

theorem Bounded.rotateUp (h : s.Bounded) : s.rotateUp.Bounded := by
  unfold Bounded at *
  rwa [size_rotateUp, capacity_rotateUp]

theorem Bounded.rotateDown (h : s.Bounded) : s.rotateDown.Bounded := by
  unfold Bounded at *
  rwa [size_rotateDown, capacity_rotateDown]

end GlyphMachine.Stack
