import Mathlib.Data.List.Basic
import GlyphMachine.Proofs.CheckedStacks

/-!
# The algebra of stacks

Laws that hold at every size and every capacity: on stacks too short to be rearranged, on the empty
stack, which reads as zero, and on the full one, which drops what is pushed.

* `Rearranged` — the top words are replaced by a function of them, and nothing else changes;
  `Rearranged.trans` and `Rearranged.unique` turn relations between stacks into relations between
  lists.
* `rearranged_exchange`, `rearranged_rotateUp`, `rearranged_rotateDown` — what the three
  rearrangements do; `exchange_exchange`, `rotateUp_rotateUp` and `rotateDown_rotateUp` are the
  relations between them.
* `drop_dup_eq_iff` — when dropping undoes duplicating.
* `fromTop_putFromTop`, `putFromTop_above` — writing below and above the top.
* `stack_words_algebra` — all of them together.
-/

namespace GlyphMachine.Stack

variable {s : Stack} {v w : Word} {n : Int} {i k : Nat}

/-- The stack with the given words, bottom first. -/
def ofWords (capacity : Nat) (words : List Word) : Stack := ⟨capacity, words.toArray⟩

/-! ## Rearranging the top -/

/-- `t` is `s` with its top `k` words, as a list, replaced by `f` of them.  A stack with fewer words
stays as it is. -/
structure Rearranged (k : Nat) (f : List Word → List Word) (s t : Stack) : Prop where
  short : s.size < k → t = s
  top : ∀ below top, s = ofWords s.capacity (below ++ top) → top.length = k →
    t = ofWords s.capacity (below ++ f top)

/-- A stack of at least `k` words has a top of `k` words. -/
theorem exists_top (h : k ≤ s.size) :
    ∃ below top, s = ofWords s.capacity (below ++ top) ∧ top.length = k := by
  obtain ⟨capacity, words⟩ := s
  have hlength : k ≤ words.toList.length := h
  refine ⟨words.toList.take (words.toList.length - k), words.toList.drop (words.toList.length - k),
    ?_, ?_⟩
  · rw [List.take_append_drop]
    rfl
  · rw [List.length_drop]
    omega

namespace Rearranged

variable {f g : List Word → List Word} {t u : Stack}

theorem refl (s : Stack) : Rearranged k id s s := ⟨fun _ => rfl, fun _ _ hs _ => hs⟩

theorem trans (h : Rearranged k f s t) (h' : Rearranged k g t u)
    (hf : ∀ top, top.length = k → (f top).length = k) :
    Rearranged k (fun top => g (f top)) s u where
  short := by
    intro hs
    obtain rfl := h.short hs
    exact h'.short hs
  top := by
    intro below top hs hlength
    have ht := h.top below top hs hlength
    have hcapacity : t.capacity = s.capacity := by rw [ht]; rfl
    rw [← hcapacity] at ht ⊢
    exact h'.top below (f top) ht (hf top hlength)

/-- The list function decides what becomes of the stack. -/
theorem unique (h : Rearranged k f s t) (h' : Rearranged k g s u)
    (hfg : ∀ top, top.length = k → f top = g top) : t = u := by
  by_cases hs : s.size < k
  · rw [h.short hs, h'.short hs]
  · obtain ⟨below, top, htop, hlength⟩ := exists_top (Nat.le_of_not_lt hs)
    rw [h.top below top htop hlength, h'.top below top htop hlength, hfg top hlength]

end Rearranged

theorem exchange_ofWords (c : Nat) (l : List Word) (v w : Word) :
    (ofWords c (l ++ [v, w])).exchange = ofWords c (l ++ [w, v]) := by
  simp [ofWords, exchange, size, Array.swapIfInBounds]

theorem rotateUp_ofWords (c : Nat) (l : List Word) (u v w : Word) :
    (ofWords c (l ++ [u, v, w])).rotateUp = ofWords c (l ++ [v, w, u]) := by
  simp [ofWords, rotateUp, size, Array.swapIfInBounds]

theorem rotateDown_ofWords (c : Nat) (l : List Word) (u v w : Word) :
    (ofWords c (l ++ [u, v, w])).rotateDown = ofWords c (l ++ [w, u, v]) := by
  simp [ofWords, rotateDown, size, Array.swapIfInBounds]

theorem rearranged_exchange (s : Stack) : Rearranged 2 List.reverse s s.exchange where
  short := fun h => if_neg (Nat.not_le.2 h)
  top := by
    intro below top hs hlength
    obtain ⟨v, w, rfl⟩ := List.length_eq_two.1 hlength
    rw [hs, exchange_ofWords]
    rfl

theorem rearranged_rotateUp (s : Stack) : Rearranged 3 (·.rotateLeft 1) s s.rotateUp where
  short := fun h => if_neg (Nat.not_le.2 h)
  top := by
    intro below top hs hlength
    obtain ⟨u, v, w, rfl⟩ := List.length_eq_three.1 hlength
    rw [hs, rotateUp_ofWords]
    rfl

theorem rearranged_rotateDown (s : Stack) : Rearranged 3 (·.rotateRight 1) s s.rotateDown where
  short := fun h => if_neg (Nat.not_le.2 h)
  top := by
    intro below top hs hlength
    obtain ⟨u, v, w, rfl⟩ := List.length_eq_three.1 hlength
    rw [hs, rotateDown_ofWords]
    rfl

@[simp]
theorem exchange_exchange (s : Stack) : s.exchange.exchange = s :=
  ((rearranged_exchange s).trans (rearranged_exchange _) (by simp)).unique (.refl s) (by simp)

theorem length_rotateLeft (top : List Word) (h : top.length = 3) :
    (top.rotateLeft 1).length = 3 := by
  obtain ⟨u, v, w, rfl⟩ := List.length_eq_three.1 h
  rfl

/-- A third of a turn, twice, is a third of a turn back. -/
theorem rotateUp_rotateUp (s : Stack) : s.rotateUp.rotateUp = s.rotateDown := by
  refine ((rearranged_rotateUp s).trans (rearranged_rotateUp _) length_rotateLeft).unique
    (rearranged_rotateDown s) fun top htop => ?_
  obtain ⟨u, v, w, rfl⟩ := List.length_eq_three.1 htop
  rfl

@[simp]
theorem rotateDown_rotateUp (s : Stack) : s.rotateUp.rotateDown = s := by
  refine ((rearranged_rotateUp s).trans (rearranged_rotateDown _) length_rotateLeft).unique
    (.refl s) fun top htop => ?_
  obtain ⟨u, v, w, rfl⟩ := List.length_eq_three.1 htop
  rfl

@[simp]
theorem rotateUp_rotateDown (s : Stack) : s.rotateDown.rotateUp = s := by
  rw [← rotateUp_rotateUp, rotateUp_rotateUp s.rotateUp, rotateDown_rotateUp]

/-! ## Pushing and dropping -/

theorem drop_eq_iff : s.drop = s ↔ s.size = 0 := by
  constructor
  · intro h
    have hsize : s.size - 1 = s.size := by rw [← size_drop, h]
    omega
  · intro h
    obtain ⟨capacity, words⟩ := s
    have hwords : words = #[] := Array.eq_empty_of_size_eq_zero h
    rw [hwords]
    rfl

theorem dup_of_le (h : s.capacity ≤ s.size) : s.dup = s := push_of_le h

/-- Dropping undoes duplicating, but for the top word of a full stack. -/
theorem drop_dup_eq_iff : s.dup.drop = s ↔ s.size = 0 ∨ s.size < s.capacity := by
  by_cases h : s.size < s.capacity
  · simp only [h, or_true, iff_true]
    exact drop_push h
  · -- a full stack is not changed by duplicating, so that only the drop is left
    rw [dup_of_le (Nat.le_of_not_lt h), drop_eq_iff]
    simp only [h, or_false]

/-! ## Writing from the top -/

theorem indexFromTop?_of_eq (h : (i : Int) = s.size - 1 - n) : s.indexFromTop? n = some i := by
  rw [indexFromTop?, ← h]
  rfl

theorem indexFromTop?_of_le (h : s.size ≤ n) : s.indexFromTop? n = none := by
  obtain ⟨m, hm⟩ : ∃ m : Nat, s.size - 1 - n = Int.negSucc m :=
    Int.eq_negSucc_of_lt_zero (by omega)
  rw [indexFromTop?, hm]
  rfl

theorem fromTop_of_eq (h : (i : Int) = s.size - 1 - n) : s.fromTop n = s.get i := by
  simp only [fromTop, indexFromTop?_of_eq h]

theorem fromTop_of_le (h : s.size ≤ n) : s.fromTop n = 0 := by
  simp only [fromTop, indexFromTop?_of_le h]

theorem putFromTop_of_eq (h : (i : Int) = s.size - 1 - n) : s.putFromTop n w = s.put i w := by
  simp only [putFromTop, indexFromTop?_of_eq h]

theorem putFromTop_of_le (h : s.size ≤ n) : s.putFromTop n w = s := by
  simp only [putFromTop, indexFromTop?_of_le h]

/-- A write above the top fills the gap with zeros. -/
theorem put_of_size_le (h : s.size ≤ i) (hi : i < s.capacity) :
    s.put i w = ofWords s.capacity (s.words.toList ++ List.replicate (i - s.size) 0 ++ [w]) := by
  obtain ⟨capacity, words⟩ := s
  rw [put, if_pos hi, if_neg (Nat.not_lt.2 h), ofWords]
  simp

section Inside

variable (hs : s.Bounded) (hn : 0 ≤ n) (hsize : n < s.size)
include hs hn hsize

/-- Below the top there is an index to write to, and room for it. -/
theorem exists_index : ∃ i : Nat, (i : Int) = s.size - 1 - n ∧ i < s.capacity := by
  obtain ⟨i, hi⟩ := Int.eq_ofNat_of_zero_le (by omega : 0 ≤ s.size - 1 - n)
  unfold Bounded at hs
  exact ⟨i, hi.symm, by omega⟩

theorem size_putFromTop : (s.putFromTop n w).size = s.size := by
  obtain ⟨i, hi, hcapacity⟩ := exists_index hs hn hsize
  rw [putFromTop_of_eq hi, size_put, if_pos hcapacity]
  omega

/-- **A write below the top changes the word at its own distance and no other.** -/
theorem fromTop_putFromTop (m : Int) :
    (s.putFromTop n w).fromTop m = if m = n then w else s.fromTop m := by
  have hput := size_putFromTop (w := w) hs hn hsize
  obtain ⟨i, hi, hcapacity⟩ := exists_index hs hn hsize
  rcases Int.lt_or_le m s.size with hm | hm
  · obtain ⟨j, hj⟩ := Int.eq_ofNat_of_zero_le (by omega : 0 ≤ s.size - 1 - m)
    have hj' : (j : Int) = (s.putFromTop n w).size - 1 - m := by rw [hput, hj]
    rw [fromTop_of_eq hj', fromTop_of_eq hj.symm, putFromTop_of_eq hi, get_put hcapacity]
    -- indices and distances run against each other, and meet at the same word
    congr 1
    simp only [eq_iff_iff]
    omega
  · have hm' : (s.putFromTop n w).size ≤ m := by rwa [hput]
    rw [fromTop_of_le hm', fromTop_of_le hm, if_neg (by omega)]

end Inside

/-- A write above the top, where there is room. -/
theorem putFromTop_above (hn : n < 0) (h : s.size - 1 - n < s.capacity) :
    s.putFromTop n w =
      ofWords s.capacity (s.words.toList ++ List.replicate (-1 - n).toNat 0 ++ [w]) := by
  obtain ⟨i, hi⟩ := Int.eq_ofNat_of_zero_le (by omega : 0 ≤ s.size - 1 - n)
  have hgap : i - s.size = (-1 - n).toNat := by omega
  rw [putFromTop_of_eq hi.symm, put_of_size_le (by omega) (by omega), hgap]

/-- A write beyond the capacity. -/
theorem putFromTop_beyond (h : s.capacity ≤ s.size - 1 - n) :
    s.putFromTop n w = s := by
  obtain ⟨i, hi⟩ := Int.eq_ofNat_of_zero_le (by omega : 0 ≤ s.size - 1 - n)
  rw [putFromTop_of_eq hi.symm, put_of_le (by omega)]

/-- **The algebra of stacks.**  Take a stack of any capacity, with any words within it.  Exchanging
twice, rotating up and down again, down and up again, and up three times all restore it, and
rotating up twice is rotating down.  Exchanging reverses the top two words, and rotating turns the
top three; no other word moves, and a shorter stack stays as it is.  Duplicating and popping
restores the stack just if it is empty or not full, for a full one loses its top; pushing and
popping on a stack that is not full gives the word back and restores the stack.  Writing below the
top changes the word at that distance alone, below the bottom it changes nothing, and above the top
it fills the gap with zeros, or changes nothing if there is no room. -/
theorem stack_words_algebra {s : Stack} (hs : s.Bounded) :
    (s.exchange.exchange = s ∧ s.rotateUp.rotateDown = s ∧ s.rotateDown.rotateUp = s ∧
      s.rotateUp.rotateUp.rotateUp = s ∧ s.rotateUp.rotateUp = s.rotateDown) ∧
    (Rearranged 2 List.reverse s s.exchange ∧ Rearranged 3 (·.rotateLeft 1) s s.rotateUp ∧
      Rearranged 3 (·.rotateRight 1) s s.rotateDown) ∧
    ((s.dup.pop.2 = s ↔ s.size = 0 ∨ s.size < s.capacity) ∧
      (0 < s.size → s.size = s.capacity → s.dup.pop = s.pop ∧ s.dup.pop.2.size + 1 = s.size) ∧
      (s.size < s.capacity → ∀ w, (s.push w).pop = (w, s))) ∧
    ∀ (n : Int) (w : Word),
      (0 ≤ n → n < s.size →
        (s.putFromTop n w).capacity = s.capacity ∧ (s.putFromTop n w).size = s.size ∧
        (s.putFromTop n w).fromTop n = w ∧
        ∀ m, m ≠ n → (s.putFromTop n w).fromTop m = s.fromTop m) ∧
      (s.size ≤ n → s.putFromTop n w = s) ∧
      (n < 0 →
        (s.size - 1 - n < s.capacity → s.putFromTop n w =
          ofWords s.capacity (s.words.toList ++ List.replicate (-1 - n).toNat 0 ++ [w])) ∧
        (s.capacity ≤ s.size - 1 - n → s.putFromTop n w = s)) := by
  refine ⟨⟨exchange_exchange s, rotateDown_rotateUp s, rotateUp_rotateDown s, ?_,
    rotateUp_rotateUp s⟩, ⟨rearranged_exchange s, rearranged_rotateUp s, rearranged_rotateDown s⟩,
    ⟨drop_dup_eq_iff, ?_, fun h w => pop_push h⟩, fun n w => ⟨?_, putFromTop_of_le, ?_⟩⟩
  · rw [rotateUp_rotateUp, rotateDown_rotateUp]
  · intro hpos hfull
    have hdup : s.dup = s := dup_of_le (Nat.le_of_eq hfull.symm)
    have hsize : s.pop.2.size = s.size - 1 := size_drop
    rw [hdup, hsize]
    exact ⟨rfl, by omega⟩
  · intro hn hsize
    have hwords := fromTop_putFromTop (w := w) hs hn hsize
    exact ⟨capacity_putFromTop n, size_putFromTop hs hn hsize, by rw [hwords, if_pos rfl],
      fun m hm => by rw [hwords, if_neg hm]⟩
  · intro hn
    exact ⟨putFromTop_above hn, putFromTop_beyond⟩

/-- A full stack of three words: a rotation, the top word lost, and writes at both ends of the
stack. -/
theorem full_stack_of_three :
    (ofWords 3 [1, 2, 3]).rotateUp = ofWords 3 [2, 3, 1] ∧
      (ofWords 3 [1, 2, 3]).dup.pop.2 ≠ ofWords 3 [1, 2, 3] ∧
      ((ofWords 3 [1, 2, 3]).putFromTop 2 9).fromTop 2 = 9 ∧
      (ofWords 3 [1, 2, 3]).putFromTop (-1) 9 = ofWords 3 [1, 2, 3] := by
  have hs : (ofWords 3 [1, 2, 3]).Bounded := Nat.le_refl 3
  obtain ⟨-, ⟨-, hup, -⟩, ⟨hdup, -⟩, hput⟩ := stack_words_algebra hs
  refine ⟨hup.top [] _ rfl rfl, ?_, ((hput 2 9).1 (by decide) (by decide)).2.2.1,
    ((hput (-1) 9).2.2 (by decide)).2 (by decide)⟩
  rw [Ne, hdup]
  decide

end GlyphMachine.Stack
