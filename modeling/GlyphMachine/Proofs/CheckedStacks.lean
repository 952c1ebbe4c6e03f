import GlyphMachine.Stack.Lemmas

/-!
# Stacks with checks

The operations of a stack are total: a place outside reads as zero, and nothing is written there.
Here are the same operations with checks.  An index outside, a slice that starts beyond the end or a
number that does not fit in 64 bits stops them.

* `Checked.lookup`, `Checked.replace`, `Checked.slice`, `Checked.signed` — the accesses that are
  checked.
* `Checked.put_eq`, `Checked.exchange_eq`, `Checked.rotateUp_eq` and so on — no check of these
  operations ever fails, and with checks they do what they do without.
* `Checked.putFromTop_eq` — nor does one that counts from the top, if the index can be computed.
* `Stack.Use` — the operations as data; `bounded_foldl` and `foldlM_check` are about any sequence of
  them.
-/

namespace GlyphMachine

/-- Why an operation with checks stops. -/
inductive Trap where
  | index (index size : Nat)
  | slice (start size : Nat)
  | overflow (n : Int)
deriving DecidableEq

namespace Checked

variable {α : Type}

/-! ## Accesses -/

/-- The number fits in 64 bits with a sign. -/
def IsSigned (n : Int) : Prop := -9223372036854775808 ≤ n ∧ n < 9223372036854775808

instance (n : Int) : Decidable (IsSigned n) :=
  inferInstanceAs (Decidable (_ ∧ _))

/-- A number with a sign. -/
def signed (n : Int) : Except Trap Int :=
  if IsSigned n then .ok n else .error (.overflow n)

/-- A difference of numbers without a sign. -/
def difference (n k : Nat) : Except Trap Nat :=
  if k ≤ n then .ok (n - k) else .error (.overflow (n - k))

/-- The entry at an index. -/
def lookup (xs : Array α) (i : Nat) : Except Trap α :=
  if h : i < xs.size then .ok xs[i] else .error (.index i xs.size)

/-- Writes the entry at an index. -/
def replace (xs : Array α) (i : Nat) (x : α) : Except Trap (Array α) :=
  if h : i < xs.size then .ok (xs.set i x h) else .error (.index i xs.size)

/-- Exchanges the entries at two indices. -/
def swap (xs : Array α) (i j : Nat) : Except Trap (Array α) :=
  if h : i < xs.size ∧ j < xs.size then .ok (xs.swap i j h.1 h.2)
  else .error (.index (max i j) xs.size)

/-- The entries from `start` on. -/
def slice (xs : List α) (start : Nat) : Except Trap (List α) :=
  if start ≤ xs.length then .ok (xs.drop start) else .error (.slice start xs.length)

/-- Moves the first `k` entries to the end. -/
def rotateLeft (xs : List α) (k : Nat) : Except Trap (List α) := do
  let rest ← slice xs k
  return rest ++ xs.take k

/-- Moves the last `k` entries to the front. -/
def rotateRight (xs : List α) (k : Nat) : Except Trap (List α) := do
  let n ← difference xs.length k
  rotateLeft xs n

theorem ok_bind {β : Type} (a : α) (f : α → Except Trap β) : (.ok a >>= f) = f a := rfl

theorem lookup_of_lt {xs : Array α} {i : Nat} (h : i < xs.size) : lookup xs i = .ok xs[i] :=
  dif_pos h

theorem replace_of_lt {xs : Array α} {i : Nat} (h : i < xs.size) (x : α) :
    replace xs i x = .ok (xs.set i x h) :=
  dif_pos h

theorem swap_of_lt {xs : Array α} {i j : Nat} (hi : i < xs.size) (hj : j < xs.size) :
    swap xs i j = .ok (xs.swap i j hi hj) :=
  dif_pos ⟨hi, hj⟩

theorem slice_of_le {xs : List α} {start : Nat} (h : start ≤ xs.length) :
    slice xs start = .ok (xs.drop start) :=
  if_pos h

theorem difference_of_le {n k : Nat} (h : k ≤ n) : difference n k = .ok (n - k) := if_pos h

theorem signed_of_isSigned {n : Int} (h : IsSigned n) : signed n = .ok n := if_pos h

/-! ## Operations -/

/-- The words with room for the one at `index`. -/
def withRoom (s : Stack) (index : Nat) : Array Word :=
  if index < s.size then s.words else s.words ++ Array.replicate (index + 1 - s.size) 0

/-- Writes the word at an index: makes room for it, then stores it. -/
def put (s : Stack) (index : Nat) (w : Word) : Except Trap Stack :=
  if index < s.capacity then do
    let words ← replace (withRoom s index) index w
    return { s with words }
  else return s

/-- The index of the word `n` below the top. -/
def indexFromTop? (s : Stack) (n : Int) : Except Trap (Option Nat) := do
  let top ← signed (s.size - 1)
  let index ← signed (top - n)
  return index.toNat?

/-- The word `n` below the top. -/
def fromTop (s : Stack) (n : Int) : Except Trap Word := do
  match ← indexFromTop? s n with
  | some index => return s.get index
  | none => return 0

/-- Writes the word `n` below the top. -/
def putFromTop (s : Stack) (n : Int) (w : Word) : Except Trap Stack := do
  match ← indexFromTop? s n with
  | some index => put s index w
  | none => return s

/-- Exchanges the top two words. -/
def exchange (s : Stack) : Except Trap Stack :=
  if 2 ≤ s.size then do
    let i ← difference s.size 1
    let j ← difference s.size 2
    let words ← swap s.words i j
    return { s with words }
  else return s

/-- Rearranges the last three words, which are cut off as a slice. -/
def withLastThree (s : Stack) (f : List Word → Except Trap (List Word)) : Except Trap Stack :=
  if 3 ≤ s.size then do
    let start ← difference s.size 3
    let last ← slice s.words.toList start
    let last ← f last
    return { s with words := (s.words.toList.take start ++ last).toArray }
  else return s

/-- Brings the third word to the top. -/
def rotateUp (s : Stack) : Except Trap Stack := withLastThree s (rotateLeft · 1)

/-- Takes the top word to the third place. -/
def rotateDown (s : Stack) : Except Trap Stack := withLastThree s (rotateRight · 1)

/-! ## The checks do not fail -/

variable {s : Stack} {n : Int} {index : Nat}

theorem lt_size_withRoom : index < (withRoom s index).size := by
  rw [withRoom]
  split
  · assumption
  · rw [Array.size_append, Array.size_replicate]
    unfold Stack.size at *
    omega

/-- Making room and then storing the word is growing the stack by it. -/
theorem words_put (hcapacity : index < s.capacity) (w : Word) :
    (s.put index w).words = (withRoom s index).set index w lt_size_withRoom := by
  rw [Stack.put, if_pos hcapacity]
  by_cases hsize : index < s.size
  · simp only [withRoom, if_pos hsize]
    exact dif_pos hsize
  · have hroom : withRoom s index = (s.words ++ Array.replicate (index - s.size) 0).push 0 := by
      rw [withRoom, if_neg hsize, ← Array.append_push, ← Array.replicate_succ]
      congr 2
      omega
    have hindex : index = (s.words ++ Array.replicate (index - s.size) (0 : Word)).size := by
      rw [Array.size_append, Array.size_replicate]
      unfold Stack.size at *
      omega
    have hlast : ¬ index < (s.words ++ Array.replicate (index - s.size) (0 : Word)).size := by
      omega
    simp only [hroom, if_neg hsize, Array.set_push, dif_neg hlast]

theorem put_eq (s : Stack) (index : Nat) (w : Word) : put s index w = .ok (s.put index w) := by
  by_cases hcapacity : index < s.capacity
  · simp only [put, if_pos hcapacity, replace_of_lt lt_size_withRoom, ok_bind,
      ← words_put hcapacity]
    exact congrArg Except.ok (congrArg (Stack.mk · _) Stack.capacity_put.symm)
  · simp only [put, Stack.put, if_neg hcapacity]
    rfl

theorem indexFromTop?_eq (htop : IsSigned (s.size - 1)) (hindex : IsSigned (s.size - 1 - n)) :
    indexFromTop? s n = .ok (s.indexFromTop? n) := by
  simp only [indexFromTop?, signed_of_isSigned htop, signed_of_isSigned hindex, ok_bind]
  rfl

theorem fromTop_eq (htop : IsSigned (s.size - 1)) (hindex : IsSigned (s.size - 1 - n)) :
    fromTop s n = .ok (s.fromTop n) := by
  simp only [fromTop, indexFromTop?_eq htop hindex, ok_bind, Stack.fromTop]
  cases s.indexFromTop? n <;> rfl

theorem putFromTop_eq (htop : IsSigned (s.size - 1)) (hindex : IsSigned (s.size - 1 - n))
    (w : Word) : putFromTop s n w = .ok (s.putFromTop n w) := by
  simp only [putFromTop, indexFromTop?_eq htop hindex, ok_bind, Stack.putFromTop]
  cases s.indexFromTop? n with
  | none => rfl
  | some index => exact put_eq s index w

theorem exchange_eq (s : Stack) : exchange s = .ok s.exchange := by
  by_cases h : 2 ≤ s.size
  · have hi : s.size - 1 < s.words.size := Nat.sub_lt (Nat.lt_of_lt_of_le (by decide) h) (by decide)
    have hj : s.size - 2 < s.words.size := Nat.sub_lt (Nat.lt_of_lt_of_le (by decide) h) (by decide)
    simp only [exchange, Stack.exchange, if_pos h, difference_of_le (Nat.le_of_succ_le h),
      difference_of_le h, ok_bind, swap_of_lt hi hj]
    rw [Array.swap_comm, Array.swapIfInBounds, dif_pos hj, dif_pos hi]
    rfl
  · simp only [exchange, Stack.exchange, if_neg h]
    rfl

/-- A stack of at least three words, with the last three written out. -/
theorem exists_last_three (h : 3 ≤ s.size) :
    ∃ l u v w, s = ⟨s.capacity, (l ++ [u, v, w]).toArray⟩ := by
  obtain ⟨capacity, words⟩ := s
  have hlength : 3 ≤ words.toList.length := h
  have hlast : (words.toList.drop (words.toList.length - 3)).length = 3 := by
    rw [List.length_drop]
    omega
  match hdrop : words.toList.drop (words.toList.length - 3), hlast with
  | [u, v, w], _ =>
    refine ⟨words.toList.take (words.toList.length - 3), u, v, w, ?_⟩
    rw [← hdrop, List.take_append_drop]

/-- What is done to the last three words is done to the end of the stack. -/
theorem withLastThree_eq {f : List Word → Except Trap (List Word)}
    {g : Word → Word → Word → List Word} (hf : ∀ u v w, f [u, v, w] = .ok (g u v w)) {c : Nat}
    (l : List Word) (u v w : Word) :
    withLastThree ⟨c, (l ++ [u, v, w]).toArray⟩ f = .ok ⟨c, (l ++ g u v w).toArray⟩ := by
  have hsize : (⟨c, (l ++ [u, v, w]).toArray⟩ : Stack).size = l.length + 3 := by simp [Stack.size]
  have hlength : l.length ≤ (l ++ [u, v, w]).length := by simp
  simp only [withLastThree, hsize, if_pos (Nat.le_add_left 3 _),
    difference_of_le (Nat.le_add_left 3 l.length), ok_bind, Nat.add_sub_cancel, slice_of_le hlength,
    List.drop_left, hf, List.take_left]
  rfl

theorem rotateUp_eq (s : Stack) : rotateUp s = .ok s.rotateUp := by
  by_cases h : 3 ≤ s.size
  · obtain ⟨l, u, v, w, hs⟩ := exists_last_three h
    rw [hs, rotateUp, withLastThree_eq (g := fun u v w => [v, w, u]) fun u v w => rfl]
    simp [Stack.rotateUp, Stack.size, Array.swapIfInBounds]
  · simp only [rotateUp, withLastThree, Stack.rotateUp, if_neg h]
    rfl

theorem rotateDown_eq (s : Stack) : rotateDown s = .ok s.rotateDown := by
  by_cases h : 3 ≤ s.size
  · obtain ⟨l, u, v, w, hs⟩ := exists_last_three h
    rw [hs, rotateDown, withLastThree_eq (g := fun u v w => [w, u, v]) fun u v w => rfl]
    simp [Stack.rotateDown, Stack.size, Array.swapIfInBounds]
  · simp only [rotateDown, withLastThree, Stack.rotateDown, if_neg h]
    rfl

end Checked

/-! ## Sequences of operations -/

namespace Stack

/-- An operation of a stack. -/
inductive Use where
  | clear
  | push (w : Word)
  | pop
  | top
  | get (index : Nat)
  | put (index : Nat) (w : Word)
  | fromTop (n : Int)
  | putFromTop (n : Int) (w : Word)
  | dup
  | exchange
  | rotateUp
  | rotateDown
deriving DecidableEq

namespace Use

/-- The stack after an operation. -/
def apply (s : Stack) : Use → Stack
  | clear => s.clear
  | push w => s.push w
  | pop => s.pop.2
  | top | get _ | fromTop _ => s
  | put index w => s.put index w
  | putFromTop n w => s.putFromTop n w
  | dup => s.dup
  | exchange => s.exchange
  | rotateUp => s.rotateUp
  | rotateDown => s.rotateDown

/-- The stack after an operation with checks. -/
def check (s : Stack) : Use → Except Trap Stack
  | put index w => Checked.put s index w
  | fromTop n => do
    let _ ← Checked.fromTop s n
    return s
  | putFromTop n w => Checked.putFromTop s n w
  | exchange => Checked.exchange s
  | rotateUp => Checked.rotateUp s
  | rotateDown => Checked.rotateDown s
  -- nothing is reached by an index that must lie inside
  | use => return use.apply s

/-- The index of a word counted from the top can be computed. -/
def Fits (s : Stack) : Use → Prop
  | fromTop n | putFromTop n _ =>
    Checked.IsSigned (s.size - 1) ∧ Checked.IsSigned (s.size - 1 - n)
  | _ => True

/-- Every operation fits when it is its turn. -/
def AllFit : List Use → Stack → Prop
  | [], _ => True
  | use :: uses, s => use.Fits s ∧ AllFit uses (use.apply s)

variable {s : Stack} {use : Use}

theorem check_eq (h : use.Fits s) : use.check s = .ok (use.apply s) := by
  cases use with
  | put index w => exact Checked.put_eq s index w
  | fromTop n =>
    simp only [check, Checked.fromTop_eq h.1 h.2, Checked.ok_bind]
    rfl
  | putFromTop n w => exact Checked.putFromTop_eq h.1 h.2 w
  | exchange => exact Checked.exchange_eq s
  | rotateUp => exact Checked.rotateUp_eq s
  | rotateDown => exact Checked.rotateDown_eq s
  | _ => rfl

theorem capacity_apply (s : Stack) (use : Use) : (use.apply s).capacity = s.capacity := by
  cases use <;> simp [apply, Stack.pop]

theorem bounded_apply (h : s.Bounded) (use : Use) : (use.apply s).Bounded := by
  cases use with
  | clear => exact .clear
  | push | dup => exact h.push
  | pop => exact h.drop
  | top | get | fromTop => exact h
  | put => exact h.put
  | putFromTop n => exact h.putFromTop n
  | exchange => exact h.exchange
  | rotateUp => exact h.rotateUp
  | rotateDown => exact h.rotateDown

theorem capacity_foldl (s : Stack) (uses : List Use) :
    (uses.foldl apply s).capacity = s.capacity := by
  induction uses generalizing s with
  | nil => rfl
  | cons use uses ih => exact (ih _).trans (capacity_apply s use)

/-- **No sequence of operations takes a stack beyond its bound.** -/
theorem bounded_foldl (h : s.Bounded) (uses : List Use) : (uses.foldl apply s).Bounded := by
  induction uses generalizing s with
  | nil => exact h
  | cons use uses ih => exact ih (bounded_apply h use)

/-- **No check of a sequence of operations that fit fails.** -/
theorem foldlM_check {uses : List Use} (h : AllFit uses s) :
    uses.foldlM check s = .ok (uses.foldl apply s) := by
  induction uses generalizing s with
  | nil => rfl
  | cons use uses ih =>
    rw [List.foldlM_cons, check_eq h.1]
    exact ih h.2

end Use
end Stack
end GlyphMachine
