import GlyphMachine.Proofs.Sessions

/-!
# The address space is a sound store

In full addressing three windows with different masks show two stacks that grow, so many addresses
name one place.  Whether two addresses do is said by `Addressing.region`; everything else about
reading and writing is a law of places.

* `Region.Fits` — a place that exists when the stacks have the room they were built with; every
  address names one (`fits_region`).
* `Machine.read`, `Machine.write` — the machine seen as a store of places.
* `read_write`, `write_write`, `write_comm` — the laws of a store, for places that fit.
* `address_space_is_a_store` — hence the laws of `get` and `put`, for all pairs of addresses.
-/

namespace GlyphMachine

/-! ## Writing twice -/

namespace Stack

variable {s : Stack} {v w : Word} {i j : Nat}

/-- Of two writes at one index the second counts. -/
theorem put_put (h : i < s.capacity) : (s.put i v).put i w = s.put i w := by
  have h' : i < (s.put i v).capacity := by simpa using h
  apply ext_get
  · simp
  · simp only [size_put, capacity_put, if_pos h]
    omega
  · intro k
    rw [get_put h', get_put h, get_put h]
    split <;> rfl

/-- Writes at two indices may be exchanged, whichever of them makes the stack grow. -/
theorem put_comm (hi : i < s.capacity) (hj : j < s.capacity) (hne : i ≠ j) :
    (s.put i v).put j w = (s.put j w).put i v := by
  have hi' : i < (s.put j w).capacity := by simpa using hi
  have hj' : j < (s.put i v).capacity := by simpa using hj
  apply ext_get
  · simp
  · simp only [size_put, capacity_put, if_pos hi, if_pos hj]
    omega
  · intro k
    rw [get_put hj', get_put hi, get_put hi', get_put hj]
    by_cases hk : i = k
    · subst hk
      rw [if_pos rfl, if_pos rfl, if_neg (Ne.symm hne)]
    · rw [if_neg hk, if_neg hk]

/-- A write below the capacity is kept, and the stack is just large enough for it. -/
theorem put_kept (h : i < s.capacity) :
    (s.put i w).get i = w ∧ (s.put i w).size = max s.size (i + 1) := by
  rw [get_put h, size_put, if_pos rfl, if_pos h]
  exact ⟨rfl, rfl⟩

/-- The top word is the last one. -/
theorem top_eq_get (s : Stack) : s.top = s.get (s.size - 1) := by
  unfold top get size
  rw [Array.back?_eq_getElem?, Array.getD_eq_getD_getElem?]

end Stack

namespace Memory

variable {m : Memory} {v w : Word} {i j : Nat}

theorem put_put : (m.put i v).put i w = m.put i w := by
  apply ext_get
  intro k
  rw [get_put, get_put, get_put]
  split <;> rfl

theorem put_comm (hne : i % memorySize ≠ j % memorySize) :
    (m.put i v).put j w = (m.put j w).put i v := by
  apply ext_get
  intro k
  rw [get_put, get_put, get_put, get_put]
  by_cases hk : i % memorySize = k % memorySize
  · rw [if_pos hk, if_pos hk, if_neg (fun hj => hne (hk.trans hj.symm))]
  · rw [if_neg hk, if_neg hk]

end Memory

/-! ## Places -/

namespace Region

/-- Whether there is such a place: the address lies in memory, or the index below the room that the
stack was built with. -/
def Fits : Region → Prop
  | memory addr => addr < memorySize
  | control index => index < controlCapacity
  | data index => index < dataCapacity

end Region

/-- Every address names a place that there is. -/
theorem Addressing.fits_region (a : Addressing) (addr : Nat) : (a.region addr).Fits := by
  have hlt : addr % memorySize < memorySize := Nat.mod_lt _ (by decide)
  cases a with
  | simple => exact hlt
  | full =>
    simp only [region]
    split
    · exact hlt
    · split
      · exact Nat.mod_lt _ (by decide)
      · split
        · show addr % memorySize % 0x10000 < 0x20000
          omega
        · exact Nat.mod_lt _ (by decide)

namespace Machine

variable {a : Addressing} {m : Machine} {v w : Word} {r r' : Region}

/-- The word at a place. -/
def read (m : Machine) : Region → Word
  | .memory addr => m.memory.get addr
  | .control index => m.control.get index
  | .data index => m.data.get index

/-- Writes the word at a place. -/
def write (m : Machine) (r : Region) (w : Word) : Machine :=
  match r with
  | .memory addr => { m with memory := m.memory.put addr w }
  | .control index => { m with control := m.control.put index w }
  | .data index => { m with data := m.data.put index w }

/-- Whether a place lies above the top of its stack. -/
def Vacant (m : Machine) : Region → Prop
  | .memory _ => False
  | .control index => m.control.size ≤ index
  | .data index => m.data.size ≤ index

theorem get_eq_read (hm : m.BuiltFor a) (addr : Nat) : m.get addr = m.read (a.region addr) := by
  rw [← hm.addressing]
  rfl

theorem put_eq_write (hm : m.BuiltFor a) (addr : Nat) (w : Word) :
    m.put addr w = m.write (a.region addr) w := by
  rw [← hm.addressing]
  rfl

theorem BuiltFor.write (hm : m.BuiltFor a) (r : Region) (w : Word) : (m.write r w).BuiltFor a := by
  obtain ⟨haddressing, hdata, hcontrol⟩ := hm
  cases r with
  | memory addr => exact ⟨haddressing, hdata, hcontrol⟩
  | control index => exact ⟨haddressing, hdata, Stack.capacity_put.trans hcontrol⟩
  | data index => exact ⟨haddressing, Stack.capacity_put.trans hdata, hcontrol⟩

theorem BuiltFor.control_fits {i : Nat} (hm : m.BuiltFor a) (h : (Region.control i).Fits) :
    i < m.control.capacity := by
  rw [hm.control]
  exact h

theorem BuiltFor.data_fits {i : Nat} (hm : m.BuiltFor a) (h : (Region.data i).Fits) :
    i < m.data.capacity := by
  rw [hm.data]
  exact h

theorem read_of_vacant (h : m.Vacant r) : m.read r = 0 := by
  cases r with
  | memory addr => cases h
  | control index => exact Stack.get_eq_zero h
  | data index => exact Stack.get_eq_zero h

/-! ## The laws of a store -/

section Laws

variable (hm : m.BuiltFor a)
include hm

/-- **A write changes what is read at its own place, and at no other.** -/
theorem read_write (hr : r.Fits) (hr' : r'.Fits) :
    (m.write r v).read r' = if r = r' then v else m.read r' := by
  cases r with
  | memory i =>
    cases r' with
    | memory j =>
      -- addresses inside the memory do not wrap around
      have hi : i % memorySize = i := Nat.mod_eq_of_lt hr
      have hj : j % memorySize = j := Nat.mod_eq_of_lt hr'
      show (m.memory.put i v).get j = _
      rw [Memory.get_put, hi, hj]
      simp [read]
    | control j => rfl
    | data j => rfl
  | control i =>
    cases r' with
    | memory j => rfl
    | control j =>
      show (m.control.put i v).get j = _
      rw [Stack.get_put (hm.control_fits hr)]
      simp [read]
    | data j => rfl
  | data i =>
    cases r' with
    | memory j => rfl
    | control j => rfl
    | data j =>
      show (m.data.put i v).get j = _
      rw [Stack.get_put (hm.data_fits hr)]
      simp [read]

/-- Of two writes at one place the second counts. -/
theorem write_write (hr : r.Fits) : (m.write r v).write r w = m.write r w := by
  cases r with
  | memory i => simp only [write, Memory.put_put]
  | control i => simp only [write, Stack.put_put (hm.control_fits hr)]
  | data i => simp only [write, Stack.put_put (hm.data_fits hr)]

/-- Writes at two places may be exchanged. -/
theorem write_comm (hr : r.Fits) (hr' : r'.Fits) (hne : r ≠ r') :
    (m.write r v).write r' w = (m.write r' w).write r v := by
  cases r with
  | memory i =>
    cases r' with
    | memory j =>
      have hij : i % memorySize ≠ j % memorySize := by
        rw [Nat.mod_eq_of_lt hr, Nat.mod_eq_of_lt hr']
        rintro rfl
        exact hne rfl
      simp only [write, Memory.put_comm hij]
    | control j => rfl
    | data j => rfl
  | control i =>
    cases r' with
    | memory j => rfl
    | control j =>
      have hij : i ≠ j := by
        rintro rfl
        exact hne rfl
      simp only [write, Stack.put_comm (hm.control_fits hr) (hm.control_fits hr') hij]
    | data j => rfl
  | data i =>
    cases r' with
    | memory j => rfl
    | control j => rfl
    | data j =>
      have hij : i ≠ j := by
        rintro rfl
        exact hne rfl
      simp only [write, Stack.put_comm (hm.data_fits hr) (hm.data_fits hr') hij]

end Laws

/-- The last window shows the top of the data stack. -/
theorem region_top (hbounded : m.data.size ≤ dataCapacity) (hsize : 0 < m.data.size) :
    Addressing.full.region (0xE0000 + (m.data.size - 1)) = .data (m.data.size - 1) := by
  unfold dataCapacity at hbounded
  have hwrap : (0xE0000 + (m.data.size - 1)) % memorySize = 0xE0000 + (m.data.size - 1) :=
    Nat.mod_eq_of_lt (by unfold memorySize; omega)
  have hindex : (0xE0000 + (m.data.size - 1)) % 0x20000 = m.data.size - 1 := by omega
  simp only [Addressing.region, hwrap]
  rw [if_neg (by unfold windowStart; omega), if_neg (by omega), if_neg (by omega), hindex]

/-- **The address space is a store, however its addresses alias.**  On a machine whose stacks have
the room they were built with: a word written at an address is read at every address of the same
place and changes what is read nowhere else, so that what lies above the top of a stack stays zero
when the stack grows past it; of two writes at one address the second counts; writes at different
places may be exchanged; and a write that shows a stack is never dropped, touches neither the other
stack nor memory, and makes its stack just large enough.  In full addressing the word written
through the last window at the top of the data stack is the next one popped. -/
theorem address_space_is_a_store {a : Addressing} {m : Machine} (hm : m.BuiltFor a) :
    (∀ addr addr' v, (m.put addr v).get addr' =
      if a.region addr = a.region addr' then v else m.get addr') ∧
    (∀ addr addr' v, m.Vacant (a.region addr') → a.region addr ≠ a.region addr' →
      (m.put addr v).get addr' = 0) ∧
    (∀ addr v w, (m.put addr v).put addr w = m.put addr w) ∧
    (∀ addr addr' v w, a.region addr ≠ a.region addr' →
      (m.put addr v).put addr' w = (m.put addr' w).put addr v) ∧
    (∀ addr v index, a.region addr = .data index →
      (m.put addr v).data.get index = v ∧
      (m.put addr v).data.size = max m.data.size (index + 1) ∧
      (m.put addr v).control = m.control ∧ (m.put addr v).memory = m.memory) ∧
    (∀ addr v index, a.region addr = .control index →
      (m.put addr v).control.get index = v ∧
      (m.put addr v).control.size = max m.control.size (index + 1) ∧
      (m.put addr v).data = m.data ∧ (m.put addr v).memory = m.memory) ∧
    (a = .full → m.data.Bounded → 0 < m.data.size →
      ∀ w, (m.put (0xE0000 + (m.data.size - 1)) w).data.pop.1 = w) := by
  have hget : ∀ addr addr' v, (m.put addr v).get addr' =
      if a.region addr = a.region addr' then v else m.get addr' := by
    intro addr addr' v
    rw [put_eq_write hm, get_eq_read (hm.write _ _), get_eq_read hm,
      read_write hm (a.fits_region addr) (a.fits_region addr')]
  refine ⟨hget, ?_, ?_, ?_, ?_, ?_, ?_⟩
  · intro addr addr' v hvacant hne
    rw [hget, if_neg hne, get_eq_read hm, read_of_vacant hvacant]
  · intro addr v w
    rw [put_eq_write hm, put_eq_write (hm.write _ _), put_eq_write hm,
      write_write hm (a.fits_region addr)]
  · intro addr addr' v w hne
    rw [put_eq_write hm addr, put_eq_write (hm.write _ _), put_eq_write hm addr',
      put_eq_write (hm.write _ _), write_comm hm (a.fits_region addr) (a.fits_region addr') hne]
  · intro addr v index hregion
    have hfits : (Region.data index).Fits := hregion ▸ a.fits_region addr
    obtain ⟨hword, hsize⟩ := Stack.put_kept (w := v) (hm.data_fits hfits)
    rw [put_eq_write hm, hregion]
    exact ⟨hword, hsize, rfl, rfl⟩
  · intro addr v index hregion
    have hfits : (Region.control index).Fits := hregion ▸ a.fits_region addr
    obtain ⟨hword, hsize⟩ := Stack.put_kept (w := v) (hm.control_fits hfits)
    rw [put_eq_write hm, hregion]
    exact ⟨hword, hsize, rfl, rfl⟩
  · rintro rfl hbounded hpos w
    unfold Stack.Bounded at hbounded
    obtain ⟨hword, hsize⟩ := Stack.put_kept (w := w) (by omega : m.data.size - 1 < m.data.capacity)
    rw [put_eq_write hm, region_top (by rwa [← hm.data]) hpos]
    show (m.data.put (m.data.size - 1) w).top = w
    have hlast : (m.data.put (m.data.size - 1) w).size - 1 = m.data.size - 1 := by omega
    rw [Stack.top_eq_get, hlast, hword]

/-- The words `10` and `20`, of which the second was popped.  A write through the middle window
makes the data stack grow past the place of the popped word, which stays zero; and a write through
the last window at the top is popped next. -/
theorem popped_word_stays_away :
    ∃ m : Machine, m.BuiltFor .full ∧
      m.data = (((Stack.empty dataCapacity).push 10).push 20).drop ∧
      (m.put 0xD0003 7).get 0xE0003 = 7 ∧ (m.put 0xD0003 7).get 0xE0001 = 0 ∧
      (m.put 0xE0000 7).data.pop.1 = 7 := by
  have hm : ({ fresh .full with
      data := (((Stack.empty dataCapacity).push 10).push 20).drop } : Machine).BuiltFor .full :=
    ⟨rfl, rfl, rfl⟩
  obtain ⟨hget, hvacant, -, -, -, -, hpop⟩ := address_space_is_a_store hm
  refine ⟨_, hm, rfl, ?_, ?_, ?_⟩
  · exact (hget 0xD0003 0xE0003 7).trans (if_pos (by decide))
  · exact hvacant 0xD0003 0xE0001 7 (Nat.le_refl 1) (by decide)
  · exact hpop rfl (by unfold Stack.Bounded; decide) (by decide) 7

end Machine
end GlyphMachine
