import GlyphMachine.Proofs.CheckedStacks
import GlyphMachine.Proofs.Sessions
import GlyphMachine.Proofs.Stacks
import GlyphMachine.Proofs.Visits

/-!
# Runs with checks

A machine that checks every access stops at an index outside the memory, a stack or the blocks of
its code.  The code of a program never makes it stop, because both stacks stay within their bounds,
the entries of the code lie in its blocks, and the offsets in its operations are those of words.

* `Program.entry_placed` — every entry of the code is a place in a block.
* `Op.Fits`, `Program.fits_of_rest?` — the offsets in the operations of the code.
* `Machine.Within` — the stacks are within their bounds; `Within.step`, `Within.transfer` and
  `Within.dispatch` keep them there.
* `Checked.step`, `Checked.transfer`, `Checked.dispatch` — running code with checks; `step_eq`,
  `transfer_eq` and `dispatch_eq` say that no check fails.
* `Machine.Used` — the machines that any sequence of runs leads to.
* `Machine.execution_stays_in_range` — hence the bounds in every state on the way, and no access
  out of range.
-/

namespace GlyphMachine

open Lowered (blockFrom)

/-! ## Entries -/

namespace CodeBuilder

variable {b : CodeBuilder} {entry : Entry}

/-- The entry is a place in a closed block, or in the open one. -/
def Placed (b : CodeBuilder) (entry : Entry) : Prop :=
  (∃ block, b.blocks[entry.block]? = some block ∧ entry.offset ≤ block.ops.length) ∨
    entry.block = b.blocks.size ∧ entry.offset ≤ b.body.size

/-- When the open block is closed, the entry is a place in a closed one. -/
theorem Placed.of_push (h : b.Placed entry) (ops : List Op) (exit : Exit) :
    ∃ block, (b.blocks.push ⟨b.body.toList ++ ops, exit⟩)[entry.block]? = some block ∧
      entry.offset ≤ block.ops.length := by
  rcases h with ⟨block, hblock, hoffset⟩ | ⟨hblock, hoffset⟩
  · obtain ⟨hlt, -⟩ := Array.getElem?_eq_some_iff.1 hblock
    refine ⟨block, ?_, hoffset⟩
    rw [Array.getElem?_push, if_neg (Nat.ne_of_lt hlt), hblock]
  · refine ⟨_, by rw [hblock, Array.getElem?_push_size], ?_⟩
    rw [List.length_append, Array.length_toList]
    exact Nat.le_trans hoffset (Nat.le_add_right _ _)

theorem Placed.add (h : b.Placed entry) (l : Lowered) : (b.add l).Placed entry := by
  cases hx : l.exit with
  | none =>
    obtain ⟨hblocks, hbody⟩ := add_of_exit_none (b := b) hx
    have hsize : b.body.size ≤ (b.add l).body.size := by
      rw [← Array.length_toList, ← Array.length_toList, hbody, List.length_append]
      exact Nat.le_add_right _ _
    rw [Placed, hblocks]
    exact h.imp_right fun ⟨hblock, hoffset⟩ => ⟨hblock, Nat.le_trans hoffset hsize⟩
  | some exit =>
    obtain ⟨hblocks, -⟩ := add_of_exit_some (b := b) hx
    rw [Placed, hblocks]
    exact .inl (h.of_push l.op.toList exit)

theorem placed_foldl (hb : ∀ entry ∈ b.entries, b.Placed entry) (ls : List Lowered) :
    ∀ entry ∈ (ls.foldl CodeBuilder.add b).entries, (ls.foldl CodeBuilder.add b).Placed entry := by
  induction ls generalizing b with
  | nil => exact hb
  | cons l ls ih =>
    refine ih fun entry he => ?_
    rw [entries_add, Array.mem_push] at he
    rcases he with he | rfl
    · exact (hb entry he).add l
    · exact Placed.add (.inr ⟨rfl, Nat.le_refl _⟩) l

theorem placed_finish (hb : b.Consistent) (he : entry ∈ b.entries) (h : b.Placed entry) :
    ∃ block, b.finish.blocks[entry.block]? = some block ∧ entry.offset ≤ block.ops.length := by
  cases hopen : b.isOpen with
  | true =>
    have hblocks : b.finish.blocks = b.blocks.push ⟨b.body.toList ++ [], .goto b.entries.size⟩ := by
      simp [finish, hopen, close]
    rw [hblocks]
    exact h.of_push [] _
  | false =>
    have hblocks : b.finish.blocks = b.blocks := by simp [finish, hopen]
    rw [hblocks]
    rcases h with hclosed | ⟨hblock, -⟩
    · exact hclosed
    · rcases hb entry he with hlt | ⟨-, htrue⟩
      · exact absurd hblock (Nat.ne_of_lt hlt)
      · exact absurd (hopen.symm.trans htrue) Bool.false_ne_true

end CodeBuilder

namespace Program

variable {a : Addressing} {p : Program} {k : Nat} {entry : Entry}

/-- **Every entry of the code is a place in one of its blocks.** -/
theorem entry_placed (h : (p.compile a).entries[k]? = some entry) :
    ∃ block, (p.compile a).blocks[entry.block]? = some block ∧ entry.offset ≤ block.ops.length := by
  rw [compile, CodeBuilder.entries_finish] at h
  have he := Array.mem_of_getElem? h
  have hplaced := CodeBuilder.placed_foldl (b := {}) (by simp) (p.lowered a) entry he
  exact CodeBuilder.placed_finish (CodeBuilder.consistent_empty.foldl _) he hplaced

end Program

/-! ## Offsets -/

/-- A word can name the offset. -/
def IsOffset (n : Int) : Prop := -2147483648 ≤ n ∧ n < 2147483648

theorem Word.isOffset_offset (w : Word) : IsOffset w.offset :=
  ⟨Int32.le_toInt w.swapHalves, Int32.toInt_lt w.swapHalves⟩

/-- The offset in the operation, if there is one, is that of a word. -/
def Op.Fits : Op → Prop
  | .pickAt n | .buryAt n | .controlPeek n => IsOffset n
  | _ => True

theorem Instruction.fits_lower (a : Addressing) (addr : Nat) (i : Instruction) {op : Op}
    (h : (i.lower a addr).op = some op) : op.Fits := by
  cases i with
  | push w =>
    cases h
    trivial
  | op code literal target =>
    cases code with
    | pick | bury =>
      cases literal with
      | none =>
        cases h
        trivial
      | some w =>
        cases h
        exact w.isOffset_offset
    | index | outerIndex =>
      cases h
      exact ⟨by decide, by decide⟩
    | load | store =>
      cases literal with
      | none =>
        cases h
        trivial
      | some w =>
        simp only [lower, lowerOp, lowerLoad, lowerStore] at h
        split at h <;>
        · cases h
          trivial
    | branch | otherwise => cases target <;> cases h
    | define =>
      cases target with
      | none => cases h
      | some last => cases literal <;> cases h <;> trivial
    | _ => cases literal <;> cases h <;> trivial

theorem Program.fits_of_rest? {a : Addressing} {p : Program} {k : Nat} {b : Block}
    (h : (p.compile a).rest? k = some b) : ∀ op ∈ b.ops, op.Fits := by
  have hlt : k < p.length := by
    refine Nat.lt_of_not_le fun hle => ?_
    rw [rest?_compile_of_le hle] at h
    cases h
  rw [rest?_compile hlt] at h
  cases h
  refine Program.block_induction (a := a) (motive := fun _ block => ∀ op ∈ block.ops, op.Fits)
    ?_ ?_ ?_ (Nat.le_of_lt hlt)
  · simp
  · intro k hk exit hx op hop
    exact (p[k]).fits_lower a k (Option.mem_toList.1 hop)
  · intro k hk block hx ih op hop
    rcases List.mem_append.1 hop with hop | hop
    · exact (p[k]).fits_lower a k (Option.mem_toList.1 hop)
    · exact ih op hop

/-! ## The bounds -/

namespace Machine

variable {a : Addressing} {m n : Machine}

/-- The machine is built for the given addressing, and its stacks are within their bounds. -/
structure Within (a : Addressing) (m : Machine) : Prop extends BuiltFor a m where
  data_bounded : m.data.Bounded
  control_bounded : m.control.Bounded

theorem within_fresh (a : Addressing) : (fresh a).Within a :=
  ⟨builtFor_fresh a, .empty _, .empty _⟩

theorem bounded_put (hdata : m.data.Bounded) (hcontrol : m.control.Bounded) (addr : Nat)
    (w : Word) : (m.put addr w).data.Bounded ∧ (m.put addr w).control.Bounded := by
  unfold put
  split
  · exact ⟨hdata, hcontrol⟩
  · exact ⟨hdata, hcontrol.put⟩
  · exact ⟨hdata.put, hcontrol⟩

theorem bounded_step (hdata : m.data.Bounded) (hcontrol : m.control.Bounded) (op : Op) :
    (m.step op).data.Bounded ∧ (m.step op).control.Bounded := by
  cases op with
  | push | dup | pickAt | loadAt | loadDirect | controlPeek => exact ⟨hdata.push, hcontrol⟩
  | pushTwice => exact ⟨hdata.push.push, hcontrol⟩
  | binary => exact ⟨hdata.drop.drop.push, hcontrol⟩
  | binaryWith | unary | pick | load => exact ⟨hdata.drop.push, hcontrol⟩
  | drop | storeDirect => exact ⟨hdata.drop, hcontrol⟩
  | exchange => exact ⟨hdata.exchange, hcontrol⟩
  | rotateUp => exact ⟨hdata.rotateUp, hcontrol⟩
  | rotateDown => exact ⟨hdata.rotateDown, hcontrol⟩
  | bury => exact ⟨hdata.drop.drop.putFromTop _, hcontrol⟩
  | buryAt => exact ⟨hdata.drop.putFromTop _, hcontrol⟩
  | store =>
    exact bounded_put (m := { m with data := m.data.drop.drop }) hdata.drop.drop hcontrol _ _
  | storeAt | define =>
    exact bounded_put (m := { m with data := m.data.drop }) hdata.drop hcontrol _ _
  | defineAt => exact bounded_put hdata hcontrol _ _
  | fromControl => exact ⟨hdata.push, hcontrol.drop⟩
  | toControl => exact ⟨hdata.drop, hcontrol.push⟩
  | toControlWith | mark => exact ⟨hdata, hcontrol.push⟩
  | markCounted => exact ⟨hdata.drop, hcontrol.push.push⟩
  | markCountedWith => exact ⟨hdata, hcontrol.push.push⟩
  | context =>
    have hwords : ∀ (ws : List Word) (s : Stack), s.Bounded → (ws.foldl Stack.push s).Bounded := by
      intro ws
      induction ws with
      | nil => exact fun s hs => hs
      | cons w ws ih => exact fun s hs => ih _ hs.push
    exact ⟨hwords _ _ hdata, hcontrol⟩

theorem bounded_transfer (hdata : m.data.Bounded) (hcontrol : m.control.Bounded) (exit : Exit) :
    (m.transfer exit).2.data.Bounded ∧ (m.transfer exit).2.control.Bounded := by
  cases exit with
  | goto | jumpTo | terminate => exact ⟨hdata, hcontrol⟩
  | ifZero | jump => exact ⟨hdata.drop, hcontrol⟩
  | loopWhile next =>
    simp only [transfer]
    split
    · exact ⟨hdata.drop, hcontrol.drop⟩
    · exact ⟨hdata.drop, hcontrol⟩
  | countDown next =>
    simp only [transfer]
    split
    · exact ⟨hdata, .clear⟩
    · split
      · exact ⟨hdata, hcontrol.drop.drop⟩
      · exact ⟨hdata, hcontrol.putFromTop 1⟩
  | ret => exact ⟨hdata, hcontrol.drop⟩
  | call back slot =>
    cases slot with
    | some addr => exact ⟨hdata, hcontrol.push⟩
    | none => exact ⟨hdata.drop, hcontrol.push⟩
  | switch addr resume =>
    simp only [transfer]
    split
    · exact ⟨hdata.drop, hcontrol⟩
    · exact ⟨hdata, hcontrol⟩

theorem Within.step (h : m.Within a) (op : Op) : (m.step op).Within a :=
  have hbounded := bounded_step h.data_bounded h.control_bounded op
  ⟨h.of_fixed (fixed_step m op), hbounded.1, hbounded.2⟩

theorem Within.steps (h : m.Within a) (ops : List Op) : (m.steps ops).Within a := by
  induction ops generalizing m with
  | nil => exact h
  | cons op ops ih => exact ih (h.step op)

theorem Within.runBlock (h : m.Within a) (b : Block) : (m.runBlock b).2.Within a :=
  have hsteps := h.steps b.ops
  have hbounded := bounded_transfer hsteps.data_bounded hsteps.control_bounded b.exit
  ⟨h.of_fixed (fixed_runBlock m b), hbounded.1, hbounded.2⟩

theorem Within.data_size (h : m.Within a) : m.data.size ≤ dataCapacity := h.data ▸ h.data_bounded

theorem Within.control_size (h : m.Within a) : m.control.size ≤ controlCapacity :=
  h.control ▸ h.control_bounded

end Machine

/-! ## Running with checks -/

namespace Checked

/-- The word at an address of the memory. -/
def load (m : Memory) (addr : Nat) : Except Trap Word :=
  lookup m.words.toArray (addr % memorySize)

/-- Writes the word at an address of the memory. -/
def store (m : Memory) (addr : Nat) (w : Word) : Except Trap Memory :=
  if h : addr % memorySize < m.words.toArray.size then
    .ok ⟨m.words.set (addr % memorySize) w (Nat.lt_of_lt_of_eq h m.words.size_toArray)⟩
  else .error (.index (addr % memorySize) m.words.toArray.size)

/-- The word at an address. -/
def get (m : Machine) (addr : Nat) : Except Trap Word :=
  match m.addressing.region addr with
  | .memory addr => load m.memory addr
  | .control index => return m.control.get index
  | .data index => return m.data.get index

/-- Writes the word at an address. -/
def write (m : Machine) (addr : Nat) (w : Word) : Except Trap Machine :=
  match m.addressing.region addr with
  | .memory addr => return { m with memory := ← store m.memory addr w }
  | .control index => return { m with control := ← put m.control index w }
  | .data index => return { m with data := ← put m.data index w }

/-- Performs an operation. -/
def step (m : Machine) : Op → Except Trap Machine
  | .exchange => return { m with data := ← exchange m.data }
  | .rotateUp => return { m with data := ← rotateUp m.data }
  | .rotateDown => return { m with data := ← rotateDown m.data }
  | .pick => do
    let (n, data) := m.data.pop
    return { m with data := data.push (← fromTop data n.offset) }
  | .pickAt n => return { m with data := m.data.push (← fromTop m.data n) }
  | .bury => do
    let (n, data) := m.data.pop
    let (w, data) := data.pop
    return { m with data := ← putFromTop data n.offset w }
  | .buryAt n => do
    let (w, data) := m.data.pop
    return { m with data := ← putFromTop data n w }
  | .load => do
    let (a, data) := m.data.pop
    let m := { m with data }
    return { m with data := m.data.push (← get m a.address) }
  | .loadAt addr => return { m with data := m.data.push (← get m addr) }
  | .loadDirect addr => return { m with data := m.data.push (← load m.memory addr) }
  | .store =>
    let (a, data) := m.data.pop
    let (w, data) := data.pop
    write { m with data } a.address w
  | .storeAt addr =>
    let (w, data) := m.data.pop
    write { m with data } addr w
  | .storeDirect addr => do
    let (w, data) := m.data.pop
    return { m with data, memory := ← store m.memory addr w }
  | .controlPeek n => return { m with data := m.data.push (← fromTop m.control n) }
  | .define entry =>
    let (a, data) := m.data.pop
    write { m with data } a.address entry
  | .defineAt addr entry => write m addr entry
  -- the other operations push and pop
  | op => return m.step op

/-- Performs the exit of a block. -/
def transfer (m : Machine) : Exit → Except Trap (Machine.Flow × Machine)
  | .countDown next =>
    if m.control.size < 2 then return (.goto next, { m with control := m.control.clear })
    else do
      let count := (← fromTop m.control 1) - Word.one
      let control ← putFromTop m.control 1 count
      if count = 0 then return (.goto next, { m with control := control.drop.drop })
      else return (.goto control.top.offset, { m with control })
  | .call back slot => do
    let m := { m with control := m.control.push back }
    match slot with
    | some addr => return (.goto (← get m addr).offset, m)
    | none =>
      let (a, data) := m.data.pop
      let m := { m with data }
      return (.goto (← get m a.address).offset, m)
  -- the other exits push and pop
  | exit => return m.transfer exit

/-- What is run from an entry on. -/
def enter (code : Code) (entry : Entry) : Except Trap Block := do
  let block ← lookup code.blocks entry.block
  let ops ← slice block.ops entry.offset
  return { block with ops }

/-- Runs a block: its operations, then its exit. -/
def runBlock (m : Machine) (b : Block) : Except Trap (Machine.Flow × Machine) := do
  let m ← b.ops.foldlM step m
  transfer m b.exit

/-- Runs `code` from `target`, for at most `fuel` blocks. -/
def dispatch (code : Code) :
    (fuel : Nat) → (target : Int) → Machine → Except Trap (Option (PassEnd × Machine))
  | 0, _, _ => return none
  | fuel + 1, target, m =>
    match target.toNat?.bind (code.entries[·]?) with
    | none => return some (Machine.leaveAt code.size target, m)
    | some entry => do
      let block ← enter code entry
      match ← runBlock m block with
      | (.goto target, m) => dispatch code fuel target m
      | (.stop finish, m) => return some (finish, m)

/-! ## No check fails -/

variable {a : Addressing} {p : Program} {m : Machine} {s : Stack} {n : Int}

theorem load_eq (m : Memory) (addr : Nat) : load m addr = .ok (m.get addr) :=
  lookup_of_lt (by rw [m.words.size_toArray]; exact (Memory.wrap addr).isLt)

theorem store_eq (m : Memory) (addr : Nat) (w : Word) : store m addr w = .ok (m.put addr w) :=
  dif_pos (by rw [m.words.size_toArray]; exact (Memory.wrap addr).isLt)

theorem get_eq (m : Machine) (addr : Nat) : get m addr = .ok (m.get addr) := by
  rw [get, Machine.get]
  cases m.addressing.region addr with
  | memory addr => exact load_eq m.memory addr
  | control index => rfl
  | data index => rfl

theorem write_eq (m : Machine) (addr : Nat) (w : Word) : write m addr w = .ok (m.put addr w) := by
  rw [write, Machine.put]
  cases m.addressing.region addr with
  | memory addr => simp only [store_eq, ok_bind]; rfl
  | control index => simp only [put_eq, ok_bind]; rfl
  | data index => simp only [put_eq, ok_bind]; rfl

/-- On the stacks of a machine the offset of a word leads to an index that can be computed. -/
theorem isSigned_of_isOffset (hs : s.size ≤ dataCapacity) (hn : IsOffset n) :
    IsSigned (s.size - 1) ∧ IsSigned (s.size - 1 - n) := by
  have hs' : s.size ≤ 131072 := hs
  obtain ⟨hlow, hhigh⟩ := hn
  unfold IsSigned
  omega

theorem fromTop_eq_of_isOffset (hs : s.size ≤ dataCapacity) (hn : IsOffset n) :
    fromTop s n = .ok (s.fromTop n) :=
  have h := isSigned_of_isOffset hs hn
  fromTop_eq h.1 h.2

theorem putFromTop_eq_of_isOffset (hs : s.size ≤ dataCapacity) (hn : IsOffset n) (w : Word) :
    putFromTop s n w = .ok (s.putFromTop n w) :=
  have h := isSigned_of_isOffset hs hn
  putFromTop_eq h.1 h.2 w

theorem step_eq (hm : m.Within a) {op : Op} (hop : op.Fits) : step m op = .ok (m.step op) := by
  have hdata : m.data.drop.size ≤ dataCapacity := by
    rw [Stack.size_drop]
    exact Nat.le_trans (Nat.sub_le _ _) hm.data_size
  have hdata' : m.data.drop.drop.size ≤ dataCapacity := by
    rw [Stack.size_drop]
    exact Nat.le_trans (Nat.sub_le _ _) hdata
  have hcontrol : m.control.size ≤ dataCapacity := Nat.le_trans hm.control_size (by decide)
  cases op with
  | exchange =>
    rw [step, exchange_eq]
    rfl
  | rotateUp =>
    rw [step, rotateUp_eq]
    rfl
  | rotateDown =>
    rw [step, rotateDown_eq]
    rfl
  | pick =>
    simp only [step, Stack.pop, fromTop_eq_of_isOffset hdata (Word.isOffset_offset _)]
    rfl
  | pickAt n =>
    rw [step, fromTop_eq_of_isOffset hm.data_size hop]
    rfl
  | bury =>
    simp only [step, Stack.pop, putFromTop_eq_of_isOffset hdata' (Word.isOffset_offset _)]
    rfl
  | buryAt n =>
    simp only [step, Stack.pop, putFromTop_eq_of_isOffset hdata hop]
    rfl
  | load =>
    simp only [step, Stack.pop, get_eq]
    rfl
  | loadAt addr =>
    rw [step, get_eq]
    rfl
  | loadDirect addr =>
    rw [step, load_eq]
    rfl
  | store | storeAt | define | defineAt => exact write_eq _ _ _
  | storeDirect addr =>
    simp only [step, Stack.pop, store_eq]
    rfl
  | controlPeek n =>
    rw [step, fromTop_eq_of_isOffset hcontrol hop]
    rfl
  | _ => rfl

theorem steps_eq (hm : m.Within a) {ops : List Op} (hops : ∀ op ∈ ops, op.Fits) :
    ops.foldlM step m = .ok (m.steps ops) := by
  induction ops generalizing m with
  | nil => rfl
  | cons op ops ih =>
    rw [List.foldlM_cons, step_eq hm (hops op List.mem_cons_self)]
    exact ih (hm.step op) fun op hop => hops op (List.mem_cons_of_mem _ hop)

theorem transfer_eq (hm : m.Within a) (exit : Exit) :
    transfer m exit = .ok (m.transfer exit) := by
  cases exit with
  | countDown next =>
    by_cases hsize : m.control.size < 2
    · simp only [transfer, Machine.transfer, if_pos hsize]
      rfl
    · have hcontrol : m.control.size ≤ dataCapacity := Nat.le_trans hm.control_size (by decide)
      have hone : IsOffset 1 := ⟨by decide, by decide⟩
      -- the counter and the marker are the two top words
      obtain ⟨s, v, w, hroom, hs⟩ :=
        Stack.exists_push_push hm.control_bounded (Nat.le_of_not_lt hsize)
      simp only [transfer, Machine.transfer, if_neg hsize, fromTop_eq_of_isOffset hcontrol hone,
        putFromTop_eq_of_isOffset hcontrol hone, ok_bind]
      simp only [hs, Stack.fromTop_push_push hroom, Stack.putFromTop_push_push hroom,
        Stack.drop_drop_push_push hroom, Stack.top_push (Stack.room_push hroom)]
      split <;> rfl
  | call back slot =>
    cases slot with
    | some addr =>
      simp only [transfer, get_eq, ok_bind]
      rfl
    | none =>
      simp only [transfer, get_eq, ok_bind]
      rfl
  | _ => rfl

theorem enter_eq {addr : Nat} {entry : Entry} (h : (p.compile a).entries[addr]? = some entry) :
    ∃ b, (p.compile a).rest? addr = some b ∧ enter (p.compile a) entry = .ok b := by
  obtain ⟨block, hblock, hoffset⟩ := Program.entry_placed h
  obtain ⟨hlt, heq⟩ := Array.getElem?_eq_some_iff.1 hblock
  refine ⟨{ block with ops := block.ops.drop entry.offset }, ?_, ?_⟩
  · rw [Code.rest?, h, Option.bind_eq_bind, Option.bind_some, hblock]
    rfl
  · rw [enter, lookup_of_lt hlt, heq, ok_bind, slice_of_le hoffset]
    rfl

theorem runBlock_eq (hm : m.Within a) {b : Block} (hops : ∀ op ∈ b.ops, op.Fits) :
    runBlock m b = .ok (m.runBlock b) := by
  rw [runBlock, steps_eq hm hops]
  exact transfer_eq (hm.steps b.ops) b.exit

/-- **No check of a run fails.** -/
theorem dispatch_eq (hm : m.Within a) (fuel : Nat) (target : Int) :
    dispatch (p.compile a) fuel target m = .ok (m.dispatch (p.compile a) fuel target) := by
  induction fuel generalizing target m with
  | zero => rfl
  | succ fuel ih =>
    rw [dispatch, Machine.dispatch]
    cases hentry : target.toNat?.bind ((p.compile a).entries[·]?) with
    | none =>
      have hrest : target.toNat?.bind (p.compile a).rest? = none := by
        rw [Option.bind_eq_none_iff] at hentry ⊢
        intro addr haddr
        rw [Code.rest?, hentry addr haddr]
        rfl
      rw [hrest]
      rfl
    | some entry =>
      obtain ⟨addr, haddr, he⟩ := Option.bind_eq_some_iff.1 hentry
      obtain ⟨b, hrest, henter⟩ := enter_eq he
      have hrun := hm.runBlock b
      simp only [haddr, Option.bind_some, hrest, henter, ok_bind,
        runBlock_eq hm (Program.fits_of_rest? hrest)]
      rcases hflow : m.runBlock b with ⟨target | finish, m₁⟩
      · rw [hflow] at hrun
        exact ih hrun target
      · rfl

end Checked

/-! ## Sequences of runs -/

namespace Machine

variable {a : Addressing} {p : Program} {m m' : Machine} {fuel : Nat} {target : Int}
  {finish : PassEnd}

/-- A machine that was fresh once.  Since then it ran code for its addressing, again and again, and
between two runs everything but the addressing was changed at will, the stacks by their operations
alone. -/
inductive Used (a : Addressing) : Machine → Prop where
  | fresh : Used a (fresh a)
  | run {m m' : Machine} {fuel : Nat} {target : Int} {finish : PassEnd} (p : Program) : Used a m →
      dispatch (p.compile a) fuel target m = some (finish, m') → Used a m'
  | set {m : Machine} (context : Context) (data control : List Stack.Use) (memory : Memory) :
      Used a m → context.addressing = a →
      Used a { toContext := context, data := data.foldl Stack.Use.apply m.data,
               control := control.foldl Stack.Use.apply m.control, memory }

theorem Within.dispatch (h : m.Within a)
    (hrun : dispatch (p.compile a) fuel target m = some (finish, m')) : m'.Within a :=
  dispatch_preserves (fun _ hm => hm.runBlock _) hrun h

theorem Used.within (h : Used a m) : m.Within a := by
  induction h with
  | fresh => exact within_fresh a
  | run p _ hrun ih => exact ih.dispatch hrun
  | set context data control memory _ haddressing ih =>
    refine ⟨⟨haddressing, ?_, ?_⟩, ?_, ?_⟩
    · exact (Stack.Use.capacity_foldl _ data).trans ih.data
    · exact (Stack.Use.capacity_foldl _ control).trans ih.control
    · exact Stack.Use.bounded_foldl ih.data_bounded data
    · exact Stack.Use.bounded_foldl ih.control_bounded control

/-- Every machine that enters a block is within its bounds. -/
theorem Within.entered (h : m.Within a) :
    ∀ e ∈ entered (p.compile a) fuel target m, e.2.Within a := by
  induction fuel generalizing target m with
  | zero => simp [Machine.entered]
  | succ fuel ih =>
    rw [Machine.entered]
    split
    · simp
    · rename_i b hb
      have hrun := h.runBlock b
      intro e he
      rcases List.mem_cons.1 he with rfl | he
      · exact h
      · rcases hflow : m.runBlock b with ⟨target | finish, m₁⟩
        · rw [hflow] at he hrun
          exact ih hrun e he
        · rw [hflow] at he
          cases he

theorem Within.stretch (h : m.Within a) {addr : Nat} :
    ∀ v ∈ stretch a addr p m, v.machine.Within a := by
  induction p generalizing addr m with
  | nil => simp [Machine.stretch]
  | cons i p ih =>
    intro v hv
    rw [Machine.stretch] at hv
    rcases List.mem_cons.1 hv with rfl | hv
    · exact h
    · split at hv
      · cases hv
      · exact ih (h.steps _) v hv

/-- Every instruction is performed on a machine within its bounds. -/
theorem Within.visits (h : m.Within a) : ∀ v ∈ visits a p fuel target m, v.machine.Within a := by
  intro v hv
  obtain ⟨⟨addr, n⟩, he, hv⟩ := List.mem_flatMap.1 hv
  exact Within.stretch (h.entered ⟨addr, n⟩ he) v hv

/-- The stacks of the machine have the room they were built with, and are within it. -/
structure InBounds (m : Machine) : Prop where
  data : m.data.size ≤ 0x20000
  control : m.control.size ≤ 0x4000
  data_capacity : m.data.capacity = 0x20000
  control_capacity : m.control.capacity = 0x4000

theorem Within.inBounds (h : m.Within a) : m.InBounds :=
  ⟨h.data_size, h.control_size, h.data, h.control⟩

/-- **Execution stays in range.**  Take a machine that any sequence of runs leads to, and run the
code of any program for its addressing, from any address on.  The stacks are within their bounds
before every instruction and at the end, and if every access to a block, a stack or the memory is
checked, and every index counted from the top, then no check fails.  A stack of any capacity stays
within it under any sequence of operations; and if the indices counted from the top can be computed,
then no check fails there either. -/
theorem execution_stays_in_range :
    (∀ (a : Addressing) (m : Machine), Used a m →
      m.InBounds ∧ ∀ (p : Program) (start : Int) (fuel : Nat),
        (∀ v ∈ visits a p fuel start m, v.machine.InBounds) ∧
        (∀ finish m', dispatch (p.compile a) fuel start m = some (finish, m') → m'.InBounds) ∧
        Checked.dispatch (p.compile a) fuel start m =
          .ok (dispatch (p.compile a) fuel start m)) ∧
    ∀ (capacity : Nat) (uses : List Stack.Use),
      (uses.foldl Stack.Use.apply (.empty capacity)).capacity = capacity ∧
      (uses.foldl Stack.Use.apply (.empty capacity)).size ≤ capacity ∧
      (Stack.Use.AllFit uses (.empty capacity) →
        uses.foldlM Stack.Use.check (.empty capacity) =
          .ok (uses.foldl Stack.Use.apply (.empty capacity))) := by
  constructor
  · intro a m hused
    have hm := hused.within
    refine ⟨hm.inBounds, fun p start fuel => ⟨?_, ?_, ?_⟩⟩
    · exact fun v hv => (hm.visits v hv).inBounds
    · exact fun finish m' hrun => (hm.dispatch hrun).inBounds
    · exact Checked.dispatch_eq hm fuel start
  · intro capacity uses
    have hcapacity := Stack.Use.capacity_foldl (.empty capacity) uses
    have hbounded := Stack.Use.bounded_foldl (.empty capacity) uses
    exact ⟨hcapacity, Nat.le_trans hbounded (Nat.le_of_eq hcapacity), Stack.Use.foldlM_check⟩

/-- A program fills the data stack through the last window; then another one picks and buries at the
least offset there is. -/
theorem full_stack_in_range :
    ∃ m finish, dispatch ((Program.parse "9 FFFF.000F!").compile .full) 2 0 (fresh .full) =
        some (finish, m) ∧ m.data.size = 0x20000 ∧
      (∀ v ∈ visits .full (Program.parse "0.8)0.8(") 2 0 m, v.machine.data.size ≤ 0x20000) ∧
      Checked.dispatch ((Program.parse "0.8)0.8(").compile .full) 2 0 m =
        .ok (dispatch ((Program.parse "0.8)0.8(").compile .full) 2 0 m) := by
  let m := ((fresh .full).step (.push 0x90000)).step (.storeAt 0xFFFFF)
  have hrun : dispatch ((Program.parse "9 FFFF.000F!").compile .full) 2 0 (fresh .full) =
      some (.halted .endOfProgram, m) := rfl
  have hm : Used .full m := .run _ .fresh hrun
  have hsize : m.data.size = 0x20000 := by
    show (((Stack.empty dataCapacity).push 0x90000).drop.put 0x1FFFF _).size = 0x20000
    rw [Stack.size_put, if_pos (by decide)]
    rfl
  obtain ⟨hvisits, -, hchecked⟩ :=
    (execution_stays_in_range.1 .full m hm).2 (Program.parse "0.8)0.8(") 0 2
  exact ⟨m, _, hrun, hsize, fun v hv => (hvisits v hv).data, hchecked⟩

end Machine
end GlyphMachine
