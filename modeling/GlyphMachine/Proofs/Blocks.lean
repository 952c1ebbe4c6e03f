import GlyphMachine.Code.Compile
import GlyphMachine.Proofs.Interpreter

/-!
# Blocks mean what their instructions mean

The code of a program is built by one fold, which closes a block after every transfer.  What an
entry of the finished code runs is said without the fold by `Lowered.blockFrom`: the operations
from an address up to the first transfer, and that transfer.

* `block_induction` — the blocks of a program, from its end backwards.
* `rest?_compile` — the entry of every address runs `blockFrom` of the instructions from it on.
* `interpret_runBlock` — running that block is running its instructions one at a time.
* `compile_preserves_meaning` — hence running the code and running the program agree: on how and in
  which state they end, and on whether they end at all.
-/

namespace GlyphMachine

/-- What runs from the first of `ls` on: the operations up to the first transfer, and that
transfer.  Without one control goes on to `size`. -/
def Lowered.blockFrom (size : Nat) : List Lowered → Block
  | [] => ⟨[], .goto size⟩
  | l :: ls =>
    match l.exit with
    | some exit => ⟨l.op.toList, exit⟩
    | none => ⟨l.op.toList ++ (blockFrom size ls).ops, (blockFrom size ls).exit⟩

open Lowered (blockFrom)

namespace CodeBuilder

variable {b : CodeBuilder} {l : Lowered} {entry : Entry}

/-! ## Adding one instruction -/

@[simp]
theorem entries_add :
    (b.add l).entries = b.entries.push ⟨b.blocks.size, b.body.size⟩ := by
  obtain ⟨op, exit⟩ := l
  cases op <;> cases exit <;> rfl

/-- Without a transfer the open block grows. -/
theorem add_of_exit_none (h : l.exit = none) :
    (b.add l).blocks = b.blocks ∧ (b.add l).body.toList = b.body.toList ++ l.op.toList := by
  obtain ⟨op, exit⟩ := l
  subst h
  cases op <;> simp [add, addOp]

/-- With a transfer the open block is closed. -/
theorem add_of_exit_some {exit : Exit} (h : l.exit = some exit) :
    (b.add l).blocks = b.blocks.push ⟨b.body.toList ++ l.op.toList, exit⟩ ∧
      (b.add l).body = #[] := by
  obtain ⟨op, _⟩ := l
  subst h
  cases op <;> simp [add, addOp, close]

/-- Every entry lies in a closed block, or in the open one while it is open. -/
def Consistent (b : CodeBuilder) : Prop :=
  ∀ entry ∈ b.entries, entry.block < b.blocks.size ∨
    (entry.block = b.blocks.size ∧ b.isOpen = true)

theorem consistent_empty : Consistent {} := by
  intro entry h
  simp at h

theorem Consistent.add (h : b.Consistent) (l : Lowered) : (b.add l).Consistent := by
  intro entry he
  rw [entries_add, Array.mem_push] at he
  cases hx : l.exit with
  | none =>
    obtain ⟨hblocks, -⟩ := add_of_exit_none (b := b) hx
    have hopen : (b.add l).isOpen = true := by simp [isOpen, hblocks]
    rw [hblocks]
    rcases he with he | rfl
    · rcases h entry he with hlt | ⟨heq, -⟩
      · exact .inl hlt
      · exact .inr ⟨heq, hopen⟩
    · exact .inr ⟨rfl, hopen⟩
  | some exit =>
    obtain ⟨hblocks, -⟩ := add_of_exit_some (b := b) hx
    rw [hblocks, Array.size_push]
    rcases he with he | rfl
    · rcases h entry he with hlt | ⟨heq, -⟩ <;> exact .inl (by omega)
    · exact .inl (by simp)

/-! ## Entries of the finished code -/

/-- What an entry made so far will run, when `tail` runs from the next instruction on. -/
def restWith (b : CodeBuilder) (entry : Entry) (tail : Block) : Option Block :=
  if entry.block < b.blocks.size then
    b.blocks[entry.block]?.map fun block => { block with ops := block.ops.drop entry.offset }
  else some ⟨(b.body.toList ++ tail.ops).drop entry.offset, tail.exit⟩

/-- The instruction added first is the first that `blockFrom` runs. -/
theorem restWith_add (h : entry.block ≤ b.blocks.size) (size : Nat) (ls : List Lowered) :
    (b.add l).restWith entry (blockFrom size ls) = b.restWith entry (blockFrom size (l :: ls)) := by
  cases hx : l.exit with
  | none =>
    obtain ⟨hblocks, hbody⟩ := add_of_exit_none (b := b) hx
    simp [restWith, hblocks, hbody, blockFrom, hx]
  | some exit =>
    obtain ⟨hblocks, hbody⟩ := add_of_exit_some (b := b) hx
    have hlt : entry.block < b.blocks.size + 1 := by omega
    simp only [restWith, hblocks, blockFrom, hx, Array.size_push, if_pos hlt, Array.getElem?_push]
    split
    · -- the block that this instruction closed
      rename_i heq
      rw [if_neg (by omega)]
      rfl
    · rw [if_pos (by omega)]

/-- Finishing closes the open block with a transfer to the end of the program. -/
theorem rest?_finish (hb : b.Consistent) {k : Nat} (hk : b.entries[k]? = some entry) :
    b.finish.rest? k = b.restWith entry ⟨[], .goto b.entries.size⟩ := by
  have hmem : entry ∈ b.entries := Array.mem_of_getElem? hk
  cases hopen : b.isOpen with
  | false =>
    have hlt : entry.block < b.blocks.size := by
      rcases hb entry hmem with hlt | ⟨-, h⟩
      · exact hlt
      · rw [hopen] at h
        cases h
    simp [finish, hopen, Code.rest?, hk, restWith, hlt]
  | true =>
    simp only [finish, hopen, if_true, close, Code.rest?, hk, restWith, Option.bind_eq_bind,
      Option.bind_some, Array.getElem?_push, List.append_nil]
    split
    · rename_i heq
      rw [if_neg (by omega)]
      rfl
    · rename_i hne
      have hlt : entry.block < b.blocks.size := by
        rcases hb entry hmem with hlt | ⟨heq, -⟩
        · exact hlt
        · exact absurd heq hne
      rw [if_pos hlt, Array.getElem?_eq_getElem hlt]
      rfl

/-- Instructions added later complete the block of an entry and change nothing before it. -/
theorem rest?_finish_foldl (hb : b.Consistent) {k : Nat} (hk : b.entries[k]? = some entry)
    (ls : List Lowered) :
    (ls.foldl add b).finish.rest? k =
      b.restWith entry (blockFrom (b.entries.size + ls.length) ls) := by
  induction ls generalizing b with
  | nil => exact rest?_finish hb hk
  | cons l ls ih =>
    have hle : entry.block ≤ b.blocks.size := by
      rcases hb entry (Array.mem_of_getElem? hk) with hlt | ⟨heq, -⟩ <;> omega
    have hk' : (b.add l).entries[k]? = some entry := by
      obtain ⟨hlt, -⟩ := Array.getElem?_eq_some_iff.1 hk
      rw [entries_add, Array.getElem?_push, if_neg (by omega), hk]
    have hsize : (b.add l).entries.size + ls.length = b.entries.size + (l :: ls).length := by
      rw [entries_add, Array.size_push, List.length_cons]
      omega
    rw [List.foldl_cons, ih (hb.add l) hk', hsize, restWith_add hle]

theorem Consistent.foldl (hb : b.Consistent) (ls : List Lowered) :
    (ls.foldl CodeBuilder.add b).Consistent := by
  induction ls generalizing b with
  | nil => exact hb
  | cons l ls ih => exact ih (hb.add l)

theorem entries_finish (b : CodeBuilder) : b.finish.entries = b.entries := by
  unfold finish
  split <;> rfl

theorem size_entries_foldl (ls : List Lowered) :
    (ls.foldl add b).entries.size = b.entries.size + ls.length := by
  induction ls generalizing b with
  | nil => rfl
  | cons l ls ih =>
    rw [List.foldl_cons, ih, entries_add, Array.size_push, List.length_cons]
    omega

end CodeBuilder

namespace Program

variable {a : Addressing} {p : Program}

@[simp]
theorem length_lowered : (p.lowered a).length = p.length := by simp [lowered]

theorem drop_lowered {k : Nat} (hk : k < p.length) :
    (p.lowered a).drop k = p[k].lower a k :: (p.lowered a).drop (k + 1) := by
  have hk' : k < (p.lowered a).length := by rwa [length_lowered]
  rw [List.drop_eq_getElem_cons hk']
  congr 1
  simp [lowered]

/-- Induction on the blocks of a program, from its end backwards: a block is the transfer of its
first instruction, or that instruction and the block after it. -/
theorem block_induction {motive : Nat → Block → Prop}
    (atEnd : motive p.length ⟨[], .goto p.length⟩)
    (transfer : ∀ k (hk : k < p.length) exit, (p[k].lower a k).exit = some exit →
      motive k ⟨(p[k].lower a k).op.toList, exit⟩)
    (straight : ∀ k (hk : k < p.length) block, (p[k].lower a k).exit = none →
      motive (k + 1) block →
      motive k ⟨(p[k].lower a k).op.toList ++ block.ops, block.exit⟩)
    {k : Nat} (hk : k ≤ p.length) : motive k (blockFrom p.length ((p.lowered a).drop k)) := by
  induction hd : p.length - k generalizing k with
  | zero =>
    obtain rfl : k = p.length := by omega
    rwa [List.drop_eq_nil_of_le (Nat.le_of_eq length_lowered)]
  | succ d ih =>
    have hlt : k < p.length := by omega
    rw [drop_lowered hlt]
    cases hx : (p[k].lower a k).exit with
    | some exit =>
      simp only [blockFrom, hx]
      exact transfer k hlt exit hx
    | none =>
      simp only [blockFrom, hx]
      exact straight k hlt _ hx (ih (by omega) (by omega))

theorem size_compile : (p.compile a).size = p.length := by
  rw [Code.size, compile, CodeBuilder.entries_finish, CodeBuilder.size_entries_foldl,
    length_lowered]
  exact Nat.zero_add _

/-- **What every entry runs**: the instructions from its address on, up to the first transfer. -/
theorem rest?_compile {k : Nat} (hk : k < p.length) :
    (p.compile a).rest? k = some (blockFrom p.length ((p.lowered a).drop k)) := by
  have hk' : k < (p.lowered a).length := by rwa [length_lowered]
  obtain ⟨l, ls, hdrop⟩ : ∃ l ls, (p.lowered a).drop k = l :: ls :=
    ⟨_, _, List.drop_eq_getElem_cons hk'⟩
  -- the builder when the instruction at `k` is about to be added
  let b := ((p.lowered a).take k).foldl CodeBuilder.add {}
  have hsize : b.entries.size = k := by
    rw [CodeBuilder.size_entries_foldl, List.length_take, Nat.min_eq_left (Nat.le_of_lt hk')]
    exact Nat.zero_add k
  have hsplit : p.compile a = (ls.foldl CodeBuilder.add (b.add l)).finish := by
    rw [compile, ← List.take_append_drop k (p.lowered a), List.foldl_append, hdrop,
      List.foldl_cons]
  have hentry : (b.add l).entries[k]? = some ⟨b.blocks.size, b.body.size⟩ := by
    rw [CodeBuilder.entries_add, Array.getElem?_push, if_pos hsize.symm]
  have hlength : (b.add l).entries.size + ls.length = p.length := by
    have := congrArg List.length hdrop
    rw [List.length_drop, length_lowered, List.length_cons] at this
    rw [CodeBuilder.entries_add, Array.size_push, hsize]
    omega
  have hb : b.Consistent := CodeBuilder.consistent_empty.foldl _
  have hbody : (b.body.toList ++ (blockFrom p.length (l :: ls)).ops).drop b.body.size =
      (blockFrom p.length (l :: ls)).ops := by
    rw [← Array.length_toList, List.drop_left]
  rw [hsplit, CodeBuilder.rest?_finish_foldl (hb.add l) hentry, hlength,
    CodeBuilder.restWith_add (Nat.le_refl _), hdrop, CodeBuilder.restWith,
    if_neg (Nat.lt_irrefl _), hbody]

theorem rest?_compile_of_le {k : Nat} (hk : p.length ≤ k) : (p.compile a).rest? k = none := by
  have hk' : (p.compile a).entries.size ≤ k := by
    have hsize := size_compile (a := a) (p := p)
    unfold Code.size at hsize
    omega
  simp [Code.rest?, Array.getElem?_eq_none hk']

end Program

namespace Machine

variable {a : Addressing} {p : Program}

/-! ## Simulation -/

theorem runBlock_append (m : Machine) (ops : List Op) (b : Block) :
    m.runBlock ⟨ops ++ b.ops, b.exit⟩ = (m.steps ops).runBlock b := by
  simp [runBlock, steps]

/-- Running the block of an address is running its instructions one at a time. -/
theorem interpret_runBlock {k : Nat} (hk : k ≤ p.length) (m : Machine) :
    ∃ j, (k < p.length → 0 < j) ∧ ∀ fuel, interpret a p (j + fuel) k m =
      proceed a p fuel (m.runBlock (blockFrom p.length ((p.lowered a).drop k))) := by
  refine Program.block_induction (a := a) (motive := fun k block => ∀ m : Machine,
    ∃ j, (k < p.length → 0 < j) ∧ ∀ fuel, interpret a p (j + fuel) k m =
      proceed a p fuel (m.runBlock block)) ?_ ?_ ?_ hk m
  · intro m
    refine ⟨0, by omega, fun fuel => ?_⟩
    rw [Nat.zero_add]
    rfl
  · intro k hlt exit hx m
    refine ⟨1, fun _ => Nat.one_pos, fun fuel => ?_⟩
    rw [Nat.add_comm, interpret_succ, advance_of_getElem? (List.getElem?_eq_getElem hlt)]
    simp [execute, hx, runBlock]
  · intro k hlt block hx ih m
    obtain ⟨j, -, hj⟩ := ih (m.steps (p[k].lower a k).op.toList)
    refine ⟨1 + j, fun _ => by omega, fun fuel => ?_⟩
    have hrest : interpret a p (1 + j + fuel) k m =
        interpret a p (j + fuel) (k + 1 : Nat) (m.steps (p[k].lower a k).op.toList) := by
      rw [show 1 + j + fuel = j + fuel + 1 by omega, interpret_succ,
        advance_of_getElem? (List.getElem?_eq_getElem hlt)]
      simp [execute, hx, proceed]
    rw [hrest, hj, runBlock_append]

/-- An address lies in the program or a run that reaches it ends. -/
theorem inside_or_outside (p : Program) (ip : Int) :
    (∃ k : Nat, ip = k ∧ k < p.length) ∨ ip < 0 ∨ (p.length : Int) ≤ ip := by
  by_cases h : ip < 0 ∨ (p.length : Int) ≤ ip
  · exact .inr h
  · exact .inl ⟨ip.toNat, by omega, by omega⟩

theorem dispatch_of_inside {k : Nat} (hk : k < p.length) (fuel : Nat) (m : Machine) :
    dispatch (p.compile a) (fuel + 1) k m =
      match m.runBlock (blockFrom p.length ((p.lowered a).drop k)) with
      | (.goto target, m) => dispatch (p.compile a) fuel target m
      | (.stop finish, m) => some (finish, m) := by
  have hrest : (k : Int).toNat?.bind (p.compile a).rest? =
      some (blockFrom p.length ((p.lowered a).drop k)) := Program.rest?_compile hk
  rcases hrun : m.runBlock (blockFrom p.length ((p.lowered a).drop k)) with ⟨target | finish, m'⟩
  · simp only [dispatch, hrest, hrun]
  · simp only [dispatch, hrest, hrun]

theorem rest?_of_outside {ip : Int} (h : ip < 0 ∨ (p.length : Int) ≤ ip) :
    ip.toNat?.bind (p.compile a).rest? = none := by
  cases ip with
  | ofNat k =>
    refine Program.rest?_compile_of_le ?_
    rcases h with h | h
    · exact absurd h (by simp)
    · exact Int.ofNat_le.1 h
  | negSucc k => rfl

theorem dispatch_of_outside {ip : Int} (h : ip < 0 ∨ (p.length : Int) ≤ ip) (fuel : Nat)
    (m : Machine) : dispatch (p.compile a) (fuel + 1) ip m = some (leaveAt p.length ip, m) := by
  rw [dispatch, rest?_of_outside h, Program.size_compile]

theorem interpret_of_outside {ip : Int} (h : ip < 0 ∨ (p.length : Int) ≤ ip) (fuel : Nat)
    (m : Machine) : interpret a p (fuel + 1) ip m = some (leaveAt p.length ip, m) := by
  rw [interpret_succ, advance_of_outside h]
  rfl

/-- Blocks take no ends that instructions do not take. -/
theorem interpret_of_dispatch {fuel : Nat} {ip : Int} {m : Machine} {r : PassEnd × Machine}
    (h : dispatch (p.compile a) fuel ip m = some r) : ∃ fuel, interpret a p fuel ip m = some r := by
  induction fuel generalizing ip m with
  | zero => cases h
  | succ fuel ih =>
    rcases inside_or_outside p ip with ⟨k, rfl, hk⟩ | hout
    · obtain ⟨j, -, hj⟩ := interpret_runBlock (a := a) (Nat.le_of_lt hk) m
      rw [dispatch_of_inside hk] at h
      split at h
      · rename_i target m' hrun
        obtain ⟨fuel', hfuel'⟩ := ih h
        exact ⟨j + fuel', by rw [hj, hrun]; exact hfuel'⟩
      · rename_i finish m' hrun
        exact ⟨j + 0, by rw [hj, hrun]; exact h⟩
    · rw [dispatch_of_outside hout] at h
      exact ⟨1, by rw [interpret_of_outside hout, h]⟩

/-- Instructions take no ends that blocks do not take. -/
theorem dispatch_of_interpret {fuel : Nat} {ip : Int} {m : Machine} {r : PassEnd × Machine}
    (h : interpret a p fuel ip m = some r) : ∃ fuel, dispatch (p.compile a) fuel ip m = some r := by
  -- a block runs at least one instruction, so the fuel left after it is less
  induction fuel using Nat.strongRecOn generalizing ip m with
  | ind fuel ih =>
    rcases inside_or_outside p ip with ⟨k, rfl, hk⟩ | hout
    · obtain ⟨j, hpos, hj⟩ := interpret_runBlock (a := a) (Nat.le_of_lt hk) m
      have hj0 : 0 < j := hpos hk
      rcases hrun : m.runBlock (blockFrom p.length ((p.lowered a).drop k)) with
        ⟨target | finish, m'⟩
      · have hle : j ≤ fuel := by
          refine Nat.le_of_not_lt fun hlt => ?_
          -- the block alone does not end the run, so its instructions alone do not either
          have hnone : interpret a p (j + 0) k m = none := by rw [hj, hrun]; rfl
          rw [interpret_mono (by omega : fuel ≤ j + 0) h] at hnone
          cases hnone
        obtain ⟨left, rfl⟩ : ∃ left, fuel = j + left := ⟨fuel - j, by omega⟩
        rw [hj, hrun] at h
        obtain ⟨fuel', hfuel'⟩ := ih left (by omega) h
        exact ⟨fuel' + 1, by rw [dispatch_of_inside hk, hrun]; exact hfuel'⟩
      · have hr : interpret a p (j + 0) k m = some (finish, m') := by rw [hj, hrun]; rfl
        obtain rfl := interpret_unique h hr
        exact ⟨1, by rw [dispatch_of_inside hk, hrun]⟩
    · cases fuel with
      | zero => cases h
      | succ fuel =>
        rw [interpret_of_outside hout] at h
        exact ⟨1, by rw [dispatch_of_outside hout, h]⟩

/-- The code of a program ends as the program run one instruction at a time ends. -/
theorem dispatch_iff_interpret {ip : Int} {m : Machine} {r : PassEnd × Machine} :
    (∃ fuel, dispatch (p.compile a) fuel ip m = some r) ↔
      ∃ fuel, interpret a p fuel ip m = some r :=
  ⟨fun ⟨_, h⟩ => interpret_of_dispatch h, fun ⟨_, h⟩ => dispatch_of_interpret h⟩

/-- **Compiling keeps the meaning of a program.**  From every address and in every state the code
reaches an end exactly when the program run one instruction at a time reaches it, in the same
state; and the one goes on for ever exactly when the other does. -/
theorem compile_preserves_meaning (a : Addressing) (p : Program) (start : Int) (m : Machine) :
    (∀ finish m', (∃ fuel, dispatch (p.compile a) fuel start m = some (finish, m')) ↔
        ∃ fuel, interpret a p fuel start m = some (finish, m')) ∧
      ((∀ fuel, dispatch (p.compile a) fuel start m = none) ↔
        ∀ fuel, interpret a p fuel start m = none) := by
  refine ⟨fun finish m' => dispatch_iff_interpret, ?_, ?_⟩
  · intro h fuel
    rw [Option.eq_none_iff_forall_ne_some]
    intro r hr
    obtain ⟨fuel', hfuel'⟩ := dispatch_of_interpret hr
    rw [h fuel'] at hfuel'
    cases hfuel'
  · intro h fuel
    rw [Option.eq_none_iff_forall_ne_some]
    intro r hr
    obtain ⟨fuel', hfuel'⟩ := interpret_of_dispatch hr
    rw [h fuel'] at hfuel'
    cases hfuel'

end Machine
end GlyphMachine
