import GlyphMachine.Proofs.CheckedRuns

/-!
# The entry table

The code of a program is built in one pass.  Its blocks cut the lowered instructions into pieces,
and its entries say where each address lies in them.

* `Lowered.Stretch`, `Lowered.exists_stretch` — the instructions from an address up to the one that
  ends its block; `blockFrom` runs just these.
* `CodeBuilder.Tally` — what the pass has built from the instructions so far; `Tally.add` is one
  step of it, and `tally_foldl` the whole pass.
* `Program.entries_represent_lowered` — hence what the finished table and blocks hold.
-/

namespace GlyphMachine

open Lowered (blockFrom)

/-- The first entry does not lie behind the second. -/
def Entry.Le (e f : Entry) : Prop := e.block < f.block ∨ e.block = f.block ∧ e.offset ≤ f.offset

theorem Entry.Le.trans {e f g : Entry} (h : e.Le f) (h' : f.Le g) : e.Le g := by
  unfold Entry.Le at *
  omega

/-! ## Stretches -/

namespace Lowered

/-- The operations of an instruction: at most one. -/
def ops (l : Lowered) : List Op := l.op.toList

theorem length_ops_le (l : Lowered) : l.ops.length ≤ 1 := by
  unfold ops
  cases l.op <;> simp

/-- From `k` on the instructions run straight up to `last`, which is the first of them with a
transfer, or else the last of all. -/
structure Stretch (ls : List Lowered) (k last : Nat) (l : Lowered) : Prop where
  le : k ≤ last
  getElem? : ls[last]? = some l
  straight : ∀ j l', k ≤ j → j < last → ls[j]? = some l' → l'.exit = none
  ends : l.exit.isSome = true ∨ last + 1 = ls.length

/-- An instruction with a transfer, or the last of all, is a stretch of its own. -/
theorem Stretch.head {l : Lowered} {ls : List Lowered} (h : l.exit.isSome = true ∨ ls = []) :
    Stretch (l :: ls) 0 0 l where
  le := Nat.le_refl 0
  getElem? := rfl
  straight := fun j _ _ hj => absurd hj (Nat.not_lt_zero j)
  ends := h.imp_right fun hnil => by rw [hnil, List.length_singleton]

/-- An instruction without a transfer makes the stretch behind it longer. -/
theorem Stretch.cons {l l' : Lowered} {ls : List Lowered} {last : Nat} (hx : l.exit = none)
    (h : Stretch ls 0 last l') : Stretch (l :: ls) 0 (last + 1) l' where
  le := Nat.zero_le _
  getElem? := h.getElem?
  straight := by
    intro j l'' _ hj hl
    cases j with
    | zero =>
      cases hl
      exact hx
    | succ j => exact h.straight j l'' (Nat.zero_le j) (Nat.lt_of_succ_lt_succ hj) hl
  ends := h.ends.imp_right fun hlast => by rw [hlast, List.length_cons]

/-- Every instruction starts a stretch, and `blockFrom` runs just this stretch. -/
theorem exists_stretch (size : Nat) {ls : List Lowered} (h : ls ≠ []) :
    ∃ last l, Stretch ls 0 last l ∧
      blockFrom size ls = ⟨(ls.take (last + 1)).flatMap ops, l.exit.getD (.goto size)⟩ := by
  induction ls with
  | nil => exact absurd rfl h
  | cons l ls ih =>
    cases hx : l.exit with
    | some exit =>
      refine ⟨0, l, .head (.inl (by simp [hx])), ?_⟩
      simp [blockFrom, hx, ops]
    | none =>
      by_cases hnil : ls = []
      · subst hnil
        refine ⟨0, l, .head (.inr rfl), ?_⟩
        simp [blockFrom, hx, ops]
      · obtain ⟨last, l', hstretch, hblock⟩ := ih hnil
        refine ⟨last + 1, l', hstretch.cons hx, ?_⟩
        simp [blockFrom, hx, hblock, ops]

/-- A stretch of what is left behind `k` is one that starts at `k`. -/
theorem Stretch.of_drop {ls : List Lowered} {k last : Nat} {l : Lowered}
    (h : Stretch (ls.drop k) 0 last l) : Stretch ls k (k + last) l := by
  have hlast := h.getElem?
  rw [List.getElem?_drop] at hlast
  have hlt := (List.getElem?_eq_some_iff.1 hlast).1
  refine ⟨Nat.le_add_right _ _, hlast, ?_, ?_⟩
  · intro j l' hk hj hl
    refine h.straight (j - k) l' (Nat.zero_le _) (by omega) ?_
    rwa [List.getElem?_drop, Nat.add_sub_of_le hk]
  · refine h.ends.imp_right fun hend => ?_
    rw [List.length_drop] at hend
    omega

end Lowered

/-! ## The pass -/

namespace CodeBuilder

variable {b : CodeBuilder} {done : List Lowered}

/-- What has been built from the instructions `done`: all their operations, a block for each
transfer, and entries in order, none behind the place where the next one will be. -/
structure Tally (done : List Lowered) (b : CodeBuilder) : Prop where
  ops : b.blocks.toList.flatMap Block.ops ++ b.body.toList = done.flatMap Lowered.ops
  blocks : b.blocks.size = done.countP (·.exit.isSome)
  isOpen : b.isOpen = done.getLast?.any (·.exit.isNone)
  body : b.isOpen = false → b.body = #[]
  sorted : b.entries.toList.Pairwise Entry.Le
  le_next : ∀ entry ∈ b.entries, entry.Le ⟨b.blocks.size, b.body.size⟩

theorem tally_empty : Tally [] {} where
  ops := rfl
  blocks := rfl
  isOpen := rfl
  body := fun _ => rfl
  sorted := .nil
  le_next := by simp

theorem isOpen_add (b : CodeBuilder) (l : Lowered) : (b.add l).isOpen = l.exit.isNone := by
  cases hx : l.exit with
  | none => simp [isOpen, (add_of_exit_none (b := b) hx).1]
  | some exit => simp [isOpen, (add_of_exit_some (b := b) hx).1]

/-- **One instruction more.** -/
theorem Tally.add (h : Tally done b) (l : Lowered) : Tally (done ++ [l]) (b.add l) where
  ops := by
    rw [List.flatMap_append, ← h.ops]
    cases hx : l.exit with
    | none =>
      obtain ⟨hblocks, hbody⟩ := add_of_exit_none (b := b) hx
      simp [hblocks, hbody, Lowered.ops]
    | some exit =>
      obtain ⟨hblocks, hbody⟩ := add_of_exit_some (b := b) hx
      simp [hblocks, hbody, Lowered.ops]
  blocks := by
    rw [List.countP_append, ← h.blocks]
    cases hx : l.exit with
    | none => simp [(add_of_exit_none (b := b) hx).1, hx]
    | some exit => simp [(add_of_exit_some (b := b) hx).1, hx]
  isOpen := by simp [isOpen_add]
  body := by
    intro hopen
    rw [isOpen_add, Option.isNone_eq_false_iff, Option.isSome_iff_exists] at hopen
    obtain ⟨exit, hx⟩ := hopen
    exact (add_of_exit_some hx).2
  sorted := by
    rw [entries_add, Array.toList_push, List.pairwise_append]
    refine ⟨h.sorted, List.pairwise_singleton _ _, fun entry he next hnext => ?_⟩
    rw [List.mem_singleton.1 hnext]
    exact h.le_next entry (Array.mem_toList_iff.1 he)
  le_next := by
    have hnext : Entry.Le ⟨b.blocks.size, b.body.size⟩
        ⟨(b.add l).blocks.size, (b.add l).body.size⟩ := by
      cases hx : l.exit with
      | none =>
        obtain ⟨hblocks, hbody⟩ := add_of_exit_none (b := b) hx
        refine .inr ⟨congrArg Array.size hblocks.symm, ?_⟩
        show b.body.size ≤ (b.add l).body.size
        rw [← Array.length_toList, ← Array.length_toList, hbody, List.length_append]
        exact Nat.le_add_right _ _
      | some exit =>
        refine .inl ?_
        rw [(add_of_exit_some hx).1, Array.size_push]
        exact Nat.lt_succ_self _
    intro entry he
    rw [entries_add, Array.mem_push] at he
    rcases he with he | rfl
    · exact (h.le_next entry he).trans hnext
    · exact hnext

/-- **The whole pass.** -/
theorem tally_foldl (ls : List Lowered) : Tally ls (ls.foldl CodeBuilder.add {}) := by
  -- the induction is on what is still to come, behind anything that is done
  have hrest : ∀ (rest done : List Lowered) (b : CodeBuilder), Tally done b →
      Tally (done ++ rest) (rest.foldl CodeBuilder.add b) := by
    intro rest
    induction rest with
    | nil =>
      intro done b h
      rwa [List.append_nil]
    | cons l rest ih =>
      intro done b h
      rw [List.append_cons]
      exact ih _ _ (h.add l)
  exact hrest ls [] {} tally_empty

theorem flatMap_ops_finish (h : Tally done b) :
    b.finish.blocks.toList.flatMap Block.ops = done.flatMap Lowered.ops := by
  rw [← h.ops]
  cases hopen : b.isOpen with
  | true => simp [finish, hopen, close]
  | false => simp [finish, hopen, h.body hopen]

theorem size_blocks_finish (h : Tally done b) :
    b.finish.blocks.size = done.countP (·.exit.isSome) +
      if done.getLast?.any (·.exit.isNone) then 1 else 0 := by
  rw [← h.blocks, ← h.isOpen]
  cases hopen : b.isOpen with
  | true => simp [finish, hopen, close]
  | false => simp [finish, hopen]

end CodeBuilder

theorem Code.opCount_eq (c : Code) :
    c.opCount = (c.blocks.toList.flatMap Block.ops).length := by
  have hfoldl : ∀ (bs : List Block) (n : Nat),
      bs.foldl (fun n b => n + b.ops.length) n = n + (bs.flatMap Block.ops).length := by
    intro bs
    induction bs with
    | nil => simp
    | cons b bs ih =>
      intro n
      rw [List.foldl_cons, ih, List.flatMap_cons, List.length_append, Nat.add_assoc]
  rw [opCount, ← Array.foldl_toList, hfoldl, Nat.zero_add]

/-! ## Sizes -/

namespace Lowered

theorem length_flatMap_ops_le (ls : List Lowered) : (ls.flatMap ops).length ≤ ls.length := by
  induction ls with
  | nil => exact Nat.le_refl 0
  | cons l ls ih =>
    have := length_ops_le l
    rw [List.flatMap_cons, List.length_append, List.length_cons]
    omega

/-- The last instruction is counted at most once: for its transfer, or for having none. -/
theorem countP_exit_le (ls : List Lowered) :
    (ls.countP (·.exit.isSome) + if ls.getLast?.any (·.exit.isNone) then 1 else 0) ≤ ls.length := by
  rcases List.eq_nil_or_concat ls with rfl | ⟨init, l, rfl⟩
  · exact Nat.le_refl 0
  · have hinit := List.countP_le_length (p := fun l : Lowered => l.exit.isSome) (l := init)
    rw [List.concat_eq_append, List.countP_append, List.getLast?_concat, List.length_append]
    cases hx : l.exit with
    | none => simpa [hx] using hinit
    | some exit => simpa [hx] using hinit

end Lowered

namespace Program

/-- **The entry table represents the lowered instructions.**  Every address has an entry, and the
entry is a place in a block.  The rest of the block from there on are the operations of the
instructions from that address up to the first with a transfer, or up to the last; its exit is that
transfer, or goes to the end of the program.  The entries never go back, the blocks together hold
all operations in order, and there is a block for each transfer and one more if the last instruction
has none.  Hence there are no more operations and no more blocks than instructions. -/
theorem entries_represent_lowered (a : Addressing) (p : Program) :
    (p.compile a).entries.size = p.length ∧
    (∀ (k : Nat) (entry : Entry), (p.compile a).entries[k]? = some entry →
      ∃ block last l, (p.compile a).blocks[entry.block]? = some block ∧
        entry.offset ≤ block.ops.length ∧ Lowered.Stretch (p.lowered a) k last l ∧
        block.ops.drop entry.offset =
          ((p.lowered a).extract k (last + 1)).flatMap Lowered.ops ∧
        block.exit = l.exit.getD (.goto p.length)) ∧
    (p.compile a).entries.toList.Pairwise Entry.Le ∧
    (p.compile a).blocks.toList.flatMap Block.ops = (p.lowered a).flatMap Lowered.ops ∧
    (p.compile a).blockCount = (p.lowered a).countP (·.exit.isSome) +
      (if (p.lowered a).getLast?.any (·.exit.isNone) then 1 else 0) ∧
    (p.compile a).opCount ≤ p.length ∧ (p.compile a).blockCount ≤ p.length := by
  have htally := CodeBuilder.tally_foldl (p.lowered a)
  have hops : (p.compile a).blocks.toList.flatMap Block.ops =
      (p.lowered a).flatMap Lowered.ops := CodeBuilder.flatMap_ops_finish htally
  have hblocks : (p.compile a).blockCount = (p.lowered a).countP (·.exit.isSome) +
      (if (p.lowered a).getLast?.any (·.exit.isNone) then 1 else 0) :=
    CodeBuilder.size_blocks_finish htally
  have hlength : (p.lowered a).length = p.length := length_lowered
  refine ⟨size_compile, ?_, ?_, hops, hblocks, ?_, ?_⟩
  · intro k entry hentry
    have hk : k < p.length := by
      have := (Array.getElem?_eq_some_iff.1 hentry).1
      rwa [← size_compile (a := a)]
    obtain ⟨block, hblock, hoffset⟩ := entry_placed hentry
    have hnil : (p.lowered a).drop k ≠ [] := by
      rw [Ne, List.drop_eq_nil_iff, hlength]
      exact Nat.not_le.2 hk
    obtain ⟨last, l, hstretch, hfrom⟩ := Lowered.exists_stretch p.length hnil
    -- what the entry runs is said twice: by the table, and by the instructions
    have hrest : (p.compile a).rest? k =
        some { block with ops := block.ops.drop entry.offset } := by
      simp [Code.rest?, hentry, hblock]
    rw [rest?_compile hk, hfrom, Option.some.injEq, Block.mk.injEq] at hrest
    refine ⟨block, k + last, l, hblock, hoffset, hstretch.of_drop, ?_, hrest.2.symm⟩
    rw [← hrest.1, List.extract_eq_take_drop]
    congr 2
    omega
  · rw [compile, CodeBuilder.entries_finish]
    exact htally.sorted
  · rw [Code.opCount_eq, hops, ← hlength]
    exact Lowered.length_flatMap_ops_le _
  · rw [hblocks, ← hlength]
    exact Lowered.countP_exit_le _

/-- Transfers and an instruction that does nothing, in a conditional. -/
example : ((parse "?1:2;").compile .full).entries = #[⟨0, 0⟩, ⟨1, 0⟩, ⟨1, 1⟩, ⟨2, 0⟩, ⟨2, 1⟩] := by
  rfl

end Program
end GlyphMachine
