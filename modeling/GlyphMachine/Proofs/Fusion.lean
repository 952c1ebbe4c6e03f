import GlyphMachine.Token
import GlyphMachine.Proofs.Interpreter
import GlyphMachine.Stack.Lemmas

/-!
# Fused literals

A literal that is part of an instruction never reaches the data stack.  This module compares such
an instruction with its two halves: pushing the literal, then performing the bare operation, on a
machine whose data stack has room for the literal.

* `step_push_step` — an operation after a pushed literal is the operation with that literal.
* `perform_fused` — the two agree on the state and on where control goes, for every operation that
  takes a literal, with or without a target.
* `step_loadDirect`, `step_storeDirect` — a fixed address that surely names memory may skip the
  decoding of the address.
* `perform_define_unresolved` — a definition without an end is the one exception: it does nothing,
  so the fused literal is forgotten, and the pushed one stays.
-/

namespace GlyphMachine

/-- What an address that surely names memory is decoded to. -/
theorem Addressing.region_of_isDirect {a : Addressing} {addr : Nat} (h : a.isDirect addr = true)
    (hlt : addr < memorySize) : a.region addr = .memory addr := by
  cases a with
  | simple => simp [region, Nat.mod_eq_of_lt hlt]
  | full =>
    have hwindow : addr < windowStart := by simpa [isDirect] using h
    simp [region, Nat.mod_eq_of_lt hlt, hwindow]

theorem Word.address_lt (w : Word) : w.address < memorySize := Nat.mod_lt _ (by decide)

/-- The operation that has the word `w` given instead of taking it from the data stack. -/
def Op.withLiteral? (w : Word) : Op → Option Op
  | .binary f => some (.binaryWith f w)
  | .unary f => some (.push (f.apply w))
  | .dup => some (.pushTwice w)
  | .pick => some (.pickAt w.offset)
  | .bury => some (.buryAt w.offset)
  | .load => some (.loadAt w.address)
  | .store => some (.storeAt w.address)
  | .toControl => some (.toControlWith w)
  | .markCounted marker => some (.markCountedWith w marker)
  | .define entry => some (.defineAt w.address entry)
  | _ => none

namespace Machine

variable {m : Machine}

/-- What the instruction at `addr` does, lowered for the addressing of the machine. -/
def perform (m : Machine) (addr : Nat) (i : Instruction) : Flow × Machine :=
  m.execute (addr + 1) (i.lower m.addressing addr)

theorem execute_straight (m : Machine) (next : Nat) (op : Op) :
    m.execute next (.straight op) = (.goto next, m.step op) := rfl

/-! ## Fixed addresses -/

theorem step_loadDirect {n : Nat} (h : m.addressing.isDirect n = true) (hlt : n < memorySize) :
    m.step (.loadDirect n) = m.step (.loadAt n) := by
  simp only [step, get, Addressing.region_of_isDirect h hlt]

theorem step_storeDirect {n : Nat} (h : m.addressing.isDirect n = true) (hlt : n < memorySize) :
    m.step (.storeDirect n) = m.step (.storeAt n) := by
  simp only [step, put, Addressing.region_of_isDirect h hlt]

/-- A fused load goes through the address space, whichever operation it became. -/
theorem execute_lowerLoad (m : Machine) (next : Nat) (w : Word) :
    m.execute next (Instruction.lowerLoad m.addressing (some w)) =
      m.execute next (.straight (.loadAt w.address)) := by
  simp only [Instruction.lowerLoad]
  split
  · rename_i h
    rw [execute_straight, execute_straight, step_loadDirect h w.address_lt]
  · rfl

/-- A fused store goes through the address space, whichever operation it became. -/
theorem execute_lowerStore (m : Machine) (next : Nat) (w : Word) :
    m.execute next (Instruction.lowerStore m.addressing (some w)) =
      m.execute next (.straight (.storeAt w.address)) := by
  simp only [Instruction.lowerStore]
  split
  · rename_i h
    rw [execute_straight, execute_straight, step_storeDirect h w.address_lt]
  · rfl

/-! ## Operations after a pushed literal -/

section Pushed

variable {w : Word} (hroom : m.data.size < m.data.capacity)
include hroom

/-- An operation after a pushed literal is the operation with that literal.  The literal is gone
from the data stack before anything else is read, so it makes no difference to what a window
shows. -/
theorem step_push_step {o o' : Op} (h : o.withLiteral? w = some o') :
    (m.step (.push w)).step o = m.step o' := by
  cases o with
  | binary f =>
    cases h
    simp only [step, Stack.binary, Stack.top_push hroom, Stack.drop_push hroom]
  | unary f =>
    cases h
    simp only [step, Stack.unary, Stack.top_push hroom, Stack.drop_push hroom]
  | dup =>
    cases h
    simp only [step, Stack.dup, Stack.top_push hroom]
  | pick | bury | load | store | toControl | markCounted | define =>
    cases h
    simp only [step, Stack.pop_push hroom]
  | _ => cases h

/-- The same for an instruction that is nothing but the operation. -/
theorem execute_push_straight {o o' : Op} (h : o.withLiteral? w = some o') (next : Nat) :
    m.execute next (.straight o') = (m.step (.push w)).execute next (.straight o) := by
  rw [execute_straight, execute_straight, step_push_step hroom h]

theorem step_drop_push : (m.step (.push w)).step .drop = m := by
  simp only [step, Stack.drop_push hroom]

theorem transfer_call_push (back : Word) :
    (m.step (.push w)).transfer (.call back none) = m.transfer (.call back (some w.address)) := by
  simp only [step, transfer, Stack.pop_push hroom]

theorem transfer_jump_push :
    (m.step (.push w)).transfer .jump = m.transfer (.jumpTo w.offset) := by
  simp only [step, transfer, Stack.pop_push hroom]

/-- With an end, the fused and the bare definition store the entry in the same place. -/
theorem execute_lowerDefine_push (next last : Nat) (entry : Word) :
    m.execute next (Instruction.lowerDefine entry (some w) (some last)) =
      (m.step (.push w)).execute next (Instruction.lowerDefine entry none (some last)) := by
  have hstep : (m.step (.push w)).step (.define entry) = m.step (.defineAt w.address entry) :=
    step_push_step hroom rfl
  simp only [execute, Instruction.lowerDefine, Option.toList_some, steps, List.foldl_cons,
    List.foldl_nil, hstep]

/-- **A fused literal is a pushed literal.** -/
theorem perform_fused {code : Opcode} (hcode : code.takesLiteral = true) (addr : Nat)
    {target : Option Nat} (hdef : ¬ (code = .define ∧ target = none)) :
    m.perform addr (.op code (some w) target) =
      (m.step (.push w)).perform addr (.op code none target) := by
  unfold perform
  simp only [Instruction.lower]
  -- pushing changes nothing that lowering looks at
  show m.execute (addr + 1) (Instruction.lowerOp m.addressing addr code (some w) target) =
    (m.step (.push w)).execute (addr + 1) (Instruction.lowerOp m.addressing addr code none target)
  cases code with
  | add | sub | mul | div | mod | bitAnd | bitOr | bitXor | shift | rotate | angle | sine | root
  | bitNot | dup | pick | bury | toControl | times => exact execute_push_straight hroom rfl _
  | pop => exact congrArg (Prod.mk _) (step_drop_push hroom).symm
  | load => exact (execute_lowerLoad m _ w).trans (execute_push_straight hroom rfl _)
  | store => exact (execute_lowerStore m _ w).trans (execute_push_straight hroom rfl _)
  | define =>
    cases target with
    | none => exact absurd ⟨rfl, rfl⟩ hdef
    | some last => exact execute_lowerDefine_push hroom _ _ _
  | call => exact (transfer_call_push hroom _).symm
  | jump => exact (transfer_jump_push hroom).symm
  | _ => cases hcode

end Pushed

/-- A definition without an end does nothing, with or without a literal. -/
theorem perform_define_unresolved (m : Machine) (addr : Nat) (literal : Option Word) :
    m.perform addr (.op .define literal none) = (.goto (addr + 1 : Nat), m) := rfl

/-- The constants that are folded while reading are what the operation would leave. -/
theorem fuse_eq_push {code : Opcode} (h : code = .sine ∨ code = .root ∨ code = .bitNot) (w : Word)
    (m : Machine) (addr : Nat) (target : Option Nat) :
    ∃ c, Instruction.fuse code w = .push c ∧
      m.perform addr (.push c) = m.perform addr (.op code (some w) target) := by
  rcases h with rfl | rfl | rfl
  · exact ⟨w.sine, rfl, rfl⟩
  · exact ⟨w.root, rfl, rfl⟩
  · exact ⟨~~~w, rfl, rfl⟩

/-- Pushing onto a stack with room changes the machine. -/
theorem step_push_ne {w : Word} (hroom : m.data.size < m.data.capacity) : m ≠ m.step (.push w) := by
  intro h
  have hsize : m.data.size = (m.data.push w).size := congrArg (fun m => m.data.size) h
  rw [Stack.size_push, if_pos hroom] at hsize
  omega

/-- **Fused and unfused instructions agree.**  On a machine whose data stack has room for the
literal, an instruction with a fused literal does what pushing the literal and performing the bare
operation does, in state and in control, except for a definition without an end: that one forgets
the fused literal and leaves the pushed one.  The constants folded while reading and the direct
access to memory agree with the general form as well. -/
theorem fused_agrees_with_push {code : Opcode} (hcode : code.takesLiteral = true) (w : Word)
    (addr : Nat) (target : Option Nat) {m : Machine} (hroom : m.data.size < m.data.capacity) :
    (m.perform addr (.op code (some w) target) =
        (m.step (.push w)).perform addr (.op code none target) ↔
      ¬ (code = .define ∧ target = none)) ∧
    (code = .define ∧ target = none →
      m.perform addr (.op code (some w) target) = (.goto (addr + 1 : Nat), m) ∧
      (m.step (.push w)).perform addr (.op code none target) =
        (.goto (addr + 1 : Nat), m.step (.push w))) ∧
    (code = .sine ∨ code = .root ∨ code = .bitNot →
      ∃ c, Instruction.fuse code w = .push c ∧
        m.perform addr (.push c) = (m.step (.push w)).perform addr (.op code none target)) ∧
    (∀ n < memorySize, m.addressing.isDirect n = true →
      m.step (.loadDirect n) = m.step (.loadAt n) ∧
      m.step (.storeDirect n) = m.step (.storeAt n)) := by
  refine ⟨⟨?_, perform_fused hroom hcode addr⟩, ?_, ?_, ?_⟩
  · rintro h ⟨rfl, rfl⟩
    rw [perform_define_unresolved, perform_define_unresolved] at h
    exact step_push_ne hroom (congrArg Prod.snd h)
  · rintro ⟨rfl, rfl⟩
    exact ⟨perform_define_unresolved .., perform_define_unresolved ..⟩
  · intro h
    obtain ⟨c, hc, hperform⟩ := fuse_eq_push h w m addr target
    have hdef : ¬ (code = .define ∧ target = none) := by
      rintro ⟨rfl, -⟩
      simp at h
    exact ⟨c, hc, hperform.trans (perform_fused hroom hcode addr hdef)⟩
  · intro n hlt h
    exact ⟨step_loadDirect h hlt, step_storeDirect h hlt⟩

/-- A fused store through the window that shows the bottom of the data stack, while that stack is
empty. -/
theorem fused_store_through_window :
    (fresh .full).perform 3 (.op .store (some (Word.ofAddress 0xE0000)) none) =
      ((fresh .full).step (.push (Word.ofAddress 0xE0000))).perform 3 (.op .store none none) :=
  (fused_agrees_with_push rfl (Word.ofAddress 0xE0000) 3 none
    (by decide : (fresh .full).data.size < (fresh .full).data.capacity)).1.2 (by decide)

end Machine
end GlyphMachine
