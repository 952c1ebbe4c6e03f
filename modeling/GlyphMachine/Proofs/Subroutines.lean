import Mathlib
import GlyphMachine.Proofs.Fusion
import GlyphMachine.Proofs.Trails

/-!
# Calls return to their callers

A definition stores the address of its body in memory, a call puts the way back on the control stack
and goes to the stored address, and a return goes back to where the word on top leads.  Entries and
ways back are words like any others, so a call comes back only if the body keeps its hands off them:
then nested and recursive calls return in the order opposite to that in which they were made.

* `Machine.Continues` — what it is that one instruction leads to another.
* `continues_define`, `continues_call`, `continues_ret` — the three instructions, with the slot
  popped or given.
* `Visit.openAfter`, `openCalls` — the calls of a run that have not returned yet.
* `Disciplined`, `Framed` — what is asked of the code between calls and returns, and the invariant
  of the control stack that it keeps; `framed_of_trail` is the induction over the run.
* `calls_return_to_callers` — all of this together.
-/

namespace GlyphMachine

namespace Stack

/-- The stack with one more word. -/
def topped (s : Stack) (w : Word) : Stack := { s with words := s.words.push w }

section Topped

variable {s : Stack} {w : Word}

theorem push_of_lt (h : s.size < s.capacity) : s.push w = s.topped w := if_pos h

theorem top_topped : (s.topped w).top = w := by simp [topped, top]

theorem drop_topped : (s.topped w).drop = s := by simp [topped, drop]

end Topped

/-- The words of `s` are the lowest words of `t`, and both have the same room. -/
structure Under (s t : Stack) : Prop where
  capacity : s.capacity = t.capacity
  words : s.words.toList <+: t.words.toList

namespace Under

variable {s t u : Stack}

theorem refl (s : Stack) : s.Under s := ⟨rfl, List.prefix_rfl⟩

theorem eq_of_size (h : s.Under t) (hsize : t.size = s.size) : t = s := by
  obtain ⟨capacity, words⟩ := s
  obtain ⟨capacity', words'⟩ := t
  obtain ⟨rfl, hwords⟩ := h
  exact congrArg (Stack.mk capacity) (Array.toList_inj.1 (hwords.eq_of_length hsize.symm).symm)

/-- A stack stays where it is as long as its own words do. -/
theorem of_take (h : s.Under t) (hcapacity : u.capacity = t.capacity)
    (htake : u.words.toList.take s.size = t.words.toList.take s.size) : s.Under u := by
  refine ⟨h.capacity.trans hcapacity.symm, ?_⟩
  have hwords : s.words.toList = t.words.toList.take s.size := List.prefix_iff_eq_take.1 h.words
  rw [hwords, ← htake]
  exact List.take_prefix _ _

end Under
end Stack

namespace Machine

variable {a : Addressing} {p : Program} {k target : Nat} {i : Instruction} {m m' : Machine}

/-! ## Single transfers -/

/-- In the state `m` the instruction `i` at `k` is performed, and the code goes on at `target` in
the state `m'`. -/
structure Continues (a : Addressing) (p : Program) (k : Nat) (i : Instruction) (m : Machine)
    (target : Nat) (m' : Machine) : Prop where
  visits : ∀ fuel, visits a p (fuel + 1) k m = ⟨k, i, m⟩ :: visits a p fuel target m'
  dispatch : ∀ fuel,
    dispatch (p.compile a) (fuel + 1) k m = dispatch (p.compile a) fuel target m'

theorem continues_of_execute (hi : p[k]? = some i) (hexit : Visit.transfers a ⟨k, i, m⟩ = true)
    (hexec : m.execute (k + 1) (i.lower a k) = (.goto target, m')) :
    Continues a p k i m target m' := by
  obtain ⟨hk, rfl⟩ := List.getElem?_eq_some_iff.1 hi
  obtain ⟨exit, hx⟩ := Option.isSome_iff_exists.1 hexit
  have hrun := (runBlock_of_exit hk hx m).trans hexec
  refine ⟨fun fuel => ?_, fun fuel => ?_⟩
  · rw [visits_of_inside hk, hrun, List.drop_eq_getElem_cons hk, stretch, hx]
    rfl
  · rw [dispatch_of_inside hk, hrun]

theorem get_of_isDirect {addr : Nat} (h : m.addressing.isDirect addr = true)
    (hlt : addr < memorySize) : m.get addr = m.memory.get addr := by
  rw [get, Addressing.region_of_isDirect h hlt]

theorem put_of_isDirect {addr : Nat} (h : m.addressing.isDirect addr = true)
    (hlt : addr < memorySize) (w : Word) :
    m.put addr w = { m with memory := m.memory.put addr w } := by
  rw [put, Addressing.region_of_isDirect h hlt]

section Slots

variable {literal : Option Word} {target? : Option Nat} {slot : Nat}
  (hdirect : m.addressing.isDirect slot = true)
  (hslot : (literal.getD m.data.top).address = slot)
include hdirect hslot

/-- A definition stores the address of its body, and goes on behind its end. -/
theorem continues_define {last : Nat} (hi : p[k]? = some (.op .define literal (some last))) :
    Continues a p k (.op .define literal (some last)) m (last + 1) { m with
      data := if literal.isSome then m.data else m.data.drop
      memory := m.memory.put slot (Word.ofAddress (k + 1)) } := by
  have hlt : slot < memorySize := hslot ▸ Word.address_lt _
  have hput (data : Stack) : { m with data }.put slot (Word.ofAddress (k + 1)) =
      { m with data, memory := m.memory.put slot (Word.ofAddress (k + 1)) } :=
    put_of_isDirect (m := { m with data }) hdirect hlt _
  refine continues_of_execute hi rfl ?_
  rw [← hput, ← hslot]
  cases literal <;> rfl

/-- A call puts the way back on the control stack, and goes where the slot says. -/
theorem continues_call (hi : p[k]? = some (.op .call literal target?))
    (htarget : target < 2147483648) (hentry : m.memory.get slot = Word.ofAddress target)
    (hroom : m.control.size < m.control.capacity) :
    Continues a p k (.op .call literal target?) m target { m with
      data := if literal.isSome then m.data else m.data.drop
      control := m.control.topped (Word.ofAddress (k + 1)) } := by
  have hlt : slot < memorySize := hslot ▸ Word.address_lt _
  have hget (data control : Stack) : { m with data, control }.get slot = Word.ofAddress target :=
    (get_of_isDirect (m := { m with data, control }) hdirect hlt).trans hentry
  refine continues_of_execute hi rfl ?_
  rw [← Word.offset_ofAddress htarget, ← Stack.push_of_lt hroom]
  subst hslot
  cases literal <;> exact congrArg (fun w : Word => (Flow.goto w.offset, _)) (hget _ _)

end Slots

/-- A return goes back to where the word on top of the control stack leads. -/
theorem continues_ret {control : Stack} (hi : p[k]? = some i) (hret : i.performs .ret = true)
    (htarget : target < 2147483648)
    (hcontrol : m.control = control.topped (Word.ofAddress target)) :
    Continues a p k i m target { m with control } := by
  cases i with
  | push w => cases hret
  | op code literal last =>
    obtain rfl : code = .ret := Option.some.inj (beq_iff_eq.1 hret)
    have htop : m.control.top = Word.ofAddress target := hcontrol ▸ Stack.top_topped
    have hdrop : m.control.drop = control := hcontrol ▸ Stack.drop_topped
    refine continues_of_execute hi rfl ?_
    show (Flow.goto m.control.top.offset, { m with control := m.control.drop }) = _
    rw [htop, hdrop, Word.offset_ofAddress htarget]

end Machine

/-! ## Open calls -/

namespace Visit

/-- The machine that the instruction leaves, compiled for `a`. -/
def after (a : Addressing) (v : Visit) : Machine :=
  (v.machine.execute (v.addr + 1) (v.instruction.lower a v.addr)).2

/-- The control stack that a call leaves: the words of the caller, and the way back. -/
def frame (v : Visit) : Stack := v.machine.control.topped (Word.ofAddress (v.addr + 1))

/-- The open calls after an instruction, the last first: a call opens itself, and a return closes
the last open one. -/
def openAfter (v : Visit) (calls : List Visit) : List Visit :=
  if v.instruction.performs .call then v :: calls
  else if v.instruction.performs .ret then calls.tail
  else calls

/-- What is asked of an instruction while calls are open: a call finds room, a return stands where
the control stack is as high as its call left it, and all other instructions leave the words of the
last open call, up to the way back, as they are. -/
def Keeps (a : Addressing) (calls : List Visit) (v : Visit) : Prop :=
  if v.instruction.performs .call then v.machine.control.size < v.machine.control.capacity
  else if v.instruction.performs .ret then ∀ u ∈ calls.head?, v.machine.control.size = u.frame.size
  else ∀ u ∈ calls.head?, (v.after a).control.words.toList.take u.frame.size =
    v.machine.control.words.toList.take u.frame.size

instance (a : Addressing) (calls : List Visit) (v : Visit) : Decidable (v.Keeps a calls) :=
  inferInstanceAs (Decidable (ite _ _ _))

theorem mem_of_mem_openAfter {u v : Visit} {calls : List Visit} (h : u ∈ v.openAfter calls) :
    u = v ∨ u ∈ calls := by
  unfold openAfter at h
  split at h
  · exact List.mem_cons.1 h
  · split at h
    · exact .inr (List.mem_of_mem_tail h)
    · exact .inr h

theorem control_after_call (a : Addressing) {v : Visit} (h : v.instruction.performs .call = true)
    (hroom : v.machine.control.size < v.machine.control.capacity) :
    (v.after a).control = v.frame := by
  obtain ⟨addr, i, m⟩ := v
  cases i with
  | push w => cases h
  | op code literal last =>
    obtain rfl : code = .call := Option.some.inj (beq_iff_eq.1 h)
    rw [frame, ← Stack.push_of_lt hroom]
    cases literal <;> rfl

theorem control_after_ret (a : Addressing) {v : Visit} (h : v.instruction.performs .ret = true) :
    (v.after a).control = v.machine.control.drop := by
  obtain ⟨addr, i, m⟩ := v
  cases i with
  | push w => cases h
  | op code literal last =>
    obtain rfl : code = .ret := Option.some.inj (beq_iff_eq.1 h)
    rfl

theorem capacity_after (a : Addressing) (v : Visit) :
    (v.after a).control.capacity = v.machine.control.capacity :=
  congrArg (·.2.2) (Machine.fixed_execute v.machine (v.addr + 1) (v.instruction.lower a v.addr))

end Visit

namespace Machine

variable {a : Addressing} {p : Program} {ip ip' : Int} {m m' : Machine} {calls vs ws : List Visit}
  {u v : Visit}

/-- The calls that are open after a part of a run. -/
def openCalls (calls : List Visit) (vs : List Visit) : List Visit :=
  vs.foldl (fun calls v => v.openAfter calls) calls

/-- Every instruction keeps the words of the calls open before it. -/
def Disciplined (a : Addressing) : (calls vs : List Visit) → Prop
  | _, [] => True
  | calls, v :: vs => v.Keeps a calls ∧ Disciplined a (v.openAfter calls) vs

instance Disciplined.decide (a : Addressing) :
    (calls vs : List Visit) → Decidable (Disciplined a calls vs)
  | _, [] => .isTrue trivial
  | calls, v :: vs =>
    have := Disciplined.decide a (v.openAfter calls) vs
    inferInstanceAs (Decidable (_ ∧ _))

/-- The control stack when calls are open: what the last one left lies under it, and the caller's
own stack has the other ones open. -/
def Framed : (calls : List Visit) → Stack → Prop
  | [], _ => True
  | u :: calls, control => u.frame.Under control ∧ Framed calls u.machine.control

theorem disciplined_append :
    Disciplined a calls (vs ++ ws) ↔
      Disciplined a calls vs ∧ Disciplined a (openCalls calls vs) ws := by
  induction vs generalizing calls with
  | nil => simp [Disciplined, openCalls]
  | cons v vs ih =>
    rw [List.cons_append, Disciplined, Disciplined, ih, and_assoc]
    rfl

theorem mem_of_mem_openCalls (h : u ∈ openCalls calls vs) : u ∈ calls ∨ u ∈ vs := by
  induction vs generalizing calls with
  | nil => exact .inl h
  | cons v vs ih =>
    rcases ih h with hopen | hlater
    · rcases Visit.mem_of_mem_openAfter hopen with rfl | hcalls
      · exact .inr List.mem_cons_self
      · exact .inl hcalls
    · exact .inr (List.mem_cons_of_mem v hlater)

/-- A return finds what the last open call left. -/
theorem Framed.onTop (h : Framed (u :: calls) v.machine.control)
    (hret : v.instruction.performs .ret = true) (hkeeps : v.Keeps a (u :: calls)) :
    v.machine.control = u.frame := by
  have hcall : ¬ v.instruction.performs .call = true := by
    intro hcall
    cases (beq_iff_eq.1 hret).symm.trans (beq_iff_eq.1 hcall)
  rw [Visit.Keeps, if_neg hcall, if_pos hret] at hkeeps
  exact h.1.eq_of_size (hkeeps u rfl)

/-- **One instruction** that keeps the words of the open calls keeps the invariant. -/
theorem Framed.step (h : Framed calls v.machine.control) (hkeeps : v.Keeps a calls) :
    Framed (v.openAfter calls) (v.after a).control := by
  by_cases hcall : v.instruction.performs .call = true
  · rw [Visit.Keeps, if_pos hcall] at hkeeps
    rw [Visit.openAfter, if_pos hcall, Visit.control_after_call a hcall hkeeps]
    exact ⟨.refl _, h⟩
  by_cases hret : v.instruction.performs .ret = true
  · rw [Visit.openAfter, if_neg hcall, if_pos hret, Visit.control_after_ret a hret]
    cases calls with
    | nil => trivial
    | cons u calls =>
      rw [h.onTop hret hkeeps, Visit.frame, Stack.drop_topped]
      exact h.2
  · rw [Visit.Keeps, if_neg hcall, if_neg hret] at hkeeps
    rw [Visit.openAfter, if_neg hcall, if_neg hret]
    cases calls with
    | nil => trivial
    | cons u calls =>
      obtain ⟨hunder, hcalls⟩ := h
      exact ⟨hunder.of_take (v.capacity_after a) (hkeeps u rfl), hcalls⟩

/-- **A run** that keeps the words of the open calls keeps the invariant. -/
theorem framed_of_trail (htrail : Trail a p ip m vs ip' m') (h : Framed calls m.control)
    (hd : Disciplined a calls vs) : Framed (openCalls calls vs) m'.control := by
  induction htrail generalizing calls with
  | refl => exact h
  | @next k i m m₁ m' target ip' vs hi hexec _ ih =>
    have hstep := h.step (v := ⟨k, i, m⟩) hd.1
    rw [Visit.after, hexec] at hstep
    exact ih hstep hd.2

/-! ## Subroutines -/

/-- **Calls return to their callers.**  Take a definition at `d` that ends at `e`, and a call at `c`
of the same slot of memory, each with the slot popped or given.  The definition goes on behind its
end, and changes memory at the slot only.  As long as the slot holds what was stored there, and the
control stack has room, the call goes to the body with the way back on the control stack; and from
the same control stack a return, wherever it stands, goes on after the call with the control stack
of the caller.  So, in every run, a return that finds what the last open call left goes on after
this call; and it does find that if all instructions keep the words of the open calls. -/
theorem calls_return_to_callers {a : Addressing} {p : Program} {d e c slot : Nat}
    {literal literal' : Option Word} {target : Option Nat} (hshort : p.length < 2 ^ 31)
    (hdefine : p[d]? = some (.op .define literal (some e)))
    (hcall : p[c]? = some (.op .call literal' target)) (hslot : a.isDirect slot = true) :
    (∀ m : Machine, m.addressing = a → (literal.getD m.data.top).address = slot →
      ∃ memory : Memory, Continues a p d (.op .define literal (some e)) m (e + 1) { m with
          data := if literal.isSome then m.data else m.data.drop
          memory } ∧
        memory.get slot = Word.ofAddress (d + 1) ∧
        ∀ addr < memorySize, addr ≠ slot → memory.get addr = m.memory.get addr) ∧
    (∀ m : Machine, m.addressing = a → (literal'.getD m.data.top).address = slot →
      m.memory.get slot = Word.ofAddress (d + 1) → m.control.size < m.control.capacity →
      Continues a p c (.op .call literal' target) m (d + 1) { m with
        data := if literal'.isSome then m.data else m.data.drop
        control := m.control.topped (Word.ofAddress (c + 1)) }) ∧
    (∀ (m : Machine) (r : Nat) (i : Instruction) (control : Stack), p[r]? = some i →
      i.performs .ret = true → m.control = control.topped (Word.ofAddress (c + 1)) →
      Continues a p r i m (c + 1) { m with control }) ∧
    ∀ (fuel : Nat) (start : Int) (m : Machine) (before : List Visit) (v : Visit)
      (after : List Visit) (u : Visit) (calls : List Visit),
      visits a p fuel start m = before ++ v :: after →
      v.instruction.performs .ret = true → openCalls [] before = u :: calls →
      (v.machine.control = u.frame →
        Continues a p v.addr v.instruction v.machine (u.addr + 1)
          { v.machine with control := u.machine.control }) ∧
      (Disciplined a [] (visits a p fuel start m) → v.machine.control = u.frame) := by
  have hnext {k : Nat} {i : Instruction} (hi : p[k]? = some i) : k + 1 < 2147483648 := by
    obtain ⟨hk, -⟩ := List.getElem?_eq_some_iff.1 hi
    omega
  refine ⟨?_, ?_, ?_, ?_⟩
  · rintro m rfl hm
    have hlt : slot < memorySize := hm ▸ Word.address_lt _
    refine ⟨_, continues_define hslot hm hdefine, ?_, fun addr haddr hne => ?_⟩
    · rw [Memory.get_put, if_pos rfl]
    · rw [Memory.get_put, Nat.mod_eq_of_lt hlt, Nat.mod_eq_of_lt haddr, if_neg hne.symm]
  · rintro m rfl hm hentry hroom
    exact continues_call hslot hm hcall (hnext hdefine) hentry hroom
  · intro m r i control hi hret hcontrol
    exact continues_ret hi hret (hnext hcall) hcontrol
  · intro fuel start m before v after u calls hvisits hret hopen
    obtain ⟨htrail, hv⟩ := trail_of_visits hvisits
    constructor
    · intro hcontrol
      have hu : u ∈ before := by
        rcases mem_of_mem_openCalls (hopen ▸ List.mem_cons_self) with hnone | hbefore
        · cases hnone
        · exact hbefore
      exact continues_ret hv hret (hnext (htrail.getElem?_addr hu)) hcontrol
    · intro hd
      rw [hvisits, disciplined_append, hopen] at hd
      have hframed : Framed (openCalls [] before) v.machine.control :=
        framed_of_trail htrail trivial hd.1
      rw [hopen] at hframed
      exact hframed.onTop hret hd.2.1

/-- A subroutine that calls itself until it has counted down: the first return finds three calls
open, and goes on after the last of them. -/
theorem recursion_returns_to_last_call :
    ∃ (before : List Visit) (v : Visit) (after : List Visit) (u : Visit) (calls : List Visit),
      visits .full (.parse "1{d?1-1V;}2 1V") 20 0 (.fresh .full) = before ++ v :: after ∧
      openCalls [] before = u :: calls ∧ u.addr = 4 ∧ calls.map (·.addr) = [4, 8] ∧
      Continues .full (.parse "1{d?1-1V;}2 1V") v.addr v.instruction v.machine (4 + 1)
        { v.machine with control := u.machine.control } := by
  have hd : Disciplined .full []
      (visits .full (.parse "1{d?1-1V;}2 1V") 20 0 (.fresh .full)) := by decide
  have hslot : Addressing.full.isDirect 1 = true := by decide
  have hrun := (calls_return_to_callers (p := .parse "1{d?1-1V;}2 1V") (d := 0) (c := 4)
    (by decide) rfl rfl hslot).2.2.2 20 0 (.fresh .full)
  generalize hvs : visits .full (.parse "1{d?1-1V;}2 1V") 20 0 (.fresh .full) = vs at *
  obtain ⟨v, hv, hret⟩ : ∃ v, vs[13]? = some v ∧ v.instruction.performs .ret = true := by
    subst hvs
    exact ⟨_, rfl, rfl⟩
  obtain ⟨u, calls, hopen, hu, hcalls⟩ : ∃ u calls, openCalls [] (vs.take 13) = u :: calls ∧
      u.addr = 4 ∧ calls.map (·.addr) = [4, 8] := by
    subst hvs
    exact ⟨_, _, rfl, rfl, rfl⟩
  have hsplit : vs = vs.take 13 ++ v :: vs.drop 14 := by
    obtain ⟨hlt, rfl⟩ := List.getElem?_eq_some_iff.1 hv
    rw [List.getElem_cons_drop, List.take_append_drop]
  obtain ⟨hreturn, hframe⟩ := hrun _ v _ u calls hsplit hret hopen
  exact ⟨_, v, _, u, calls, hsplit, hopen, hu, hcalls, hu ▸ hreturn (hframe hd)⟩

end Machine
end GlyphMachine
