import GlyphMachine.Proofs.Fusion
import GlyphMachine.Proofs.Visits
import GlyphMachine.Program.Parse

/-!
# Programs that stay below the windows

The two ways of reading addresses differ only from the first window on.  A run whose addresses all
lie below it is therefore the same run in both, although the code that is run is compiled
differently.

* `Instruction.address?` — the address that an instruction uses.
* `perform_withAddressing` — one instruction whose address is low, on two machines that differ in
  nothing but the addressing.
* `Run.withAddressing` — whole runs.
* `full_agrees_with_simple` — the same for the compiled code.
-/

namespace GlyphMachine

/-- The address that the instruction uses on the machine `m`: a fused literal names it, or else the
top word does. -/
def Instruction.address? (m : Machine) : Instruction → Option Nat
  | .op .load literal _ | .op .store literal _ | .op .call literal _
  | .op .define literal (some _) => some (literal.getD m.data.top).address
  | _ => none

/-- The address that is used at a visit. -/
def Visit.address? (v : Visit) : Option Nat := v.instruction.address? v.machine

/-- Below the windows every address names memory. -/
theorem Addressing.region_of_lt {addr : Nat} (h : addr < windowStart) (a : Addressing) :
    a.region addr = .memory addr := by
  have hlt : addr < memorySize := Nat.lt_trans h (by decide)
  exact region_of_isDirect (by simp [isDirect, h]) hlt

namespace Machine

variable {m m' : Machine} {p : Program} {ip : Int} {finish : PassEnd} {vs : List Visit}

/-- The machine with another way of reading addresses. -/
def withAddressing (m : Machine) (b : Addressing) : Machine := { m with addressing := b }

section LowAddress

variable {addr : Nat} (h : addr < windowStart) (b : Addressing)
include h

theorem get_withAddressing (m : Machine) : (m.withAddressing b).get addr = m.get addr := by
  unfold get withAddressing
  rw [Addressing.region_of_lt h, Addressing.region_of_lt h]

theorem put_withAddressing (m : Machine) (w : Word) :
    (m.withAddressing b).put addr w = (m.put addr w).withAddressing b := by
  unfold put withAddressing
  rw [Addressing.region_of_lt h, Addressing.region_of_lt h]

end LowAddress

/-! ## One instruction -/

/-- The outcome of an instruction on the machine with another way of reading addresses. -/
def flowWithAddressing (b : Addressing) (r : Flow × Machine) : Flow × Machine :=
  (r.1, r.2.withAddressing b)

/-- A call apart, transfers use no address. -/
theorem transfer_withAddressing (m : Machine) (b : Addressing) (exit : Exit)
    (h : ∀ back slot, exit ≠ .call back slot) :
    (m.withAddressing b).transfer exit = flowWithAddressing b (m.transfer exit) := by
  cases exit with
  | call back slot => exact absurd rfl (h back slot)
  | loopWhile next =>
    by_cases hzero : m.data.top = 0 <;>
      simp [transfer, flowWithAddressing, withAddressing, Stack.pop, hzero]
  | countDown next =>
    by_cases hsize : m.control.size < 2
    · simp [transfer, flowWithAddressing, withAddressing, hsize]
    · by_cases hzero : m.control.fromTop 1 - Word.one = 0 <;>
        simp [transfer, flowWithAddressing, withAddressing, hsize, hzero]
  | switch addr resume =>
    cases hmay : m.maySwitch <;>
      simp [transfer, flowWithAddressing, withAddressing, Stack.pop, hmay]
  | _ => rfl

theorem perform_load (m : Machine) (k : Nat) (literal : Option Word) (target : Option Nat) :
    m.perform k (.op .load literal target) =
      m.execute (k + 1) (.straight (literal.elim .load fun w => .loadAt w.address)) := by
  cases literal with
  | none => rfl
  | some w => exact execute_lowerLoad m (k + 1) w

theorem perform_store (m : Machine) (k : Nat) (literal : Option Word) (target : Option Nat) :
    m.perform k (.op .store literal target) =
      m.execute (k + 1) (.straight (literal.elim .store fun w => .storeAt w.address)) := by
  cases literal with
  | none => rfl
  | some w => exact execute_lowerStore m (k + 1) w

/-- **An instruction whose address lies below the windows does the same in both ways of reading
addresses.** -/
theorem perform_withAddressing {i : Instruction} (h : ∀ addr ∈ i.address? m, addr < windowStart)
    (k : Nat) (b : Addressing) :
    (m.withAddressing b).perform k i = flowWithAddressing b (m.perform k i) := by
  cases i with
  | push w => rfl
  | op code literal target =>
    cases code with
    | load =>
      have hlow := h _ rfl
      rw [perform_load, perform_load]
      cases literal with
      | none =>
        have hget := get_withAddressing hlow b { m with data := m.data.drop }
        exact congrArg (fun w => (Flow.goto (k + 1 : Nat),
          { m with data := m.data.drop.push w }.withAddressing b)) hget
      | some w =>
        have hget := get_withAddressing hlow b m
        exact congrArg (fun w => (Flow.goto (k + 1 : Nat),
          { m with data := m.data.push w }.withAddressing b)) hget
    | store =>
      have hlow := h _ rfl
      rw [perform_store, perform_store]
      cases literal with
      | none =>
        exact congrArg (Prod.mk _)
          (put_withAddressing hlow b { m with data := m.data.drop.drop } m.data.drop.top)
      | some w =>
        exact congrArg (Prod.mk _)
          (put_withAddressing hlow b { m with data := m.data.drop } m.data.top)
    | define =>
      cases target with
      | none => rfl
      | some last =>
        have hlow := h _ rfl
        cases literal with
        | none =>
          exact congrArg (Prod.mk _)
            (put_withAddressing hlow b { m with data := m.data.drop } (Word.ofAddress (k + 1)))
        | some w =>
          exact congrArg (Prod.mk _) (put_withAddressing hlow b m (Word.ofAddress (k + 1)))
    | call =>
      have hlow := h _ rfl
      -- the slot is read after the return address is pushed
      let pushed := { m with control := m.control.push (Word.ofAddress (k + 1)) }
      cases literal with
      | none =>
        have hget := get_withAddressing hlow b { pushed with data := m.data.drop }
        exact congrArg (fun w => (Flow.goto (Word.offset w),
          { pushed with data := m.data.drop }.withAddressing b)) hget
      | some w =>
        have hget := get_withAddressing hlow b pushed
        exact congrArg (fun w => (Flow.goto (Word.offset w), pushed.withAddressing b)) hget
    | loopWhile => exact transfer_withAddressing m b (.loopWhile (k + 1)) (by simp)
    | loop => exact transfer_withAddressing m b (.countDown (k + 1)) (by simp)
    | mediaSwitch => exact transfer_withAddressing m b (.switch k (k + 1)) (by simp)
    | ret | terminate => rfl
    | jump => cases literal <;> rfl
    | branch | otherwise => cases target <;> rfl
    | _ => cases literal <;> rfl

/-! ## Runs -/

/-- **A run whose addresses lie below the windows is a run in both ways of reading addresses.** -/
theorem Run.withAddressing {a : Addressing} (h : Run a p ip m vs finish m')
    (ha : m.addressing = a) (hlow : ∀ v ∈ vs, ∀ addr ∈ v.address?, addr < windowStart)
    (b : Addressing) :
    ∃ us, Run b p ip (m.withAddressing b) us finish (m'.withAddressing b) := by
  induction h with
  | leave m hout => exact ⟨_, .leave _ hout⟩
  | @stop k i m m' finish hi hexec =>
    subst ha
    have hperform := perform_withAddressing (hlow _ List.mem_cons_self) k b
    rw [perform, perform, hexec] at hperform
    exact ⟨_, .stop hi hperform⟩
  | @next k i m m₁ m' target vs finish hi hexec _ ih =>
    subst ha
    have hperform := perform_withAddressing (hlow _ List.mem_cons_self) k b
    rw [perform, perform, hexec] at hperform
    have haddressing : m₁.addressing = m.addressing := by
      have hfixed := fixed_execute m (k + 1) (i.lower m.addressing k)
      rw [hexec] at hfixed
      rw [toContext_eq hfixed]
    obtain ⟨us, hrun⟩ := ih haddressing fun v hv => hlow v (List.mem_cons_of_mem _ hv)
    exact ⟨_, .next hi hperform hrun⟩

/-- **Full and simple addressing agree on programs that stay in memory.**  Let a machine in simple
addressing run the code of any program from any address to an end, and let every address that a
load, a store, a definition or a call uses on the way lie below the windows.  Then the same machine
in full addressing, running the code compiled for that, ends in the same way and in the same
state. -/
theorem full_agrees_with_simple (p : Program) (start : Int) (m : Machine) {fuel : Nat}
    {finish : PassEnd} {m' : Machine}
    (hrun : dispatch (p.compile .simple) fuel start (m.withAddressing .simple) = some (finish, m'))
    (hlow : ∀ v ∈ visits .simple p fuel start (m.withAddressing .simple), ∀ addr ∈ v.address?,
      addr < windowStart) :
    ∃ fuel', dispatch (p.compile .full) fuel' start (m.withAddressing .full) =
      some (finish, m'.withAddressing .full) := by
  obtain ⟨us, hfull⟩ := (run_of_dispatch hrun).withAddressing rfl hlow .full
  exact dispatch_of_run hfull

/-- A word stored and loaded at the last address below the windows, by a fused and by a popped
address, and a subroutine called through a slot of memory. -/
theorem last_address_below_windows :
    ∃ m', dispatch ((Program.parse "5 7FFF.000C! 7FFF.000C @ 1{2*}1V").compile .simple) 9 0
        ((fresh .full).withAddressing .simple) = some (.halted .endOfProgram, m') ∧
      ∃ fuel', dispatch ((Program.parse "5 7FFF.000C! 7FFF.000C @ 1{2*}1V").compile .full) fuel' 0
        ((fresh .full).withAddressing .full) =
          some (.halted .endOfProgram, m'.withAddressing .full) := by
  obtain ⟨m', hrun⟩ : ∃ m', dispatch
      ((Program.parse "5 7FFF.000C! 7FFF.000C @ 1{2*}1V").compile .simple) 9 0
        ((fresh .full).withAddressing .simple) = some (.halted .endOfProgram, m') := ⟨_, rfl⟩
  have hlow : ∀ v ∈ visits .simple (Program.parse "5 7FFF.000C! 7FFF.000C @ 1{2*}1V") 9 0
      ((fresh .full).withAddressing .simple), ∀ addr ∈ v.address?, addr < windowStart := by decide
  exact ⟨m', hrun, full_agrees_with_simple _ _ _ hrun hlow⟩

end Machine
end GlyphMachine
