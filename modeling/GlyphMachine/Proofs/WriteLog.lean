import GlyphMachine.Proofs.PassEnds
import GlyphMachine.Proofs.Quiet
import GlyphMachine.Proofs.Windows

/-!
# Memory is the log of what was written to it

Stores and definitions write through addresses, and an address may show a stack.  Here the writes
of a run that reach memory are put down in a log, said from the instructions performed and not from
the operations they are compiled to.

* `Visit.memoryWrite?` — what an instruction writes to memory.
* `Run.memory`, `Run.memory_at` — after a run, and at every instruction of it, the memory is the
  one before with the log made on it.
* `Player.Logged` — sessions with the log of all writes since the memory was last cleared.
* `memory_is_log_of_writes` — a word of memory is the last one written there.
-/

namespace GlyphMachine

/-! ## Logs -/

/-- A word written to memory. -/
structure Write where
  addr : Fin memorySize
  word : Word
deriving DecidableEq

/-- The word that a log wrote last at an address. -/
def Write.last? (log : List Write) (addr : Fin memorySize) : Option Word :=
  (log.reverse.find? (·.addr = addr)).map (·.word)

namespace Memory

/-- The memory after the writes of a log, made in order. -/
def apply (mem : Memory) (log : List Write) : Memory :=
  log.foldl (fun mem w => mem.put w.addr w.word) mem

theorem apply_append (mem : Memory) (log more : List Write) :
    mem.apply (log ++ more) = (mem.apply log).apply more := by
  simp [apply]

theorem wrap_eq_iff {addr : Fin memorySize} {other : Nat} :
    addr = wrap other ↔ addr.val % memorySize = other % memorySize := by
  rw [Fin.ext_iff, Nat.mod_eq_of_lt addr.isLt]
  rfl

/-- **Reading after a log** gives the last word written at the address, or the one from before. -/
theorem get_apply (mem : Memory) (log : List Write) (addr : Nat) :
    (mem.apply log).get addr = (Write.last? log (wrap addr)).getD (mem.get addr) := by
  induction log generalizing mem with
  | nil => rfl
  | cons w log ih =>
    have hstep : mem.apply (w :: log) = (mem.put w.addr w.word).apply log := rfl
    rw [hstep, ih, get_put]
    simp only [Write.last?, List.reverse_cons, List.find?_append]
    cases hlater : log.reverse.find? (·.addr = wrap addr) with
    | some v => simp
    | none =>
      by_cases haddr : w.addr = wrap addr
      · rw [if_pos (wrap_eq_iff.1 haddr)]
        simp [haddr]
      · rw [if_neg (mt wrap_eq_iff.2 haddr)]
        simp [haddr]

theorem get_apply_of_forall_ne {log : List Write} {addr : Nat}
    (h : ∀ w ∈ log, w.addr ≠ wrap addr) (mem : Memory) :
    (mem.apply log).get addr = mem.get addr := by
  have hnone : log.reverse.find? (·.addr = wrap addr) = none := by simpa using h
  rw [get_apply, Write.last?, hnone]
  rfl

end Memory

/-! ## What an instruction writes -/

/-- The write that reaches memory when a word is written at an address. -/
def Addressing.memoryWrite? (a : Addressing) (addr : Nat) (word : Word) : Option Write :=
  match a.region addr with
  | .memory addr => some ⟨Memory.wrap addr, word⟩
  | .control _ | .data _ => none

namespace Visit

/-- The address and the word that the instruction writes.  A store takes what a literal does not
give it from the data stack, the address first; a definition that has an end writes the address of
the instruction after it. -/
def write? (v : Visit) : Option (Nat × Word) :=
  let data := v.machine.data
  match v.instruction with
  | .op .store none _ => some (data.top.address, data.drop.top)
  | .op .store (some w) _ => some (w.address, data.top)
  | .op .define literal (some _) =>
    some ((literal.getD data.top).address, Word.ofAddress (v.addr + 1))
  | _ => none

/-- What the instruction writes to memory. -/
def memoryWrite? (v : Visit) : Option Write :=
  v.write?.bind fun (addr, word) => v.machine.addressing.memoryWrite? addr word

theorem write?_eq_none {v : Visit} (h : v.instruction.writes = false) : v.write? = none := by
  unfold write?
  split
  · rename_i heq
    rw [heq] at h
    cases h
  · rename_i heq
    rw [heq] at h
    cases h
  · rename_i heq
    rw [heq] at h
    cases h
  · rfl

/-- In full addressing what reaches memory is written below the windows. -/
theorem addr_lt_of_memoryWrite? {v : Visit} {w : Write} (h : v.memoryWrite? = some w)
    (hfull : v.machine.addressing = .full) : w.addr.val < windowStart := by
  obtain ⟨⟨addr, word⟩, -, hw⟩ := Option.bind_eq_some_iff.1 h
  simp only [Addressing.memoryWrite?, hfull, Addressing.region] at hw
  split at hw
  · rename_i region addr' hregion
    cases hw
    split at hregion
    · rename_i hlt
      cases hregion
      exact Nat.lt_of_le_of_lt (Nat.mod_le _ _) hlt
    · split at hregion
      · cases hregion
      · split at hregion <;> cases hregion
  · cases hw
  · cases hw

end Visit

namespace Machine

variable {a : Addressing} {p : Program} {fuel : Nat} {ip : Int} {m m' : Machine}
  {finish : PassEnd} {vs : List Visit}

theorem memory_put (m : Machine) (addr : Nat) (w : Word) :
    (m.put addr w).memory = m.memory.apply (m.addressing.memoryWrite? addr w).toList := by
  unfold put Addressing.memoryWrite?
  cases m.addressing.region addr with
  | memory addr =>
    show m.memory.put addr w = m.memory.put (addr % memorySize) w
    simp only [Memory.put, Memory.wrap, Nat.mod_mod]
  | control index => rfl
  | data index => rfl

/-- An instruction that does not write leaves the memory alone. -/
theorem memory_perform_of_not_writes {i : Instruction} (h : i.writes = false) (m : Machine)
    (k : Nat) : (m.perform k i).2.memory = m.memory := by
  have hsteps : (m.steps (i.lower m.addressing k).op.toList).memory = m.memory := by
    refine memory_steps (fun o ho => ?_) m
    exact Instruction.writes_lower h (Option.mem_toList.1 ho)
  unfold perform execute
  split
  · exact hsteps
  · exact (memory_transfer _ _).trans hsteps

/-- **What an instruction does to memory** is its write, if that reaches memory. -/
theorem memory_perform (m : Machine) (k : Nat) (i : Instruction) :
    (m.perform k i).2.memory = m.memory.apply (Visit.memoryWrite? ⟨k, i, m⟩).toList := by
  cases hwrites : i.writes with
  | false =>
    rw [memory_perform_of_not_writes hwrites, Visit.memoryWrite?, Visit.write?_eq_none hwrites]
    rfl
  | true =>
    unfold Instruction.writes at hwrites
    split at hwrites
    · rename_i literal target
      rw [perform_store]
      cases literal with
      | none => exact memory_put { m with data := m.data.drop.drop } _ _
      | some w => exact memory_put { m with data := m.data.drop } _ _
    · rename_i literal last
      cases literal with
      | none => exact memory_put { m with data := m.data.drop } _ _
      | some w => exact memory_put m _ _
    · cases hwrites

/-! ## What a run writes -/

/-- The log of a run: what the instructions it performs write to memory, in order. -/
def writes (p : Program) (fuel : Nat) (start : Int) (m : Machine) : List Write :=
  (visits m.addressing p fuel start m).filterMap Visit.memoryWrite?

theorem apply_filterMap_cons (mem : Memory) (v : Visit) (vs : List Visit) :
    mem.apply ((v :: vs).filterMap Visit.memoryWrite?) =
      (mem.apply v.memoryWrite?.toList).apply (vs.filterMap Visit.memoryWrite?) := by
  rw [← Memory.apply_append]
  cases hv : v.memoryWrite? <;> simp [hv]

/-- The memory after an instruction, on a machine that it was compiled for. -/
theorem memory_execute {k : Nat} {i : Instruction} {flow : Flow} (ha : m.addressing = a)
    (h : m.execute (k + 1) (i.lower a k) = (flow, m')) :
    m'.memory = m.memory.apply (Visit.memoryWrite? ⟨k, i, m⟩).toList ∧ m'.addressing = a := by
  subst ha
  have hmemory := memory_perform m k i
  have hfixed := fixed_execute m (k + 1) (i.lower m.addressing k)
  rw [perform, h] at hmemory
  rw [h] at hfixed
  exact ⟨hmemory, by rw [toContext_eq hfixed]⟩

/-- **After a run the memory is the one before with the log made on it.** -/
theorem Run.memory (h : Run a p ip m vs finish m') (ha : m.addressing = a) :
    m'.memory = m.memory.apply (vs.filterMap Visit.memoryWrite?) := by
  induction h with
  | leave => rfl
  | stop _ hexec =>
    rw [apply_filterMap_cons]
    exact (memory_execute ha hexec).1
  | next _ hexec _ ih =>
    obtain ⟨hmemory, ha₁⟩ := memory_execute ha hexec
    rw [apply_filterMap_cons, ← hmemory]
    exact ih ha₁

/-- **At every instruction of a run the memory is the one at the start with the log so far.** -/
theorem Run.memory_at (h : Run a p ip m vs finish m') (ha : m.addressing = a)
    {before after : List Visit} {v : Visit} (hvs : vs = before ++ v :: after) :
    v.machine.memory = m.memory.apply (before.filterMap Visit.memoryWrite?) := by
  induction h generalizing before with
  | leave => simp at hvs
  | @stop k i m m' finish hi hexec =>
    cases before with
    | nil =>
      cases hvs
      rfl
    | cons u before => simp at hvs
  | @next k i m m₁ m' target vs finish hi hexec _ ih =>
    cases before with
    | nil =>
      cases hvs
      rfl
    | cons u before =>
      cases hvs
      obtain ⟨hmemory, ha₁⟩ := memory_execute ha hexec
      rw [apply_filterMap_cons, ← hmemory]
      exact ih ha₁ rfl

/-- In full addressing the words that the windows hide keep their values. -/
theorem get_apply_of_windowStart_le (hfull : ∀ v ∈ vs, v.machine.addressing = .full) {addr : Nat}
    (hlow : windowStart ≤ addr) (hhigh : addr < memorySize) (mem : Memory) :
    (mem.apply (vs.filterMap Visit.memoryWrite?)).get addr = mem.get addr := by
  refine Memory.get_apply_of_forall_ne (fun w hw heq => ?_) mem
  obtain ⟨v, hv, hwrite⟩ := List.mem_filterMap.1 hw
  have hlt := Visit.addr_lt_of_memoryWrite? hwrite (hfull v hv)
  have hval : w.addr.val = addr % memorySize := congrArg Fin.val heq
  rw [Nat.mod_eq_of_lt hhigh] at hval
  omega

end Machine

/-! ## What a session writes -/

namespace Player

variable {fuel : Nat} {p p' : Player} {action : Action} {reply : Reply} {s : Sample} {x y : UInt8}
  {log : List Write}

open Machine (dispatch visits)

/-- What an action writes to memory: a sample writes what its passes write, in order.  Loading
writes nothing. -/
def writes (fuel : Nat) (p : Player) : Action → List Write
  | .poke addr w => [⟨Memory.wrap addr.toNat, w⟩]
  | .sample x y => (p.passes fuel x y).flatMap fun (start, m) => m.writes p.program fuel start
  | .load _ | .reload | .setTime _ | .peek _ => []

/-- Whether an action clears the memory. -/
def clears (p : Player) : Action → Bool
  | .load _ | .reload => p.config.clearMemoryOnLoad
  | .sample _ _ | .setTime _ | .poke _ _ | .peek _ => false

/-- The players that sessions lead to, each with the log of all writes since the memory was last
cleared. -/
inductive Logged : Player → List Write → Prop where
  | new {fuel : Nat} {config : Config} {p : Player} : new fuel config = some p → Logged p []
  | ofSource {fuel : Nat} {source : String} {config : Config} {p : Player} :
      ofSource fuel source config = some p → Logged p []
  | act {fuel : Nat} {action : Action} {reply : Reply} {p p' : Player} {log : List Write} :
      Logged p log → p.act fuel action = some (reply, p') →
        Logged p' (if p.clears action then [] else log ++ p.writes fuel action)

theorem Logged.reachable (h : p.Logged log) : p.Reachable := by
  induction h with
  | new h => exact .new h
  | ofSource h => exact .ofSource h
  | act _ h ih => exact .act ih h

/-- A pass of a player makes its log on the memory. -/
theorem memory_of_pass (hp : p.Consistent) {start : Int} {m m' : Machine} {finish : PassEnd}
    (h : dispatch p.code fuel start m = some (finish, m'))
    (hm : m.addressing = p.config.addressing) :
    m'.memory = m.memory.apply (m.writes p.program fuel start) ∧
      m'.addressing = p.config.addressing := by
  rw [hp.code_eq, ← hm] at h
  have hrun := Machine.run_of_dispatch h
  refine ⟨hrun.memory rfl, ?_⟩
  rw [Machine.toContext_eq hrun.fixed.1]
  exact hm

/-- **A sample makes the logs of its passes on the memory.** -/
theorem memory_of_sample (hp : p.Consistent) (h : p.sample fuel x y = some (s, p')) :
    p'.machine.memory = p.machine.memory.apply (p.writes fuel (.sample x y)) := by
  obtain ⟨finish, m₁, hfirst, hcases⟩ := sample_cases h
  obtain ⟨hmemory₁, haddressing₁⟩ := memory_of_pass hp hfirst hp.built.addressing
  rcases hcases with ⟨fault, -, rfl, hpasses⟩ | ⟨start, fault, m₂, rfl, hsecond, hpasses⟩
  · simp only [writes, hpasses, List.flatMap_cons, List.flatMap_nil, List.append_nil]
    exact hmemory₁
  · obtain ⟨hmemory₂, -⟩ := memory_of_pass hp hsecond haddressing₁
    simp only [writes, hpasses, List.flatMap_cons, List.flatMap_nil, List.append_nil,
      Memory.apply_append]
    refine hmemory₂.trans ?_
    show m₁.memory.apply _ = _
    rw [hmemory₁]
    rfl

/-- What one action does to the memory. -/
theorem memory_of_act (hp : p.Consistent) (h : p.act fuel action = some (reply, p')) :
    p'.machine.memory = if p.clears action then .zero
      else p.machine.memory.apply (p.writes fuel action) := by
  cases action with
  | load source =>
    obtain ⟨q, hq, heq⟩ := Option.map_eq_some_iff.1 h
    cases heq
    exact (reload_keeps hq).2.2.2.2
  | reload =>
    obtain ⟨q, hq, heq⟩ := Option.map_eq_some_iff.1 h
    cases heq
    exact (reload_keeps hq).2.2.2.2
  | sample x y =>
    obtain ⟨⟨s, q⟩, hq, heq⟩ := Option.map_eq_some_iff.1 h
    cases heq
    exact memory_of_sample hp hq
  | setTime t =>
    cases h
    rfl
  | poke addr w =>
    cases h
    show p.machine.memory.put addr.toNat w = p.machine.memory.put (addr.toNat % memorySize) w
    simp only [Memory.put, Memory.wrap, Nat.mod_mod]
  | peek addr =>
    cases h
    rfl

/-- **The memory of a player is its log, made on nothing.** -/
theorem Logged.memory (h : p.Logged log) : p.machine.memory = Memory.zero.apply log := by
  induction h with
  | new h =>
    have hmemory := (reload_keeps h).2.2.2.2
    rw [hmemory]
    split <;> rfl
  | ofSource h => exact (ofSource_keeps h).2.2
  | act hlogged hact ih =>
    rw [memory_of_act hlogged.reachable.consistent hact]
    split
    · rfl
    · rw [ih, Memory.apply_append]

/-- **Memory is exactly the log of the writes performed.**  Let a machine run a program compiled for
its own addressing from any address to an end.  The memory it leaves, and the memory at every
instruction on the way, is the one it began with and the writes to memory made on it that stores
and definitions performed until then, in order; in full addressing the words behind the windows
never change; and the context never changes.  In a session, what is read at an address is the last
word that was written there by hand or by a pass of a sample since the memory was cleared, and zero
if there was none: the dry passes of loading leave no trace. -/
theorem memory_is_log_of_writes :
    (∀ (p : Program) (fuel : Nat) (start : Int) (m : Machine) (finish : PassEnd) (m' : Machine),
      dispatch (p.compile m.addressing) fuel start m = some (finish, m') →
        m'.memory = m.memory.apply (m.writes p fuel start) ∧
        (∀ before v after, visits m.addressing p fuel start m = before ++ v :: after →
          v.machine.memory = m.memory.apply (before.filterMap Visit.memoryWrite?)) ∧
        (m.addressing = .full → ∀ addr, windowStart ≤ addr → addr < memorySize →
          m'.memory.get addr = m.memory.get addr ∧
            ∀ v ∈ visits m.addressing p fuel start m,
              v.machine.memory.get addr = m.memory.get addr) ∧
        m'.toContext = m.toContext ∧
          ∀ v ∈ visits m.addressing p fuel start m, v.machine.toContext = m.toContext) ∧
    ∀ (p : Player) (log : List Write), p.Logged log → ∀ addr : UInt32,
      p.peek addr = (Write.last? log (Memory.wrap addr.toNat)).getD 0 := by
  constructor
  · intro p fuel start m finish m' h
    have hrun := Machine.run_of_dispatch h
    have hcontext : ∀ v ∈ visits m.addressing p fuel start m, v.machine.toContext = m.toContext :=
      fun v hv => Machine.toContext_eq (hrun.fixed.2 v hv)
    refine ⟨hrun.memory rfl, fun before v after => hrun.memory_at rfl, ?_,
      Machine.toContext_eq hrun.fixed.1, hcontext⟩
    intro hfull addr hlow hhigh
    have haddressing : ∀ v ∈ visits m.addressing p fuel start m, v.machine.addressing = .full := by
      intro v hv
      rw [hcontext v hv]
      exact hfull
    constructor
    · rw [hrun.memory rfl]
      exact Machine.get_apply_of_windowStart_le haddressing hlow hhigh _
    · intro v hv
      obtain ⟨before, after, hvs⟩ := List.append_of_mem hv
      rw [hrun.memory_at rfl hvs]
      refine Machine.get_apply_of_windowStart_le (fun u hu => ?_) hlow hhigh _
      exact haddressing u (by rw [hvs]; exact List.mem_append_left _ hu)
  · intro p log hlogged addr
    rw [peek, hlogged.memory, Memory.get_apply, Memory.get_zero]

/-- A program that stores seven in memory and nine through the window of the data stack; and a
session that samples it, and then loads a program whose dry pass stores eight in the place of the
seven. -/
theorem seven_is_kept :
    (∃ m', dispatch ((Program.parse "7 1!9 2.000D!").compile (Machine.fresh .full).addressing) 9 0
        (.fresh .full) = some (.halted .endOfProgram, m') ∧
      m'.memory = (Machine.fresh .full).memory.apply [⟨1, 0x70000⟩]) ∧
    ∃ q s q' p, ofSource 9 "7 1!9 2.000D!" {} = some q ∧ q.sample 9 0 0 = some (s, q') ∧
      q'.load 9 "8 1!" = some p ∧ p.peek 0x100001 = 0x70000 := by
  constructor
  · obtain ⟨m', hrun⟩ : ∃ m', dispatch
        ((Program.parse "7 1!9 2.000D!").compile (Machine.fresh .full).addressing) 9 0
          (.fresh .full) = some (.halted .endOfProgram, m') := ⟨_, rfl⟩
    exact ⟨m', hrun, (memory_is_log_of_writes.1 _ _ _ _ _ _ hrun).1⟩
  · obtain ⟨q, s, q', p, hq, hsample, hload, hkeep, hwrites⟩ : ∃ q s q' p,
        ofSource 9 "7 1!9 2.000D!" {} = some q ∧ q.sample 9 0 0 = some (s, q') ∧
          q'.load 9 "8 1!" = some p ∧ q'.config.clearMemoryOnLoad = false ∧
          q.writes 9 (.sample 0 0) = [⟨1, 0x70000⟩] := ⟨_, _, _, _, rfl, rfl, rfl, rfl, rfl⟩
    have hlast : q'.act 9 (.load "8 1!") = some (.done, p) :=
      Option.map_eq_some_iff.2 ⟨p, hload, rfl⟩
    have hlogged : p.Logged [⟨1, 0x70000⟩] := by
      have hact := Logged.act (.act (.ofSource hq) (act_sample hsample)) hlast
      have hnothing : q'.writes 9 (.load "8 1!") = [] := rfl
      simpa [hwrites, hnothing, clears, hkeep] using hact
    refine ⟨q, s, q', p, hq, hsample, hload, ?_⟩
    rw [memory_is_log_of_writes.2 p _ hlogged]
    decide

end Player
end GlyphMachine
