import GlyphMachine.Player
import GlyphMachine.Stack.Lemmas

/-!
# What a pass reads and what it leaves alone

The context of a sample stands beside the stacks and the memory of a machine.  No operation and no
transfer changes it, nor the room on the stacks, and a program sees little of it.

* `dispatch_last` — the last block of a run that ended, with what every block before it preserves.
* `fixed_dispatch` — a run changes neither the context nor the capacities.
* `halted_of_dispatch` — a run that may not switch media halts.
* `dispatch_withContext` — contexts with the same addressing and the same words lead to the same
  run; leave to switch media makes no difference to a run that does not use it.
* `runPass_congr` — what a pass does depends on the machine at rest.
-/

namespace GlyphMachine

/-- Two contexts that straight-line operations cannot tell apart. -/
structure Context.Alike (c d : Context) : Prop where
  addressing : c.addressing = d.addressing
  words : c.words = d.words

namespace Machine

variable {code : Code} {fuel : Nat} {ip : Int} {m m' : Machine} {finish : PassEnd}

/-! ## Runs -/

/-- The last step of a run that ended: control left the program, or a block ended the run.  What
every block preserves held until then. -/
theorem dispatch_last {I : Machine → Prop}
    (hblock : ∀ {addr b m}, code.rest? addr = some b → I m → I (m.runBlock b).2)
    (h : dispatch code fuel ip m = some (finish, m')) (hm : I m) :
    ∃ m₁, I m₁ ∧ ((∃ target, finish = leaveAt code.size target ∧ m' = m₁) ∨
      ∃ addr b, code.rest? addr = some b ∧ m₁.runBlock b = (.stop finish, m')) := by
  induction fuel generalizing ip m with
  | zero => cases h
  | succ fuel ih =>
    unfold dispatch at h
    split at h
    · cases h
      exact ⟨_, hm, .inl ⟨ip, rfl, rfl⟩⟩
    · rename_i b hb
      obtain ⟨addr, -, haddr⟩ := Option.bind_eq_some_iff.1 hb
      split at h
      · rename_i target m₁ hrun
        have hm₁ : I m₁ := by
          have := hblock haddr hm
          rwa [hrun] at this
        exact ih h hm₁
      · rename_i finish' m₁ hrun
        cases h
        exact ⟨m, hm, .inr ⟨addr, b, haddr, hrun⟩⟩

/-- What every block preserves, a run preserves. -/
theorem dispatch_preserves {I : Machine → Prop}
    (hblock : ∀ {addr b m}, code.rest? addr = some b → I m → I (m.runBlock b).2)
    (h : dispatch code fuel ip m = some (finish, m')) (hm : I m) : I m' := by
  obtain ⟨m₁, hm₁, ⟨target, -, rfl⟩ | ⟨addr, b, haddr, hrun⟩⟩ := dispatch_last hblock h hm
  · exact hm₁
  · have := hblock haddr hm₁
    rwa [hrun] at this

/-! ## The context and the room on the stacks -/

/-- What no instruction can change. -/
def fixed (m : Machine) : Context × Nat × Nat :=
  (m.toContext, m.data.capacity, m.control.capacity)

theorem fixed_put (m : Machine) (addr : Nat) (w : Word) : (m.put addr w).fixed = m.fixed := by
  unfold put
  split <;> simp [fixed]

theorem fixed_pushContext (m : Machine) : m.pushContext.fixed = m.fixed := by
  have hcapacity : ∀ (ws : List Word) (s : Stack),
      (ws.foldl Stack.push s).capacity = s.capacity := by
    intro ws
    induction ws with
    | nil => exact fun s => rfl
    | cons w ws ih =>
      intro s
      rw [List.foldl_cons, ih, Stack.capacity_push]
  simp [fixed, pushContext, hcapacity]

theorem fixed_step (m : Machine) (op : Op) : (m.step op).fixed = m.fixed := by
  cases op with
  | store | storeAt | define | defineAt => exact fixed_put _ _ _
  | context => exact fixed_pushContext m
  | _ => simp [step, fixed, Stack.pop, Stack.unary, Stack.binary]

theorem fixed_steps (m : Machine) (ops : List Op) : (m.steps ops).fixed = m.fixed := by
  induction ops generalizing m with
  | nil => rfl
  | cons op ops ih => exact (ih (m.step op)).trans (fixed_step m op)

theorem fixed_transfer (m : Machine) (exit : Exit) : (m.transfer exit).2.fixed = m.fixed := by
  cases exit with
  | loopWhile next =>
    simp only [transfer]
    split <;> simp [fixed, Stack.pop]
  | countDown next =>
    simp only [transfer]
    split
    · simp [fixed]
    · split <;> simp [fixed]
  | call back slot => cases slot <;> simp [transfer, fixed, Stack.pop]
  | switch addr resume =>
    simp only [transfer]
    split <;> simp [fixed, Stack.pop]
  | _ => simp [transfer, fixed, Stack.pop]

theorem fixed_runBlock (m : Machine) (b : Block) : (m.runBlock b).2.fixed = m.fixed :=
  (fixed_transfer _ _).trans (fixed_steps _ _)

/-- **A run changes neither the context nor the room on the stacks.** -/
theorem fixed_dispatch (h : dispatch code fuel ip m = some (finish, m')) : m'.fixed = m.fixed :=
  dispatch_preserves (I := fun n => n.fixed = m.fixed)
    (fun _ hn => (fixed_runBlock _ _).trans hn) h rfl

theorem toContext_eq (h : m'.fixed = m.fixed) : m'.toContext = m.toContext := congrArg (·.1) h

/-! ## Leave to switch media -/

/-- Only two exits stop a run. -/
theorem exit_of_stop {exit : Exit} (h : m.transfer exit = (.stop finish, m')) :
    (∃ addr, exit = .terminate addr) ∨ ∃ addr resume, exit = .switch addr resume := by
  cases exit with
  | loopWhile next =>
    simp only [transfer] at h
    split at h <;> cases h
  | countDown next =>
    simp only [transfer] at h
    split at h
    · cases h
    · split at h <;> cases h
  | call back slot => cases slot <;> cases h
  | switch addr resume => exact .inr ⟨addr, resume, rfl⟩
  | terminate addr => exact .inl ⟨addr, rfl⟩
  | _ => cases h

theorem halted_of_transfer {exit : Exit} (h : m.transfer exit = (.stop finish, m'))
    (hmay : m.maySwitch = false) : ∃ fault, finish = .halted fault := by
  rcases exit_of_stop h with ⟨addr, rfl⟩ | ⟨addr, resume, rfl⟩
  · cases h
    exact ⟨_, rfl⟩
  · simp only [transfer, hmay] at h
    cases h
    exact ⟨_, rfl⟩

/-- **Without leave to switch media a run halts.** -/
theorem halted_of_dispatch (h : dispatch code fuel ip m = some (finish, m'))
    (hmay : m.maySwitch = false) : ∃ fault, finish = .halted fault := by
  obtain ⟨m₁, hm₁, ⟨target, rfl, -⟩ | ⟨addr, b, -, hrun⟩⟩ :=
    dispatch_last (I := fun n => n.fixed = m.fixed)
      (fun _ hn => (fixed_runBlock _ _).trans hn) h rfl
  · exact ⟨_, rfl⟩
  · refine halted_of_transfer hrun ?_
    have hcontext := toContext_eq ((fixed_steps m₁ b.ops).trans hm₁)
    rw [hcontext]
    exact hmay

/-! ## Other contexts -/

/-- The machine in another context. -/
def withContext (m : Machine) (c : Context) : Machine := { m with toContext := c }

section WithContext

variable {c : Context} (h : c.Alike m.toContext)
include h

theorem get_withContext (addr : Nat) : (m.withContext c).get addr = m.get addr := by
  unfold get withContext
  rw [h.addressing]

theorem put_withContext (addr : Nat) (w : Word) :
    (m.withContext c).put addr w = (m.put addr w).withContext c := by
  unfold put withContext
  simp only [h.addressing]
  split <;> rfl

theorem pushContext_withContext :
    (m.withContext c).pushContext = m.pushContext.withContext c := by
  unfold pushContext withContext
  rw [h.words]

theorem step_withContext (op : Op) :
    (m.withContext c).step op = (m.step op).withContext c := by
  -- addresses are read after the operands are popped, which leaves the context as it is
  have hget : ∀ data addr, ({ m with data }.withContext c).get addr = { m with data }.get addr :=
    fun data addr => get_withContext (m := { m with data }) h addr
  have hput : ∀ data addr w,
      ({ m with data }.withContext c).put addr w = ({ m with data }.put addr w).withContext c :=
    fun data addr w => put_withContext (m := { m with data }) h addr w
  cases op with
  | load => exact congrArg (fun w => { m with data := m.data.drop.push w }.withContext c) (hget _ _)
  | loadAt addr =>
    exact congrArg (fun w => { m with data := m.data.push w }.withContext c) (hget _ _)
  | store | storeAt | define | defineAt => exact hput _ _ _
  | context => exact pushContext_withContext h
  | _ => rfl

end WithContext

theorem steps_withContext {c : Context} (h : c.Alike m.toContext) (ops : List Op) :
    (m.withContext c).steps ops = (m.steps ops).withContext c := by
  induction ops generalizing m with
  | nil => rfl
  | cons op ops ih =>
    have hop : c.Alike (m.step op).toContext := by
      rw [toContext_eq (fixed_step m op)]
      exact h
    show ((m.withContext c).step op).steps ops = _
    rw [step_withContext h, ih hop]
    rfl

/-- Leave to switch media matters to one transfer only. -/
theorem transfer_withContext {c : Context} (h : c.Alike m.toContext) {exit : Exit}
    (hmay : c.maySwitch = m.maySwitch ∨ ∀ addr resume, exit ≠ .switch addr resume) :
    (m.withContext c).transfer exit =
      ((m.transfer exit).1, (m.transfer exit).2.withContext c) := by
  cases exit with
  | loopWhile next =>
    by_cases hzero : m.data.top = 0 <;> simp [transfer, withContext, Stack.pop, hzero]
  | countDown next =>
    by_cases hsize : m.control.size < 2
    · simp [transfer, withContext, hsize]
    · by_cases hzero : m.control.fromTop 1 - Word.one = 0 <;>
        simp [transfer, withContext, hsize, hzero]
  | call back slot =>
    -- the slot is read after the return address is pushed
    have hget : ∀ data control addr,
        ({ m with data, control }.withContext c).get addr = { m with data, control }.get addr :=
      fun data control addr => get_withContext (m := { m with data, control }) h addr
    cases slot with
    | none => exact congrArg (fun w => (Flow.goto (Word.offset w), _)) (hget _ _ _)
    | some addr => exact congrArg (fun w => (Flow.goto (Word.offset w), _)) (hget _ _ _)
  | switch addr resume =>
    rcases hmay with hmay | hmay
    · simp only [transfer, withContext, hmay]
      split <;> rfl
    · exact absurd rfl (hmay addr resume)
  | _ => rfl

theorem runBlock_withContext {c : Context} (h : c.Alike m.toContext) {b : Block}
    (hmay : c.maySwitch = m.maySwitch ∨ ∀ addr resume, b.exit ≠ .switch addr resume) :
    (m.withContext c).runBlock b = ((m.runBlock b).1, (m.runBlock b).2.withContext c) := by
  have hcontext := toContext_eq (fixed_steps m b.ops)
  unfold runBlock
  rw [steps_withContext h]
  refine transfer_withContext ?_ ?_
  · rw [hcontext]
    exact h
  · rw [hcontext]
    exact hmay

/-- A block that may switch media, and does not end the run so, does not end in a switch. -/
theorem exit_ne_switch {b : Block} {flow : Flow} (hrun : m.runBlock b = (flow, m'))
    (hmay : m.maySwitch = true) (hflow : ∀ video resume, flow ≠ .stop (.switched video resume))
    (addr resume : Nat) : b.exit ≠ .switch addr resume := by
  intro hexit
  have hmay' : (m.steps b.ops).maySwitch = true := by
    rw [toContext_eq (fixed_steps m b.ops)]
    exact hmay
  rw [runBlock, hexit] at hrun
  simp only [transfer, hmay', if_true] at hrun
  exact hflow _ _ (congrArg Prod.fst hrun).symm

/-- **Alike contexts lead to the same run.**  They may differ in the leave to switch media when the
run has it and halts all the same. -/
theorem dispatch_withContext {c : Context} (h : c.Alike m.toContext)
    (hrun : dispatch code fuel ip m = some (finish, m'))
    (hmay : c.maySwitch = m.maySwitch ∨
      m.maySwitch = true ∧ ∀ video resume, finish ≠ .switched video resume) :
    dispatch code fuel ip (m.withContext c) = some (finish, m'.withContext c) := by
  induction fuel generalizing ip m with
  | zero => cases hrun
  | succ fuel ih =>
    unfold dispatch at hrun ⊢
    split at hrun
    · cases hrun
      rfl
    · rename_i b hb
      split at hrun
      · rename_i target m₁ hblock
        have hcontext : m₁.toContext = m.toContext := by
          have := fixed_runBlock m b
          rw [hblock] at this
          exact toContext_eq this
        have hexit : c.maySwitch = m.maySwitch ∨ ∀ addr resume, b.exit ≠ .switch addr resume :=
          hmay.imp_right fun hm => exit_ne_switch hblock hm.1 (by simp)
        simp only [runBlock_withContext h hexit, hblock]
        rw [← hcontext] at h hmay
        exact ih h hrun hmay
      · rename_i finish' m₁ hblock
        cases hrun
        have hexit : c.maySwitch = m.maySwitch ∨ ∀ addr resume, b.exit ≠ .switch addr resume :=
          hmay.imp_right fun hm => exit_ne_switch hblock hm.1 (by simpa using hm.2)
        simp only [runBlock_withContext h hexit, hblock]

/-! ## Machines at rest -/

/-- The machine between two passes: nothing is left on the stacks, and no sample is computed. -/
def atRest (m : Machine) : Machine := { m.reset .video 0 0 with maySwitch := false }

/-- The state in which a pass starts. -/
def passStart (pass : Pass) (maySwitch : Bool) (x y : UInt8) (m : Machine) : Machine :=
  { m.reset pass x y with maySwitch }.pushContext

/-- The state in which a dry pass starts. -/
def dryStart (m : Machine) : Machine :=
  let m := { m.reset .video 0 0 with layout := none, maySwitch := false, memory := .zero }
  { m with data := ((m.data.push 0).push 0).push 0 }

/-- Machines that are the same at rest run the same passes. -/
theorem runPass_congr {m n : Machine} (h : m.atRest = n.atRest) (code : Code) (fuel start : Nat)
    (pass : Pass) (maySwitch : Bool) (x y : UInt8) :
    m.runPass code fuel start pass maySwitch x y =
      n.runPass code fuel start pass maySwitch x y := by
  have hstart : m.atRest.passStart pass maySwitch x y = n.atRest.passStart pass maySwitch x y := by
    rw [h]
  -- a pass clears the stacks and sets all that resting forgets
  exact congrArg (dispatch code fuel start) hstart

theorem dryRun_eq (code : Code) (fuel : Nat) (m : Machine) :
    m.dryRun code fuel =
      (dispatch code fuel 0 m.dryStart).map fun r => { r.2 with memory := m.memory } := by
  show (dispatch code fuel 0 m.dryStart).bind _ = _
  cases dispatch code fuel 0 m.dryStart <;> rfl

/-- After a pass the machine at rest has nothing new but its memory. -/
theorem atRest_of_runPass {start : Nat} {pass : Pass} {maySwitch : Bool} {x y : UInt8}
    (h : m.runPass code fuel start pass maySwitch x y = some (finish, m')) :
    m'.atRest = { m.atRest with memory := m'.memory } := by
  have hfixed : m'.fixed = { m.reset pass x y with maySwitch }.fixed :=
    (fixed_dispatch h).trans (fixed_pushContext _)
  simp only [fixed, Prod.mk.injEq] at hfixed
  obtain ⟨hcontext, hdata, hcontrol⟩ := hfixed
  simp only [atRest, reset, hcontext, Stack.clear, hdata, hcontrol]

end Machine
end GlyphMachine
