import GlyphMachine.Proofs.Blocks
import GlyphMachine.Proofs.Passes

/-!
# What a run performs

A run of code enters block after block, and in each block it performs the instructions from the
address of the entry up to the first that transfers control.  Here that history is written down.

* `Machine.entered` — the blocks that a run of code enters, in order.
* `Machine.visits` — the instructions that it performs, each with the machine it is performed on.
* `Machine.Run` — the same run one instruction at a time, with its visits and its end.
* `run_of_dispatch`, `dispatch_of_run` — a run of the code of a program that ends is a `Run` with
  those visits, and every `Run` is such a run.
* `Run.fixed` — no instruction on the way changes the context or the room on the stacks.
* `Run.ends` — how a run ends: control leaves the program, or the last instruction stops it.
-/

namespace GlyphMachine

open Lowered (blockFrom)

/-- An instruction that a run performs: where it stands, and the machine it is performed on. -/
structure Visit where
  addr : Nat
  instruction : Instruction
  machine : Machine

namespace Machine

variable {a : Addressing} {p : Program} {fuel k : Nat} {ip : Int} {m m' : Machine}
  {finish : PassEnd} {vs : List Visit}

/-! ## Blocks and visits -/

/-- The blocks that a run of `code` from `target` enters within its fuel: the address of each, and
the machine that enters it. -/
def entered (code : Code) : (fuel : Nat) → (target : Int) → Machine → List (Nat × Machine)
  | 0, _, _ => []
  | fuel + 1, target, m =>
    match target.toNat?.bind code.rest? with
    | none => []
    | some block =>
      (target.toNat, m) ::
        match m.runBlock block with
        | (.goto target, m) => entered code fuel target m
        | (.stop _, _) => []

/-- The instructions of `p`, the first of which stands at `addr`, that are performed from `m` on
without a transfer in between. -/
def stretch (a : Addressing) : (addr : Nat) → (p : Program) → Machine → List Visit
  | _, [], _ => []
  | addr, i :: p, m =>
    ⟨addr, i, m⟩ ::
      match (i.lower a addr).exit with
      | some _ => []
      | none => stretch a (addr + 1) p (m.steps (i.lower a addr).op.toList)

/-- The instructions that a run of the code of `p` performs: those of the blocks it enters. -/
def visits (a : Addressing) (p : Program) (fuel : Nat) (target : Int) (m : Machine) : List Visit :=
  (entered (p.compile a) fuel target m).flatMap fun (addr, m) => stretch a addr (p.drop addr) m

theorem entered_of_outside (h : ip < 0 ∨ (p.length : Int) ≤ ip) (fuel : Nat) (m : Machine) :
    entered (p.compile a) fuel ip m = [] := by
  cases fuel with
  | zero => rfl
  | succ fuel => rw [entered, rest?_of_outside h]

theorem entered_of_inside (hk : k < p.length) (fuel : Nat) (m : Machine) :
    entered (p.compile a) (fuel + 1) k m =
      (k, m) :: match m.runBlock (blockFrom p.length ((p.lowered a).drop k)) with
        | (.goto target, m) => entered (p.compile a) fuel target m
        | (.stop _, _) => [] := by
  have hrest : (k : Int).toNat?.bind (p.compile a).rest? =
      some (blockFrom p.length ((p.lowered a).drop k)) := Program.rest?_compile hk
  simp only [entered, hrest]
  rfl

/-! ## Runs, one instruction at a time -/

/-- `Run a p ip m vs finish m'`: from the address `ip` and the machine `m` on, the instructions
`vs` are performed one at a time; then the run has ended with `finish` and left `m'`. -/
inductive Run (a : Addressing) (p : Program) :
    Int → Machine → List Visit → PassEnd → Machine → Prop where
  /-- Control has left the program. -/
  | leave {ip : Int} (m : Machine) : (ip < 0 ∨ (p.length : Int) ≤ ip) →
      Run a p ip m [] (leaveAt p.length ip) m
  | stop {k : Nat} {i : Instruction} {m m' : Machine} {finish : PassEnd} : p[k]? = some i →
      m.execute (k + 1) (i.lower a k) = (.stop finish, m') → Run a p k m [⟨k, i, m⟩] finish m'
  | next {k : Nat} {i : Instruction} {m m₁ m' : Machine} {target : Int} {vs : List Visit}
      {finish : PassEnd} : p[k]? = some i →
      m.execute (k + 1) (i.lower a k) = (.goto target, m₁) → Run a p target m₁ vs finish m' →
      Run a p k m (⟨k, i, m⟩ :: vs) finish m'

/-- What is left of a run after an instruction or a block. -/
def Run.After (a : Addressing) (p : Program) :
    Flow × Machine → List Visit → PassEnd → Machine → Prop
  | (.goto target, m), vs, finish, m' => Run a p target m vs finish m'
  | (.stop last, m), vs, finish, m' => vs = [] ∧ finish = last ∧ m' = m

theorem Run.visit {i : Instruction} (hi : p[k]? = some i)
    (h : Run.After a p (m.execute (k + 1) (i.lower a k)) vs finish m') :
    Run a p k m (⟨k, i, m⟩ :: vs) finish m' := by
  rcases hexec : m.execute (k + 1) (i.lower a k) with ⟨target | last, m₁⟩
  · rw [hexec] at h
    exact .next hi hexec h
  · rw [hexec] at h
    obtain ⟨rfl, rfl, rfl⟩ := h
    exact .stop hi hexec

/-- Running the block of an address performs the instructions of its stretch. -/
theorem Run.of_runBlock (hk : k ≤ p.length)
    (h : Run.After a p (m.runBlock (blockFrom p.length ((p.lowered a).drop k))) vs finish m') :
    Run a p k m (stretch a k (p.drop k) m ++ vs) finish m' := by
  refine Program.block_induction (a := a) (motive := fun k block => ∀ m : Machine,
    Run.After a p (m.runBlock block) vs finish m' →
      Run a p k m (stretch a k (p.drop k) m ++ vs) finish m') ?_ ?_ ?_ hk m h
  · intro m h
    rw [List.drop_length]
    exact h
  · intro k hlt exit hx m h
    rw [List.drop_eq_getElem_cons hlt, stretch, hx]
    refine Run.visit (List.getElem?_eq_getElem hlt) ?_
    simpa [execute, hx, runBlock] using h
  · intro k hlt block hx ih m h
    rw [runBlock_append] at h
    rw [List.drop_eq_getElem_cons hlt, stretch, hx]
    have hexec : m.execute (k + 1) (p[k].lower a k) =
        (.goto (k + 1 : Nat), m.steps (p[k].lower a k).op.toList) := by
      simp [execute, hx]
    exact .next (List.getElem?_eq_getElem hlt) hexec (ih _ h)

/-- **A run of code that ends performs its visits one at a time.** -/
theorem run_of_dispatch (h : dispatch (p.compile a) fuel ip m = some (finish, m')) :
    Run a p ip m (visits a p fuel ip m) finish m' := by
  induction fuel generalizing ip m with
  | zero => cases h
  | succ fuel ih =>
    rcases inside_or_outside p ip with ⟨k, rfl, hk⟩ | hout
    · rw [dispatch_of_inside hk] at h
      simp only [visits, entered_of_inside hk, List.flatMap_cons]
      refine Run.of_runBlock (Nat.le_of_lt hk) ?_
      rcases hrun : m.runBlock (blockFrom p.length ((p.lowered a).drop k)) with
        ⟨target | last, m₁⟩
      · rw [hrun] at h
        exact ih h
      · rw [hrun] at h
        cases h
        exact ⟨rfl, rfl, rfl⟩
    · rw [dispatch_of_outside hout] at h
      cases h
      rw [visits, entered_of_outside hout]
      exact .leave _ hout

theorem interpret_of_run (h : Run a p ip m vs finish m') :
    interpret a p (vs.length + 1) ip m = some (finish, m') := by
  induction h with
  | leave m hout => exact interpret_of_outside hout 0 m
  | stop hi hexec =>
    rw [interpret_succ, advance_of_getElem? hi, hexec]
    rfl
  | next hi hexec _ ih =>
    rw [List.length_cons, interpret_succ, advance_of_getElem? hi, hexec]
    exact ih

/-- **Every run is a run of the code.** -/
theorem dispatch_of_run (h : Run a p ip m vs finish m') :
    ∃ fuel, dispatch (p.compile a) fuel ip m = some (finish, m') :=
  dispatch_of_interpret (interpret_of_run h)

/-! ## The visits of a run -/

theorem fixed_execute (m : Machine) (next : Nat) (l : Lowered) :
    (m.execute next l).2.fixed = m.fixed := by
  unfold execute
  split
  · exact fixed_steps m _
  · exact (fixed_transfer _ _).trans (fixed_steps m _)

/-- **No instruction of a run changes the context or the room on the stacks.** -/
theorem Run.fixed (h : Run a p ip m vs finish m') :
    m'.fixed = m.fixed ∧ ∀ v ∈ vs, v.machine.fixed = m.fixed := by
  induction h with
  | leave m hout => exact ⟨rfl, by simp⟩
  | @stop k i m m' finish hi hexec =>
    have hfixed := fixed_execute m (k + 1) (i.lower a k)
    rw [hexec] at hfixed
    exact ⟨hfixed, by simp⟩
  | @next k i m m₁ m' target vs finish hi hexec _ ih =>
    have hfixed := fixed_execute m (k + 1) (i.lower a k)
    rw [hexec] at hfixed
    refine ⟨ih.1.trans hfixed, fun v hv => ?_⟩
    rcases List.mem_cons.1 hv with rfl | hv
    · rfl
    · exact (ih.2 v hv).trans hfixed

/-- **How a run ends.**  After all its visits control is outside the program, or the last of them
stops the run. -/
theorem Run.ends (h : Run a p ip m vs finish m') :
    (∃ target, Path a p vs.length ip m target m' ∧ (target < 0 ∨ (p.length : Int) ≤ target) ∧
        finish = leaveAt p.length target) ∨
      ∃ before v, vs = before ++ [v] ∧ Path a p before.length ip m v.addr v.machine ∧
        p[v.addr]? = some v.instruction ∧
        v.machine.execute (v.addr + 1) (v.instruction.lower a v.addr) = (.stop finish, m') := by
  induction h with
  | leave m hout => exact .inl ⟨_, .refl _ m, hout, rfl⟩
  | stop hi hexec => exact .inr ⟨[], _, rfl, .refl _ _, hi, hexec⟩
  | next hi hexec _ ih =>
    have hadvance := (advance_of_getElem? hi _).trans hexec
    rcases ih with ⟨target, hpath, hout, hfinish⟩ | ⟨before, v, rfl, hpath, hv, hstop⟩
    · exact .inl ⟨target, .step hadvance hpath, hout, hfinish⟩
    · exact .inr ⟨_ :: before, v, rfl, .step hadvance hpath, hv, hstop⟩

end Machine
end GlyphMachine
