import GlyphMachine.Code.Lower
import GlyphMachine.Machine.Dispatch

/-!
# Running one instruction at a time

The plain reading of a program: the state is an address and a machine, and one step performs the
instruction at that address.  No blocks, no entries.

* `Machine.execute` — what one lowered instruction does to a machine.
* `Machine.advance` — one step from an address; outside the program the run ends.
* `Machine.interpret` — steps until the run ends, for at most `fuel` of them.
* `Machine.Path` — a number of steps that do not end the run.

`interpret_mono` and `interpret_unique`: how a run ends does not depend on the fuel.
-/

namespace GlyphMachine.Machine

variable {a : Addressing} {p : Program}

/-- Performs one lowered instruction: its operation, then its transfer.  Without a transfer
control goes on to `next`. -/
def execute (m : Machine) (next : Nat) (l : Lowered) : Flow × Machine :=
  match l.exit with
  | none => (.goto next, m.steps l.op.toList)
  | some exit => (m.steps l.op.toList).transfer exit

/-- One step from the address `ip`. -/
def advance (a : Addressing) (p : Program) (ip : Int) (m : Machine) : Flow × Machine :=
  if ip = p.length then (.stop (.halted .endOfProgram), m)
  else
    match ip.toNat?.bind (p[·]?) with
    | none => (.stop (.halted (.outOfRange (reportedTarget ip))), m)
    | some i => m.execute (ip.toNat + 1) (i.lower a ip.toNat)

/-- Runs `p` from `ip`, for at most `fuel` instructions. -/
def interpret (a : Addressing) (p : Program) :
    (fuel : Nat) → (ip : Int) → Machine → Option (PassEnd × Machine)
  | 0, _, _ => none
  | fuel + 1, ip, m =>
    match m.advance a p ip with
    | (.goto target, m) => interpret a p fuel target m
    | (.stop finish, m) => some (finish, m)

/-- What is left of a run after a step or a block. -/
def proceed (a : Addressing) (p : Program) (fuel : Nat) :
    Flow × Machine → Option (PassEnd × Machine)
  | (.goto target, m) => interpret a p fuel target m
  | (.stop finish, m) => some (finish, m)

theorem interpret_succ (fuel : Nat) (ip : Int) (m : Machine) :
    interpret a p (fuel + 1) ip m = proceed a p fuel (m.advance a p ip) := by
  rw [interpret]
  split <;> rename_i h <;> rw [h] <;> rfl

/-! ## Single steps -/

/-- Inside the program the instruction at the address is performed. -/
theorem advance_of_getElem? {k : Nat} {i : Instruction} (h : p[k]? = some i) (m : Machine) :
    m.advance a p k = m.execute (k + 1) (i.lower a k) := by
  obtain ⟨hk, -⟩ := List.getElem?_eq_some_iff.1 h
  have hne : ¬ (k : Int) = p.length := by omega
  unfold advance
  rw [if_neg hne]
  simp [Int.toNat?, h]

/-- After the last instruction the run ends. -/
theorem advance_length (m : Machine) :
    m.advance a p p.length = (.stop (.halted .endOfProgram), m) := by
  unfold advance
  rw [if_pos rfl]

/-- Outside the program the run ends as a run of blocks does. -/
theorem advance_of_outside {ip : Int} (h : ip < 0 ∨ (p.length : Int) ≤ ip) (m : Machine) :
    m.advance a p ip = (.stop (leaveAt p.length ip), m) := by
  unfold advance leaveAt
  split
  · rfl
  · have hnone : ip.toNat?.bind (p[·]?) = none := by
      cases ip with
      | ofNat k =>
        have hk : p.length ≤ k := by
          rcases h with h | h
          · exact absurd h (by simp)
          · exact Int.ofNat_le.1 h
        simpa [Int.toNat?] using hk
      | negSucc k => rfl
    rw [hnone]

/-! ## Fuel -/

/-- A run that ended ends in the same way with more fuel. -/
theorem interpret_mono {fuel more : Nat} (hle : fuel ≤ more) {ip : Int} {m : Machine}
    {r : PassEnd × Machine} (h : interpret a p fuel ip m = some r) :
    interpret a p more ip m = some r := by
  induction fuel generalizing more ip m with
  | zero => cases h
  | succ fuel ih =>
    obtain ⟨more, rfl⟩ : ∃ k, more = k + 1 := ⟨more - 1, by omega⟩
    rw [interpret_succ] at h ⊢
    rcases hf : m.advance a p ip with ⟨target | finish, m'⟩
    · rw [hf] at h
      exact ih (by omega) h
    · rwa [hf] at h

/-- How a run ends does not depend on the fuel. -/
theorem interpret_unique {fuel other : Nat} {ip : Int} {m : Machine} {r s : PassEnd × Machine}
    (hr : interpret a p fuel ip m = some r) (hs : interpret a p other ip m = some s) : r = s := by
  have h₁ := interpret_mono (Nat.le_max_left fuel other) hr
  have h₂ := interpret_mono (Nat.le_max_right fuel other) hs
  exact Option.some.inj (h₁.symm.trans h₂)

/-! ## Paths -/

/-- `Path a p n ip m ip' m'`: after `n` steps from `ip` in state `m` the run goes on at `ip'` in
state `m'`. -/
inductive Path (a : Addressing) (p : Program) : Nat → Int → Machine → Int → Machine → Prop where
  | refl (ip : Int) (m : Machine) : Path a p 0 ip m ip m
  | step {n : Nat} {ip target ip' : Int} {m m₁ m' : Machine} :
      m.advance a p ip = (.goto target, m₁) → Path a p n target m₁ ip' m' →
      Path a p (n + 1) ip m ip' m'

namespace Path

variable {n k : Nat} {ip ip₁ ip' : Int} {m m₁ m' : Machine}

theorem single (h : m.advance a p ip = (.goto ip', m')) : Path a p 1 ip m ip' m' :=
  .step h (.refl ip' m')

theorem trans (h : Path a p n ip m ip₁ m₁) (h' : Path a p k ip₁ m₁ ip' m') :
    Path a p (n + k) ip m ip' m' := by
  induction h with
  | refl => simpa using h'
  | step hadv _ ih =>
    rw [Nat.succ_add_eq_add_succ]
    exact .step hadv (ih h')

/-- A run goes on where the path ends. -/
theorem interpret_add (h : Path a p n ip m ip' m') (fuel : Nat) :
    interpret a p (n + fuel) ip m = interpret a p fuel ip' m' := by
  induction h with
  | refl => rw [Nat.zero_add]
  | @step n ip target ip' m m₁ m' hadv _ ih =>
    rw [Nat.succ_add, interpret_succ, hadv]
    exact ih

end Path
end GlyphMachine.Machine
