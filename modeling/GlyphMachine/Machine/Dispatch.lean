import GlyphMachine.Machine.Step

/-!
# Running code

`Machine.dispatch` runs blocks from an address until the pass ends.  A pass may go on for ever,
so the number of blocks it may run is given; `none` means that it was still running after that
many.  Once a pass has ended, more fuel changes nothing (`dispatch_mono`).
-/

namespace GlyphMachine.Machine

/-- Fuel for passes that may take their time: more blocks than anyone can wait for. -/
def ampleFuel : Nat := 4611686018427387904

/-- Performs operations in order. -/
@[inline]
def steps (m : Machine) (ops : List Op) : Machine := ops.foldl step m

/-- Runs a block: its operations, then its exit. -/
@[inline]
def runBlock (m : Machine) (b : Block) : Flow × Machine := (m.steps b.ops).transfer b.exit

/-- A target as it is reported: addresses are 64-bit numbers, and those in the upper half read
as negative. -/
def reportedTarget (target : Int) : Int :=
  if 9223372036854775808 ≤ target ∧ target < 18446744073709551616 then
    target - 18446744073709551616
  else target

/-- The end of a pass whose control left the program. -/
def leaveAt (size : Nat) (target : Int) : PassEnd :=
  .halted (if target = size then .endOfProgram else .outOfRange (reportedTarget target))

/-- Runs `code` from `target`, for at most `fuel` blocks. -/
def dispatch (code : Code) :
    (fuel : Nat) → (target : Int) → Machine → Option (PassEnd × Machine)
  | 0, _, _ => none
  | fuel + 1, target, m =>
    match target.toNat?.bind code.rest? with
    | none => some (leaveAt code.size target, m)
    | some block =>
      match m.runBlock block with
      | (.goto target, m) => dispatch code fuel target m
      | (.stop finish, m) => some (finish, m)

/-- A pass that ended ends in the same way with more fuel. -/
theorem dispatch_mono {code : Code} {fuel more : Nat} (hle : fuel ≤ more) {target : Int}
    {m : Machine} {r : PassEnd × Machine} (h : dispatch code fuel target m = some r) :
    dispatch code more target m = some r := by
  induction fuel generalizing more target m with
  | zero => cases h
  | succ fuel ih =>
    obtain ⟨more, rfl⟩ : ∃ k, more = k + 1 := ⟨more - 1, by omega⟩
    unfold dispatch at h ⊢
    split at h
    · exact h
    · split at h
      · exact ih (by omega) h
      · exact h

/-- How a pass ends does not depend on the fuel. -/
theorem dispatch_unique {code : Code} {fuel other : Nat} {target : Int} {m : Machine}
    {r s : PassEnd × Machine} (hr : dispatch code fuel target m = some r)
    (hs : dispatch code other target m = some s) : r = s := by
  have h₁ := dispatch_mono (Nat.le_max_left fuel other) hr
  have h₂ := dispatch_mono (Nat.le_max_right fuel other) hs
  exact Option.some.inj (h₁.symm.trans h₂)

end GlyphMachine.Machine
