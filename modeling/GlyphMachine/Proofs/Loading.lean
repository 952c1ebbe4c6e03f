import GlyphMachine.Proofs.Sessions

/-!
# Loading changes the program and nothing else

To find the layout of a program, loading runs it: on the machine of the player, with the memory
taken away and put back.  The dry pass may store and push what it likes.  Here it is shown that all
of this is undone, and that the state which a dry pass leaves is one that the next dry pass leaves
as it is.

* `Yields` — what a function of the fuel gives in the end.
* `dryStart_loaded` — a dry pass starts in the same state before and after it.
* `reload_loaded` — hence a player that was just loaded is a fixed point of loading.
* `loading_changes_program_only` — what loading keeps, for every player that a session leads to.
-/

namespace GlyphMachine

/-- `f` gives `x` when it has enough fuel, and never anything else. -/
def Yields {α : Type} (f : Nat → Option α) (x : α) : Prop :=
  (∃ fuel, ∀ more, fuel ≤ more → f more = some x) ∧ ∀ fuel y, f fuel = some y → y = x

namespace Machine

/-- A dry pass forgets everything about a machine but what no instruction can change. -/
theorem dryStart_of_fixed {m n : Machine} (h : n.fixed = m.dryStart.fixed) :
    n.dryStart = m.dryStart := by
  simp only [fixed, Prod.mk.injEq] at h
  obtain ⟨hcontext, hdata, hcontrol⟩ := h
  have hdata' : n.data.capacity = m.data.capacity := by
    simpa [dryStart, reset] using hdata
  have hcontrol' : n.control.capacity = m.control.capacity := hcontrol
  simp only [dryStart, reset, Stack.clear, hcontext, hdata', hcontrol']

end Machine

namespace Player

variable {fuel : Nat} {p p' : Player} {m : Machine} {finish : PassEnd}

/-- The dry pass of the program of a player. -/
def calibration (p : Player) (fuel : Nat) : Option (PassEnd × Machine) :=
  Machine.dispatch ((Program.parse p.source).compile p.config.addressing) fuel 0 p.machine.dryStart

/-- A dry pass that ended decides what loading gives. -/
theorem yields_loaded (h : p.calibration fuel = some (finish, m)) :
    Yields (p.reload ·) (p.loaded m) := by
  constructor
  · refine ⟨fuel, fun more hmore => ?_⟩
    have hrun : p.calibration more = some (finish, m) := Machine.dispatch_mono hmore h
    exact (reload_eq more p).trans (congrArg (Option.map _) hrun)
  · intro other q hq
    obtain ⟨r, hr, rfl⟩ := Option.map_eq_some_iff.1 ((reload_eq other p).symm.trans hq)
    rw [Machine.dispatch_unique hr h]

/-- **The next dry pass starts where the last one started.** -/
theorem dryStart_loaded (h : p.calibration fuel = some (finish, m)) :
    (p.loaded m).machine.dryStart = p.machine.dryStart := by
  -- the layout and the memory, which loading sets, are not seen by a dry pass
  show m.dryStart = p.machine.dryStart
  exact Machine.dryStart_of_fixed (Machine.fixed_dispatch h)

theorem calibration_loaded (h : p.calibration fuel = some (finish, m)) :
    (p.loaded m).calibration fuel = some (finish, m) := by
  unfold calibration
  rw [dryStart_loaded h]
  exact h

/-- What loading makes of a dry pass it makes of it again. -/
theorem loaded_loaded (p : Player) (m : Machine) : (p.loaded m).loaded m = p.loaded m := by
  obtain ⟨⟨addressing, audio, recalcAudio, clears⟩, source, program, code, machine, layout,
    lastFault⟩ := p
  -- memory that was kept is kept again, and memory that was cleared is cleared again
  cases clears <;> rfl

/-- **A player that was just loaded is a fixed point of loading.** -/
theorem reload_loaded (h : p.calibration fuel = some (finish, m)) :
    Yields ((p.loaded m).reload ·) (p.loaded m) := by
  have hagain := yields_loaded (calibration_loaded h)
  rwa [loaded_loaded] at hagain

/-- A player of any past comes to the end of a dry pass that a fresh machine comes to. -/
theorem exists_calibration {layout : Layout} (hp : p.machine.BuiltFor p.config.addressing)
    (h : Calibrates p.source p.config.addressing layout) :
    ∃ fuel finish m, p.calibration fuel = some (finish, m) := by
  obtain ⟨fuel, m, hdry, -⟩ := h
  rw [Machine.dryRun_eq, Option.map_eq_some_iff] at hdry
  obtain ⟨⟨finish, n⟩, hrun, -⟩ := hdry
  exact ⟨fuel, finish, _, Machine.dispatch_dryStart (Machine.builtFor_fresh _) hp hrun⟩

/-- **Loading changes the program and nothing else.**  Take a player that any session leads to and a
text whose dry pass comes to an end.  Loading the text gives one player, whatever the dry pass
stores: the time, the settings and the fault shown are as they were, and so is the memory, unless
it is to be cleared, and then it is zero.  Reading the text of that player again gives the same
player, in every part; and so it does after the text of any player was read again. -/
theorem loading_changes_program_only {p : Player} (hp : p.Reachable) :
    (∀ source, (∃ layout, Calibrates source p.config.addressing layout) →
      ∃ p', Yields (p.load · source) p' ∧ Yields (p'.reload ·) p' ∧
        p'.source = source ∧ p'.time = p.time ∧ p'.config = p.config ∧
        p'.lastFault = p.lastFault ∧
        p'.machine.memory = if p.config.clearMemoryOnLoad then .zero else p.machine.memory) ∧
    ∃ p', Yields (p.reload ·) p' ∧ Yields (p'.reload ·) p' := by
  have hconsistent := hp.consistent
  constructor
  · rintro source ⟨layout, hcalibrates⟩
    obtain ⟨fuel, finish, m, hrun⟩ :=
      exists_calibration (p := { p with source }) hconsistent.built hcalibrates
    have hload := yields_loaded hrun
    obtain ⟨fuel', hfuel'⟩ := hload.1
    obtain ⟨hsource, hconfig, htime, hfault, hmemory⟩ := reload_keeps (hfuel' fuel' (Nat.le_refl _))
    exact ⟨_, hload, reload_loaded hrun, hsource, htime, hconfig, hfault, hmemory⟩
  · obtain ⟨fuel, finish, m, hrun⟩ := exists_calibration hconsistent.built hconsistent.calibrated
    exact ⟨_, yields_loaded hrun, reload_loaded hrun⟩

/-- A player that stored seven and runs at a time of its own loads a program whose dry pass stores
eight in the place of the seven. -/
theorem seven_outlives_dry_pass :
    ∃ p s q p', ofSource 9 "7 5!" {} = some p ∧ p.sample 9 1 2 = some (s, q) ∧
      (∃ layout, Calibrates "8 5!" q.config.addressing layout) ∧
      Yields ((q.setTime 77).load · "8 5!") p' ∧ Yields (p'.reload ·) p' ∧
      p'.peek 5 = 0x70000 ∧ p'.time = 77 := by
  obtain ⟨p, s, q, hp, hsample, hpeek, hkeep, haddressing⟩ : ∃ p s q,
      ofSource 9 "7 5!" {} = some p ∧ p.sample 9 1 2 = some (s, q) ∧ q.peek 5 = 0x70000 ∧
        q.config.clearMemoryOnLoad = false ∧ q.config.addressing = .full :=
    ⟨_, _, _, rfl, rfl, by decide, rfl, rfl⟩
  have hcalibrates : ∃ layout, Calibrates "8 5!" q.config.addressing layout := by
    rw [haddressing]
    exact ⟨_, 9, _, rfl, rfl⟩
  have htime : q.act 0 (.setTime 77) = some (.done, q.setTime 77) := rfl
  have hreachable : (q.setTime 77).Reachable :=
    .act (.act (.ofSource hp) (act_sample hsample)) htime
  obtain ⟨p', hload, hreload, -, htime', -, -, hmemory⟩ :=
    (loading_changes_program_only hreachable).1 "8 5!" hcalibrates
  refine ⟨p, s, q, p', hp, hsample, hcalibrates, hload, hreload, ?_, htime'⟩
  have hmemory' : p'.machine.memory = q.machine.memory := by
    rw [hmemory]
    exact if_neg (by simp [setTime, hkeep])
  rw [← hpeek, peek, peek, hmemory']

end Player
end GlyphMachine
