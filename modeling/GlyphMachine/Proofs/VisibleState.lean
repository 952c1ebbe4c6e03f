import GlyphMachine.Proofs.Sessions

/-!
# A sample depends on nothing but the visible state

What earlier passes left behind is overwritten before it can be read: stacks, coordinates, the
kind of pass, the leave to switch media and the fault shown.  So a player may be replaced by the
same player at rest, and two players that are the same at rest go through any session alike.

* `act_atRest` — an action on a player and on the player at rest: same reply, same state at rest.
* `play_congr` — whole sessions, by induction on the actions.
* `visible_state_decides` — source, settings, memory and time decide everything that is shown.
-/

namespace GlyphMachine.Player

variable {fuel : Nat} {p p' q : Player} {action : Action} {actions : List Action}

/-- Performs actions in order.  The log holds what each of them replied and the memory after it. -/
def play (fuel : Nat) : List Action → Player → Option (List (Reply × Memory) × Player)
  | [], p => some ([], p)
  | action :: actions, p => do
    let (reply, q) ← p.act fuel action
    let (log, r) ← q.play fuel actions
    some ((reply, q.machine.memory) :: log, r)

/-- No session shows a difference between the two players. -/
structure Indistinguishable (p q : Player) : Prop where
  memory : p.machine.memory = q.machine.memory
  log : ∀ fuel actions, (p.play fuel actions).map Prod.fst = (q.play fuel actions).map Prod.fst

/-! ## Players at rest -/

/-- The player between two samples, with the fault forgotten. -/
def atRest (p : Player) : Player := { p with machine := p.machine.atRest, lastFault := none }

/-- A sample starts on fresh stacks and ends with a fault of its own. -/
theorem sample_atRest (fuel : Nat) (x y : UInt8) (p : Player) :
    p.atRest.sample fuel x y = p.sample fuel x y := by
  obtain ⟨config, source, program, code, machine, layout, lastFault⟩ := p
  simp only [sample, atRest, Option.bind_eq_bind]
  rw [Machine.runPass_congr (m := machine.atRest) (n := machine) rfl]
  refine Option.bind_congr fun r hr => ?_
  obtain ⟨finish, m⟩ := r
  cases finish with
  | halted fault => rfl
  | switched video resume =>
    refine Option.bind_congr fun r hr => ?_
    obtain ⟨finish, m'⟩ := r
    -- the fault shown before could only survive a second switch
    obtain ⟨fault, rfl⟩ := Machine.halted_of_dispatch hr rfl
    rfl

/-- What is seen of the outcome of an action or a session: the reply or the log, and the player at
rest. -/
def seen {α : Type} (r : α × Player) : α × Player := (r.1, r.2.atRest)

theorem act_atRest (fuel : Nat) (action : Action) (p : Player) :
    (p.atRest.act fuel action).map seen = (p.act fuel action).map seen := by
  cases action with
  | load source =>
    simp only [act, load, reload_eq, Option.map_map]
    rfl
  | reload =>
    simp only [act, reload_eq, Option.map_map]
    rfl
  | sample x y => rw [act, act, sample_atRest]
  | setTime t => rfl
  | poke addr w => rfl
  | peek addr => rfl

theorem act_congr (h : p.atRest = q.atRest) (fuel : Nat) (action : Action) :
    (p.act fuel action).map seen = (q.act fuel action).map seen := by
  rw [← act_atRest, h, act_atRest]

theorem memory_eq_of_atRest (h : p.atRest = q.atRest) : p.machine.memory = q.machine.memory :=
  congrArg (·.machine.memory) h

theorem play_cons {reply : Reply} (h : p.act fuel action = some (reply, p'))
    (actions : List Action) :
    p.play fuel (action :: actions) =
      (p'.play fuel actions).map (Prod.map ((reply, p'.machine.memory) :: ·) id) := by
  simp only [play, h, Option.bind_eq_bind, Option.bind_some]
  cases p'.play fuel actions <;> rfl

/-- **Players that are the same at rest go through every session alike.** -/
theorem play_congr (h : p.atRest = q.atRest) (fuel : Nat) (actions : List Action) :
    (p.play fuel actions).map seen = (q.play fuel actions).map seen := by
  induction actions generalizing p q with
  | nil => exact congrArg (fun r => some ([], r)) h
  | cons action actions ih =>
    have hact := act_congr h fuel action
    cases hp : p.act fuel action with
    | none =>
      rw [hp] at hact
      have hq : q.act fuel action = none := Option.map_eq_none_iff.1 hact.symm
      simp [play, hp, hq]
    | some r =>
      obtain ⟨reply, p₁⟩ := r
      rw [hp] at hact
      obtain ⟨⟨reply', q₁⟩, hq, hseen⟩ := Option.map_eq_some_iff.1 hact.symm
      simp only [seen, Prod.mk.injEq] at hseen
      obtain ⟨rfl, hrest⟩ := hseen
      have hmemory : q₁.machine.memory = p₁.machine.memory := memory_eq_of_atRest hrest
      -- the first entry of the log is the same, and the rest is by induction
      have hcomm : ∀ (e : Reply × Memory) (o : Option (List (Reply × Memory) × Player)),
          (o.map (Prod.map (e :: ·) id)).map seen = (o.map seen).map (Prod.map (e :: ·) id) := by
        intro e o
        cases o <;> rfl
      rw [play_cons hp, play_cons hq, hmemory, hcomm, hcomm, ih hrest.symm]

theorem indistinguishable_of_atRest (h : p.atRest = q.atRest) : p.Indistinguishable q where
  memory := memory_eq_of_atRest h
  log fuel actions := by
    have hfst : ∀ o : Option (List (Reply × Memory) × Player),
        o.map Prod.fst = (o.map seen).map Prod.fst := by
      intro o
      cases o <;> rfl
    rw [hfst, play_congr h, ← hfst]

/-! ## The visible state -/

/-- Consistent players with the same visible state are the same at rest. -/
theorem Consistent.atRest_eq (hp : p.Consistent) (hq : q.Consistent) (hsource : p.source = q.source)
    (hconfig : p.config = q.config) (hmemory : p.machine.memory = q.machine.memory)
    (htime : p.time = q.time) : p.atRest = q.atRest := by
  have hprogram : p.program = q.program := by
    rw [hp.program_eq, hq.program_eq, hsource]
  have hcode : p.code = q.code := by
    rw [hp.code_eq, hq.code_eq, hprogram, hconfig]
  have hlayout : p.layout = q.layout := by
    have hcalibrated := hp.calibrated
    rw [hsource, hconfig] at hcalibrated
    exact hcalibrated.unique hq.calibrated
  have hmachine : p.machine.atRest = q.machine.atRest := by
    have hbuilt := hp.built
    rw [hconfig] at hbuilt
    refine hbuilt.atRest_eq hq.built ?_ htime hmemory
    rw [hp.layout_eq, hq.layout_eq, hlayout]
  simp only [atRest, hsource, hconfig, hprogram, hcode, hlayout, hmachine]

theorem setTime_consistent (hp : p.Consistent) (t : UInt32) : (p.setTime t).Consistent := by
  have hact : p.act 0 (.setTime t) = some (.done, p.setTime t) := rfl
  exact act_consistent hp hact

/-- A program that can be loaded into some player can be loaded into a new one. -/
theorem ofSource_of_load {source : String} (hp : p.Consistent) (h : p.load fuel source = some p') :
    ∃ q, ofSource fuel source p.config = some q := by
  rw [load, reload_eq, Option.map_eq_some_iff] at h
  obtain ⟨⟨finish, m⟩, hrun, -⟩ := h
  cases fuel with
  | zero => cases hrun
  | succ fuel =>
    -- the empty program ends at once
    obtain ⟨q₀, hq₀⟩ : ∃ q₀, new (fuel + 1) p.config = some q₀ := by
      have hempty : Machine.dispatch ((Program.parse "").compile p.config.addressing) (fuel + 1) 0
          (blank p.config).machine.dryStart =
            some (.halted .endOfProgram, (blank p.config).machine.dryStart) := rfl
      refine ⟨(blank p.config).loaded (blank p.config).machine.dryStart, ?_⟩
      rw [new, reload_eq]
      exact congrArg (Option.map _) hempty
    have hconfig : q₀.config = p.config := (reload_keeps hq₀).2.1
    have hbuilt : q₀.machine.BuiltFor p.config.addressing := by
      rw [← hconfig]
      exact (new_consistent hq₀).built
    have hfresh := Machine.dispatch_dryStart hp.built hbuilt hrun
    simp only [ofSource, hq₀, load, reload_eq, hconfig, Option.bind_eq_bind, Option.bind_some]
    rw [hfresh]
    exact ⟨_, rfl⟩

/-- **A sample depends on nothing but the visible state.**  Two players with the same source,
settings, memory and time show the same samples, faults and memories in every session, whatever
was done with them before.  In particular, where loading clears the memory, a program loaded into
a player with any past and given a time is played as a new player of it plays. -/
theorem visible_state_decides :
    (∀ p q : Player, p.Reachable → q.Reachable → p.source = q.source → p.config = q.config →
        p.machine.memory = q.machine.memory → p.time = q.time → p.Indistinguishable q) ∧
      ∀ (p p₁ : Player) (fuel : Nat) (source : String) (t : UInt32), p.Reachable →
        p.config.clearMemoryOnLoad = true → p.load fuel source = some p₁ →
          ∃ q, ofSource fuel source p.config = some q ∧
            (p₁.setTime t).Indistinguishable (q.setTime t) := by
  constructor
  · intro p q hp hq hsource hconfig hmemory htime
    exact indistinguishable_of_atRest
      (hp.consistent.atRest_eq hq.consistent hsource hconfig hmemory htime)
  · intro p p₁ fuel source t hp hclear hload
    obtain ⟨q, hq⟩ := ofSource_of_load hp.consistent hload
    obtain ⟨hsource, hconfig, -, -, hmemory⟩ := reload_keeps hload
    obtain ⟨hsource', hconfig', hmemory'⟩ := ofSource_keeps hq
    simp only [hclear, if_true] at hmemory
    have hp₁ := setTime_consistent (load_consistent hp.consistent hload) t
    have hq₁ := setTime_consistent (Reachable.ofSource hq).consistent t
    exact ⟨q, hq, indistinguishable_of_atRest (hp₁.atRest_eq hq₁ (hsource.trans hsource'.symm)
      (hconfig.trans hconfig'.symm) (hmemory.trans hmemory'.symm) rfl)⟩

/-- A player whose last sample switched media and left words on both stacks, beside a new one; and
a program that reads a word of memory, loaded over a word written there. -/
theorem past_is_forgotten :
    (∃ p q : Player,
      (do (← ofSource 9 "M1P2" { audio := true }).sample 9 7 8) = some (⟨0x807, 0x20000⟩, p) ∧
      ofSource 9 "M1P2" { audio := true } = some q ∧ p.Indistinguishable q) ∧
    ∃ p q : Player,
      (do ((← new 9 { clearMemoryOnLoad := true }).poke 1 5).load 9 "1@") = some p ∧
      ofSource 9 "1@" { clearMemoryOnLoad := true } = some q ∧
      (p.setTime 3).Indistinguishable (q.setTime 3) := by
  constructor
  · obtain ⟨p, hp, hmemory⟩ : ∃ p,
        (do (← ofSource 9 "M1P2" { audio := true }).sample 9 7 8) = some (⟨0x807, 0x20000⟩, p) ∧
          p.machine.memory = .zero := ⟨_, rfl, rfl⟩
    obtain ⟨q, hq, hsample⟩ := Option.bind_eq_some_iff.1 hp
    obtain ⟨m, fault, hp', -⟩ := atRest_of_sample hsample
    obtain ⟨-, -, hmemory'⟩ := ofSource_keeps hq
    refine ⟨p, q, hp, hq, visible_state_decides.1 p q (.act (.ofSource hq) (act_sample hsample))
      (.ofSource hq) ?_ ?_ (hmemory.trans hmemory'.symm) (time_of_sample hsample)⟩
    · rw [hp']
    · rw [hp']
  · obtain ⟨p, hp⟩ : ∃ p,
        (do ((← new 9 { clearMemoryOnLoad := true }).poke 1 5).load 9 "1@") = some p := ⟨_, rfl⟩
    obtain ⟨q₀, hnew, hload⟩ := Option.bind_eq_some_iff.1 hp
    have hpoke : q₀.act 0 (.poke 1 5) = some (.done, q₀.poke 1 5) := rfl
    have hconfig : q₀.config = { clearMemoryOnLoad := true } := (reload_keeps hnew).2.1
    have hclear : (q₀.poke 1 5).config.clearMemoryOnLoad = true :=
      congrArg Config.clearMemoryOnLoad hconfig
    obtain ⟨q, hq, hsame⟩ := visible_state_decides.2 (q₀.poke 1 5) p 9 "1@" 3
      (.act (.new hnew) hpoke) hclear hload
    refine ⟨p, q, hp, ?_, hsame⟩
    rw [← hconfig]
    exact hq

end GlyphMachine.Player
