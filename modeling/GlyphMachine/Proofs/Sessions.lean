import GlyphMachine.Proofs.Passes

/-!
# Sessions

A session is what is done with a player: programs are loaded, samples computed, the time set,
memory read and written.  Between two actions a player always holds the program of its source, the
code of that program and the layout that a dry pass calls for.

* `Player.act` — one action, with what it replies.
* `Player.Reachable` — a player that some session leads to; every pass on the way ended.
* `Player.Consistent` — what holds between two actions; `act_consistent` is the step and
  `Reachable.consistent` the run.
* `dispatch_dryStart` — dry passes on any two machines of one build take the same course: the time
  is in none of the words that such a pass can read.
* `parts_agree` — hence the layout depends on the source and the addressing alone.
-/

namespace GlyphMachine

/-! ## Actions -/

/-- What can be done with a player. -/
inductive Action where
  | load (source : String)
  | reload
  | sample (x y : UInt8)
  | setTime (t : UInt32)
  | poke (addr : UInt32) (w : Word)
  | peek (addr : UInt32)
deriving DecidableEq

/-- What an action replies. -/
inductive Reply where
  | done
  | word (w : Word)
  /-- The sample, and the fault that the player shows after it. -/
  | sampled (sample : Sample) (fault : Option Fault)
deriving DecidableEq

namespace Player

/-- Performs an action; `none` if a pass ran out of fuel. -/
def act (fuel : Nat) : Action → Player → Option (Reply × Player)
  | .load source, p => (p.load fuel source).map fun p => (.done, p)
  | .reload, p => (p.reload fuel).map fun p => (.done, p)
  | .sample x y, p => (p.sample fuel x y).map fun (s, p) => (.sampled s p.lastFault, p)
  | .setTime t, p => some (.done, p.setTime t)
  | .poke addr w, p => some (.done, p.poke addr w)
  | .peek addr, p => some (.word (p.peek addr), p)

/-- The players that sessions lead to. -/
inductive Reachable : Player → Prop where
  | new {fuel : Nat} {config : Config} {p : Player} : new fuel config = some p → Reachable p
  | ofSource {fuel : Nat} {source : String} {config : Config} {p : Player} :
      ofSource fuel source config = some p → Reachable p
  | act {fuel : Nat} {action : Action} {reply : Reply} {p p' : Player} :
      Reachable p → p.act fuel action = some (reply, p') → Reachable p'

end Player

/-! ## Dry passes -/

namespace Machine

variable {code : Code} {fuel : Nat} {a : Addressing} {m n m' : Machine} {finish : PassEnd}

/-- The machine reads addresses in the given way, and its stacks have the room they were built
with. -/
structure BuiltFor (a : Addressing) (m : Machine) : Prop where
  addressing : m.addressing = a
  data : m.data.capacity = dataCapacity
  control : m.control.capacity = controlCapacity

theorem builtFor_fresh (a : Addressing) : (fresh a).BuiltFor a := ⟨rfl, rfl, rfl⟩

theorem BuiltFor.of_fixed (h : m.BuiltFor a) (hfixed : m'.fixed = m.fixed) : m'.BuiltFor a := by
  simp only [fixed, Prod.mk.injEq] at hfixed
  obtain ⟨hcontext, hdata, hcontrol⟩ := hfixed
  refine ⟨?_, hdata.trans h.data, hcontrol.trans h.control⟩
  rw [hcontext]
  exact h.addressing

/-- Machines of one build are the same at rest when layout, time and memory are. -/
theorem BuiltFor.atRest_eq (hm : m.BuiltFor a) (hn : n.BuiltFor a) (hlayout : m.layout = n.layout)
    (htime : m.time = n.time) (hmemory : m.memory = n.memory) : m.atRest = n.atRest := by
  simp only [atRest, reset, Stack.clear, hm.addressing, hn.addressing, hm.data, hn.data,
    hm.control, hn.control, hlayout, htime, hmemory]

theorem BuiltFor.dryStart (h : m.BuiltFor a) : m.dryStart.BuiltFor a := by
  refine ⟨h.addressing, ?_, h.control⟩
  simp [Machine.dryStart, reset, h.data]

/-- **A dry pass cannot tell two machines of one build apart**, whatever their time is. -/
theorem dispatch_dryStart (hm : m.BuiltFor a) (hn : n.BuiltFor a)
    (h : dispatch code fuel 0 m.dryStart = some (finish, m')) :
    dispatch code fuel 0 n.dryStart = some (finish, m'.withContext n.dryStart.toContext) := by
  have hstart : n.dryStart = m.dryStart.withContext n.dryStart.toContext := by
    simp only [dryStart, withContext, reset, Stack.clear, hm.data, hn.data, hm.control, hn.control]
  have halike : n.dryStart.toContext.Alike m.dryStart.toContext :=
    ⟨hn.addressing.trans hm.addressing.symm, rfl⟩
  rw [hstart]
  exact dispatch_withContext halike h (.inl rfl)

end Machine

/-- The layout that a dry pass of the program calls for. -/
def Calibrates (source : String) (a : Addressing) (layout : Layout) : Prop :=
  ∃ fuel m, (Machine.fresh a).dryRun ((Program.parse source).compile a) fuel = some m ∧
    m.calibratedLayout = layout

/-- Calibration gives one layout only. -/
theorem Calibrates.unique {source : String} {a : Addressing} {l l' : Layout}
    (h : Calibrates source a l) (h' : Calibrates source a l') : l = l' := by
  obtain ⟨fuel, m, hm, rfl⟩ := h
  obtain ⟨fuel', m', hm', rfl⟩ := h'
  rw [Machine.dryRun_eq, Option.map_eq_some_iff] at hm hm'
  obtain ⟨r, hr, rfl⟩ := hm
  obtain ⟨r', hr', rfl⟩ := hm'
  rw [Machine.dispatch_unique hr hr']

namespace Player

variable {fuel : Nat} {p p' q : Player} {action : Action} {reply : Reply} {s : Sample} {x y : UInt8}

/-! ## What loading does -/

/-- The player whose dry pass ended in the state `m`. -/
def loaded (p : Player) (m : Machine) : Player :=
  { p with
    program := .parse p.source
    code := (Program.parse p.source).compile p.config.addressing
    machine := { m with
      layout := some m.calibratedLayout
      memory := if p.config.clearMemoryOnLoad then .zero else p.machine.memory }
    layout := m.calibratedLayout }

theorem reload_eq (fuel : Nat) (p : Player) :
    p.reload fuel = (Machine.dispatch ((Program.parse p.source).compile p.config.addressing) fuel 0
      p.machine.dryStart).map fun r => p.loaded r.2 := by
  obtain ⟨config, source, program, code, machine, layout, lastFault⟩ := p
  simp only [reload, Machine.dryRun_eq, loaded]
  cases config.clearMemoryOnLoad with
  | false =>
    simp only [Bool.false_eq_true, if_false]
    cases Machine.dispatch _ fuel 0 machine.dryStart <;> rfl
  | true =>
    -- the dry pass does not see whether the memory was cleared before it
    show Option.bind ((Machine.dispatch _ fuel 0 machine.dryStart).map _) _ = _
    cases Machine.dispatch _ fuel 0 machine.dryStart <;> rfl

/-- Loading keeps the source, the settings, the time and the fault, and the memory unless it is to
be cleared. -/
theorem reload_keeps (h : p.reload fuel = some p') :
    p'.source = p.source ∧ p'.config = p.config ∧ p'.time = p.time ∧ p'.lastFault = p.lastFault ∧
      p'.machine.memory = if p.config.clearMemoryOnLoad then .zero else p.machine.memory := by
  rw [reload_eq, Option.map_eq_some_iff] at h
  obtain ⟨⟨finish, m⟩, hrun, rfl⟩ := h
  have htime : m.time = p.machine.dryStart.time :=
    congrArg (·.time) (Machine.toContext_eq (Machine.fixed_dispatch hrun))
  exact ⟨rfl, rfl, htime, rfl, rfl⟩

theorem ofSource_keeps {source : String} {config : Config}
    (h : ofSource fuel source config = some p) :
    p.source = source ∧ p.config = config ∧ p.machine.memory = .zero := by
  obtain ⟨q, hnew, hload⟩ := Option.bind_eq_some_iff.1 h
  obtain ⟨-, hconfig, -, -, hmemory⟩ := reload_keeps hnew
  obtain ⟨hsource', hconfig', -, -, hmemory'⟩ := reload_keeps hload
  refine ⟨hsource', hconfig'.trans hconfig, ?_⟩
  -- a blank player has nothing in memory, so there is nothing to keep
  have hzero : q.machine.memory = .zero := hmemory.trans (by split <;> rfl)
  rw [hmemory', hzero]
  split <;> rfl

/-! ## What a sample does -/

/-- A sample runs one or two passes and pops their results.  What these preserve, the sample
preserves; it changes nothing else but the fault shown. -/
theorem sample_preserves {I : Machine → Prop}
    (hpass : ∀ {start pass maySwitch m finish m'},
      m.runPass p.code fuel start pass maySwitch x y = some (finish, m') → I m → I m')
    (hdrop : ∀ {m}, I m → I { m with data := m.data.drop })
    (h : p.sample fuel x y = some (s, p')) (hp : I p.machine) :
    ∃ m fault, p' = { p with machine := m, lastFault := some fault } ∧ I m := by
  obtain ⟨config, source, program, code, machine, layout, lastFault⟩ := p
  simp only [sample, Option.bind_eq_bind] at h
  obtain ⟨⟨finish, m₁⟩, h₁, h⟩ := Option.bind_eq_some_iff.1 h
  have hm₁ : I m₁ := hpass h₁ hp
  cases finish with
  | switched video resume =>
    obtain ⟨⟨finish, m₂⟩, h₂, h⟩ := Option.bind_eq_some_iff.1 h
    obtain ⟨fault, rfl⟩ := Machine.halted_of_dispatch h₂ rfl
    cases h
    exact ⟨_, fault, rfl, hdrop (hpass h₂ hm₁)⟩
  | halted fault =>
    simp only at h
    split at h
    · cases h
      exact ⟨_, fault, rfl, hdrop hm₁⟩
    · split at h
      · cases h
        exact ⟨_, fault, rfl, hdrop hm₁⟩
      · obtain ⟨⟨finish, m₂⟩, h₂, h⟩ := Option.bind_eq_some_iff.1 h
        obtain ⟨fault', rfl⟩ := Machine.halted_of_dispatch h₂ rfl
        cases h
        exact ⟨_, fault', rfl, hdrop (hpass h₂ (hdrop hm₁))⟩

/-- At rest, a player after a sample has nothing new but its memory and the fault. -/
theorem atRest_of_sample (h : p.sample fuel x y = some (s, p')) :
    ∃ m fault, p' = { p with machine := m, lastFault := some fault } ∧
      m.atRest = { p.machine.atRest with memory := m.memory } := by
  refine sample_preserves (I := fun m => m.atRest = { p.machine.atRest with memory := m.memory })
    ?_ (fun hm => hm) h rfl
  intro start pass maySwitch m finish m' hrun hm
  rw [Machine.atRest_of_runPass hrun, hm]

theorem time_of_sample (h : p.sample fuel x y = some (s, p')) : p'.time = p.time := by
  obtain ⟨m, fault, rfl, hm⟩ := atRest_of_sample h
  exact congrArg (·.time) hm

theorem act_sample (h : p.sample fuel x y = some (s, p')) :
    p.act fuel (.sample x y) = some (.sampled s p'.lastFault, p') :=
  Option.map_eq_some_iff.2 ⟨(s, p'), h, rfl⟩

/-! ## The invariant -/

/-- What holds of a player between two actions. -/
structure Consistent (p : Player) : Prop where
  program_eq : p.program = .parse p.source
  code_eq : p.code = p.program.compile p.config.addressing
  built : p.machine.BuiltFor p.config.addressing
  layout_eq : p.machine.layout = some p.layout
  calibrated : Calibrates p.source p.config.addressing p.layout

theorem loaded_consistent {finish : PassEnd} {m : Machine}
    (hp : p.machine.BuiltFor p.config.addressing)
    (h : Machine.dispatch ((Program.parse p.source).compile p.config.addressing) fuel 0
      p.machine.dryStart = some (finish, m)) : (p.loaded m).Consistent where
  program_eq := rfl
  code_eq := rfl
  built := by
    have hm : m.BuiltFor p.config.addressing := hp.dryStart.of_fixed (Machine.fixed_dispatch h)
    exact ⟨hm.addressing, hm.data, hm.control⟩
  layout_eq := rfl
  calibrated := by
    -- the same dry pass on a fresh machine leaves the same number of words
    have hfresh := Machine.dispatch_dryStart hp (Machine.builtFor_fresh _) h
    have hdry := Machine.dryRun_eq ((Program.parse p.source).compile p.config.addressing) fuel
      (.fresh p.config.addressing)
    rw [hfresh] at hdry
    exact ⟨fuel, _, hdry, rfl⟩

theorem reload_consistent (hp : p.machine.BuiltFor p.config.addressing)
    (h : p.reload fuel = some p') : p'.Consistent := by
  rw [reload_eq, Option.map_eq_some_iff] at h
  obtain ⟨⟨finish, m⟩, hrun, rfl⟩ := h
  exact loaded_consistent hp hrun

theorem new_consistent {config : Config} (h : new fuel config = some p) : p.Consistent :=
  reload_consistent (Machine.builtFor_fresh _) h

theorem load_consistent {source : String} (hp : p.Consistent) (h : p.load fuel source = some p') :
    p'.Consistent :=
  reload_consistent (p := { p with source }) hp.built h

theorem sample_consistent (hp : p.Consistent) (h : p.sample fuel x y = some (s, p')) :
    p'.Consistent := by
  obtain ⟨m, fault, rfl, hrest⟩ := atRest_of_sample h
  refine ⟨hp.program_eq, hp.code_eq, ⟨?_, ?_, ?_⟩, ?_, hp.calibrated⟩
  · exact (congrArg (·.addressing) hrest).trans hp.built.addressing
  · exact (congrArg (·.data.capacity) hrest).trans hp.built.data
  · exact (congrArg (·.control.capacity) hrest).trans hp.built.control
  · exact (congrArg (·.layout) hrest).trans hp.layout_eq

/-- **Every action keeps a player consistent.** -/
theorem act_consistent (hp : p.Consistent) (h : p.act fuel action = some (reply, p')) :
    p'.Consistent := by
  cases action with
  | load source =>
    obtain ⟨q, hq, heq⟩ := Option.map_eq_some_iff.1 h
    cases heq
    exact load_consistent hp hq
  | reload =>
    obtain ⟨q, hq, heq⟩ := Option.map_eq_some_iff.1 h
    cases heq
    exact reload_consistent hp.built hq
  | sample x y =>
    obtain ⟨⟨s, q⟩, hq, heq⟩ := Option.map_eq_some_iff.1 h
    cases heq
    exact sample_consistent hp hq
  | setTime t =>
    cases h
    exact ⟨hp.program_eq, hp.code_eq, ⟨hp.built.addressing, hp.built.data, hp.built.control⟩,
      hp.layout_eq, hp.calibrated⟩
  | poke addr w =>
    cases h
    exact ⟨hp.program_eq, hp.code_eq, ⟨hp.built.addressing, hp.built.data, hp.built.control⟩,
      hp.layout_eq, hp.calibrated⟩
  | peek addr =>
    cases h
    exact hp

/-- **Every session leads to consistent players.** -/
theorem Reachable.consistent (hp : p.Reachable) : p.Consistent := by
  induction hp with
  | new h => exact new_consistent h
  | ofSource h =>
    obtain ⟨q, hq, hload⟩ := Option.bind_eq_some_iff.1 h
    exact load_consistent (new_consistent hq) hload
  | act _ h ih => exact act_consistent ih h

/-- **The parts of a player agree, and its layout depends on nothing but source and addressing.**
After any session a player holds the program of its source, the code of that program and a machine
set up for both; and any two players with the same source and the same addressing have the same
layout, whatever was done with them before. -/
theorem parts_agree {p : Player} (hp : p.Reachable) :
    p.program = .parse p.source ∧
      p.code = p.program.compile p.config.addressing ∧
      p.machine.addressing = p.config.addressing ∧
      p.machine.layout = some p.layout ∧
      ∀ q : Player, q.Reachable → q.source = p.source →
        q.config.addressing = p.config.addressing → q.layout = p.layout := by
  have h := hp.consistent
  refine ⟨h.program_eq, h.code_eq, h.built.addressing, h.layout_eq, ?_⟩
  intro q hq hsource haddressing
  have hcalibrated := hq.consistent.calibrated
  rw [hsource, haddressing] at hcalibrated
  exact hcalibrated.unique h.calibrated

/-- Two players of `1@?2 3;`, one of them loaded late into a machine with a time of its own and a
word in memory that the program looks at. -/
theorem late_load_agrees :
    ∃ p q : Player, ofSource 9 "1@?2 3;" { audio := true } = some p ∧
      (do ((← new 9 {}).poke 1 5 |>.setTime 77).load 9 "1@?2 3;") = some q ∧
      q.layout = p.layout := by
  obtain ⟨p, hp⟩ : ∃ p, ofSource 9 "1@?2 3;" { audio := true } = some p := ⟨_, rfl⟩
  obtain ⟨q, hq⟩ : ∃ q, (do ((← new 9 {}).poke 1 5 |>.setTime 77).load 9 "1@?2 3;") = some q :=
    ⟨_, rfl⟩
  obtain ⟨q₀, hnew, hload⟩ := Option.bind_eq_some_iff.1 hq
  have hpoke : q₀.act 0 (.poke 1 5) = some (.done, q₀.poke 1 5) := rfl
  have htime : (q₀.poke 1 5).act 0 (.setTime 77) = some (.done, (q₀.poke 1 5).setTime 77) := rfl
  have hlate : ((q₀.poke 1 5).setTime 77).act 9 (.load "1@?2 3;") = some (.done, q) :=
    Option.map_eq_some_iff.2 ⟨q, hload, rfl⟩
  obtain ⟨hsource, hconfig, -⟩ := ofSource_keeps hp
  obtain ⟨hsource', hconfig', -⟩ := reload_keeps hload
  obtain ⟨-, hconfig₀, -⟩ := reload_keeps hnew
  have haddressing : q.config.addressing = p.config.addressing := by
    rw [hconfig, hconfig'.trans hconfig₀]
    rfl
  exact ⟨p, q, hp, hq, (parts_agree (.ofSource hp)).2.2.2.2 q
    (.act (.act (.act (.new hnew) hpoke) htime) hlate) (hsource'.trans hsource.symm) haddressing⟩

end Player
end GlyphMachine
