import GlyphMachine.Proofs.Blocks
import GlyphMachine.Proofs.VisibleState

/-!
# Quiet programs

A program is quiet when it has no store and no definition that found its end.  Its code has no
operation that writes through an address, so its passes leave the memory alone.  That makes the two
ways to the audio word of a packed program agree: using the video word again, and running the
program a second time as an audio pass.

* `Program.Quiet.memory_dispatch` — a run of a quiet program does not change the memory.
* `Context.words_audio` — an audio pass is told the same word as a packed video pass.
* `reuse_agrees_with_recalculation` — the second pass repeats the first.
-/

namespace GlyphMachine

/-! ## Operations that write -/

/-- Whether the operation writes through an address. -/
def Op.writes : Op → Bool
  | .store | .storeAt _ | .storeDirect _ | .define _ | .defineAt _ _ => true
  | _ => false

/-- Whether the instruction writes through an address: a store, or a definition with an end. -/
def Instruction.writes : Instruction → Bool
  | .op .store _ _ => true
  | .op .define _ (some _) => true
  | _ => false

/-- No instruction of the program writes. -/
def Program.Quiet (p : Program) : Prop := ∀ i ∈ p, i.writes = false

instance (p : Program) : Decidable p.Quiet := inferInstanceAs (Decidable (∀ i ∈ p, _))

/-- Lowering makes a writing operation of a writing instruction only. -/
theorem Instruction.writes_lower {i : Instruction} (h : i.writes = false) {a : Addressing}
    {addr : Nat} {o : Op} (ho : (i.lower a addr).op = some o) : o.writes = false := by
  cases i with
  | push w =>
    cases ho
    rfl
  | op code literal target =>
    cases code with
    | store => cases h
    | define =>
      cases target with
      | none => cases ho
      | some last => cases h
    | load =>
      cases literal with
      | none =>
        cases ho
        rfl
      | some w =>
        simp only [lower, lowerOp, lowerLoad] at ho
        split at ho <;> cases ho <;> rfl
    | branch | otherwise => cases target <;> cases ho
    | _ => cases literal <;> cases ho <;> rfl

/-- What a block holds comes from the instructions it was made of. -/
theorem Lowered.mem_ops_blockFrom {size : Nat} {ls : List Lowered} {o : Op}
    (h : o ∈ (Lowered.blockFrom size ls).ops) : ∃ l ∈ ls, l.op = some o := by
  induction ls with
  | nil => cases h
  | cons l ls ih =>
    simp only [Lowered.blockFrom] at h
    split at h
    · exact ⟨l, List.mem_cons_self, by simpa using h⟩
    · rcases List.mem_append.1 h with h | h
      · exact ⟨l, List.mem_cons_self, by simpa using h⟩
      · obtain ⟨l', hl', ho⟩ := ih h
        exact ⟨l', List.mem_cons_of_mem l hl', ho⟩

theorem Program.Quiet.writes_of_mem {p : Program} (hp : p.Quiet) {a : Addressing} {addr : Nat}
    {b : Block} (hb : (p.compile a).rest? addr = some b) {o : Op} (ho : o ∈ b.ops) :
    o.writes = false := by
  have hlt : addr < p.length := by
    refine Nat.lt_of_not_le fun hle => ?_
    rw [Program.rest?_compile_of_le hle] at hb
    cases hb
  rw [Program.rest?_compile hlt] at hb
  cases hb
  obtain ⟨l, hl, hop⟩ := Lowered.mem_ops_blockFrom ho
  obtain ⟨k, hk, rfl⟩ := List.mem_mapIdx.1 (List.mem_of_mem_drop hl)
  exact Instruction.writes_lower (hp _ (List.getElem_mem hk)) hop

/-! ## Runs that write nothing -/

namespace Machine

variable {m m' : Machine} {finish : PassEnd} {fuel : Nat} {ip : Int}

theorem memory_step {o : Op} (h : o.writes = false) (m : Machine) :
    (m.step o).memory = m.memory := by
  cases o with
  | store | storeAt | storeDirect | define | defineAt => cases h
  | _ => rfl

theorem memory_steps {ops : List Op} (h : ∀ o ∈ ops, o.writes = false) (m : Machine) :
    (m.steps ops).memory = m.memory := by
  induction ops generalizing m with
  | nil => rfl
  | cons o ops ih =>
    have hrest := ih (fun o' ho' => h o' (List.mem_cons_of_mem o ho')) (m.step o)
    exact hrest.trans (memory_step (h o List.mem_cons_self) m)

theorem memory_transfer (m : Machine) (exit : Exit) : (m.transfer exit).2.memory = m.memory := by
  cases exit with
  | loopWhile next =>
    simp only [transfer]
    split <;> rfl
  | countDown next =>
    simp only [transfer]
    split
    · rfl
    · split <;> rfl
  | call back slot => cases slot <;> rfl
  | switch addr resume =>
    simp only [transfer]
    split <;> rfl
  | _ => rfl

end Machine

/-- **A run of a quiet program does not change the memory.** -/
theorem Program.Quiet.memory_dispatch {p : Program} (hp : p.Quiet) {a : Addressing} {fuel : Nat}
    {ip : Int} {m m' : Machine} {finish : PassEnd}
    (h : Machine.dispatch (p.compile a) fuel ip m = some (finish, m')) : m'.memory = m.memory := by
  refine Machine.dispatch_preserves (I := fun n => n.memory = m.memory) ?_ h rfl
  intro addr b n hb hn
  have hsteps := Machine.memory_steps (fun o ho => hp.writes_of_mem hb ho) n
  exact (Machine.memory_transfer _ _).trans (hsteps.trans hn)

theorem Program.Quiet.memory_runPass {p : Program} (hp : p.Quiet) {a : Addressing}
    {fuel start : Nat} {pass : Pass} {maySwitch : Bool} {x y : UInt8} {m m' : Machine}
    {finish : PassEnd}
    (h : m.runPass (p.compile a) fuel start pass maySwitch x y = some (finish, m')) :
    m'.memory = m.memory :=
  hp.memory_dispatch (m := m.passStart pass maySwitch x y) h

/-! ## The context of the two passes -/

/-- **An audio pass is told the same word as a packed video pass.** -/
theorem Context.words_audio (c : Context) :
    { c with pass := .audio }.words = { c with pass := .video, layout := some .packed }.words := by
  have hx := c.x.toNat_lt
  have hy := c.y.toNat_lt
  have ht := c.time.toNat_lt
  -- column, row and time lie in different bits, so adding them is joining them
  have hlow : 2 ^ 8 * c.y.toNat + c.x.toNat = 2 ^ 8 * c.y.toNat ||| c.x.toNat :=
    Nat.two_pow_add_eq_or_of_lt hx _
  have hhigh : 2 ^ 16 * c.time.toNat + (2 ^ 8 * c.y.toNat + c.x.toNat) =
      2 ^ 16 * c.time.toNat ||| (2 ^ 8 * c.y.toNat + c.x.toNat) :=
    Nat.two_pow_add_eq_or_of_lt (by omega) _
  have htime : (c.time.toUInt32 <<< 16).toNat = 2 ^ 16 * c.time.toNat := by
    simp [Nat.shiftLeft_eq]
    omega
  have hrow : (c.y.toUInt32 <<< 8).toNat = 2 ^ 8 * c.y.toNat := by
    simp [Nat.shiftLeft_eq]
    omega
  have hword : (c.time.toUInt32 <<< 16) + ((c.y.toUInt32 <<< 8) + c.x.toUInt32) =
      (c.time.toUInt32 <<< 16) ||| (c.y.toUInt32 <<< 8) ||| c.x.toUInt32 := by
    apply UInt32.toNat_inj.1
    rw [UInt32.toNat_add, UInt32.toNat_add, UInt32.toNat_or, UInt32.toNat_or, htime, hrow,
      UInt8.toNat_toUInt32, Nat.or_assoc, ← hlow, ← hhigh]
    omega
  simp only [words, hword]

namespace Machine

variable {code : Code} {fuel start : Nat} {m m' : Machine} {x y : UInt8} {fault : Fault}

/-- In the packed layout an audio pass repeats a video pass that halted. -/
theorem runPass_audio (hlayout : m.layout = some .packed)
    (h : m.runPass code fuel start .video true x y = some (.halted fault, m')) :
    ∃ c, m.runPass code fuel start .audio false x y = some (.halted fault, m'.withContext c) := by
  let c : Context := { m.toContext with x, y, pass := .audio, maySwitch := false }
  have hwords : c.words = { m.toContext with x, y, pass := .video, maySwitch := true }.words := by
    have := Context.words_audio { m.toContext with x, y }
    rw [← hlayout] at this
    exact this
  have hstart : m.passStart .audio false x y = (m.passStart .video true x y).withContext c := by
    show { m.reset .audio x y with
      data := c.words.foldl Stack.push m.data.clear, maySwitch := false } = _
    rw [hwords]
    rfl
  refine ⟨c, ?_⟩
  show dispatch code fuel start (m.passStart .audio false x y) = _
  rw [hstart]
  exact dispatch_withContext ⟨rfl, hwords⟩ h (.inr ⟨rfl, by simp⟩)

end Machine

/-! ## Samples of quiet programs -/

namespace Player

variable {fuel : Nat} {p p' q : Player} {s : Sample} {x y : UInt8}

/-- Samples of a quiet program leave the memory alone. -/
theorem memory_sample (hp : p.Consistent) (hquiet : p.program.Quiet)
    (h : p.sample fuel x y = some (s, p')) : p'.machine.memory = p.machine.memory := by
  have hpass : ∀ {start pass maySwitch finish} {m m' : Machine},
      m.runPass p.code fuel start pass maySwitch x y = some (finish, m') →
        m.memory = p.machine.memory → m'.memory = p.machine.memory := by
    intro start pass maySwitch finish m m' hrun hm
    rw [hp.code_eq] at hrun
    exact (hquiet.memory_runPass hrun).trans hm
  obtain ⟨m, fault, rfl, hm⟩ := sample_preserves (I := fun m => m.memory = p.machine.memory)
    hpass (fun hm => hm) h rfl
  exact hm

section Halted

variable {fault : Fault} {m : Machine} (haudio : p.config.audio = true)
  (hpacked : p.layout = .packed)
  (hvideo : p.machine.runPass p.code fuel 0 .video true x y = some (.halted fault, m))
include haudio hpacked hvideo

/-- The sample of a packed program whose video pass halts, with the video word used again. -/
theorem sample_reusing (hreuse : p.config.recalcAudio = false) :
    p.sample fuel x y = some (⟨m.data.top, m.data.top⟩,
      { p with machine := { m with data := m.data.drop }, lastFault := some fault }) := by
  obtain ⟨config, source, program, code, machine, layout, lastFault⟩ := p
  simp only at haudio hpacked hvideo hreuse
  simp [sample, haudio, hpacked, hreuse, hvideo, Stack.pop]

/-- The same sample with a second pass: it ends as the first one did, with the same words left. -/
theorem sample_recalculating (hp : p.Consistent) (hquiet : p.program.Quiet)
    (hrecalc : p.config.recalcAudio = true) :
    ∃ c, p.sample fuel x y = some (⟨m.data.top, m.data.top⟩, { p with
      machine := { m.withContext c with data := m.data.drop }, lastFault := some fault }) := by
  have hmemory : m.memory = p.machine.memory := by
    have hrun := hvideo
    rw [hp.code_eq] at hrun
    exact hquiet.memory_runPass hrun
  have hrest : { m with data := m.data.drop }.atRest = p.machine.atRest := by
    have h := Machine.atRest_of_runPass hvideo
    rw [hmemory] at h
    exact h
  have hlayout : p.machine.layout = some .packed := by rw [hp.layout_eq, hpacked]
  obtain ⟨c, hsecond⟩ := Machine.runPass_audio hlayout hvideo
  rw [← Machine.runPass_congr hrest] at hsecond
  obtain ⟨config, source, program, code, machine, layout, lastFault⟩ := p
  simp only at haudio hpacked hvideo hrecalc hsecond
  refine ⟨c, ?_⟩
  simp [sample, haudio, hpacked, hrecalc, hvideo, hsecond, Stack.pop, Machine.withContext,
    PassEnd.fault?]

end Halted

/-- Consistency is about the addressing alone, among the settings. -/
theorem Consistent.withConfig (hp : p.Consistent) {config : Config}
    (h : config.addressing = p.config.addressing) : { p with config }.Consistent := by
  refine ⟨hp.program_eq, ?_, ?_, hp.layout_eq, ?_⟩
  · rw [h]
    exact hp.code_eq
  · rw [h]
    exact hp.built
  · rw [h]
    exact hp.calibrated

/-- **Using the video word again agrees with computing the audio word.**  Let two players differ in
nothing visible but in whether they recalculate, with sound on, for a quiet program that
calibrates to the packed layout.  Where the video pass halts, both give the same sample and leave
the same memory and the same fault; the second pass of the one that recalculates ends within the
fuel of the first.  The word that the two passes are told is the same for every place and time. -/
theorem reuse_agrees_with_recalculation {p q : Player} (hp : p.Reachable) (hq : q.Reachable)
    (hsource : p.source = q.source) (hmemory : p.machine.memory = q.machine.memory)
    (htime : p.time = q.time) (hreuse : p.config.recalcAudio = false)
    (hrecalc : q.config = { p.config with recalcAudio := true }) (haudio : p.config.audio = true)
    (hquiet : p.program.Quiet) (hpacked : p.layout = .packed) {fuel : Nat} {x y : UInt8}
    {fault : Fault} {m : Machine}
    (hvideo : p.machine.runPass p.code fuel 0 .video true x y = some (.halted fault, m)) :
    (∃ s p' q', p.sample fuel x y = some (s, p') ∧ q.sample fuel x y = some (s, q') ∧
        p'.machine.memory = q'.machine.memory ∧ p'.lastFault = q'.lastFault) ∧
      ∀ c : Context, { c with pass := .audio }.words =
        { c with pass := .video, layout := some .packed }.words := by
  refine ⟨?_, Context.words_audio⟩
  -- the first player with the settings of the second, which plays as the second does
  let r : Player := { p with config := q.config }
  have haddressing : q.config.addressing = p.config.addressing := by rw [hrecalc]
  have hr : r.Consistent := hp.consistent.withConfig haddressing
  have hrest : r.atRest = q.atRest := hr.atRest_eq hq.consistent hsource rfl hmemory htime
  have hrest' : q.sample fuel x y = r.sample fuel x y := by
    rw [← sample_atRest, ← hrest, sample_atRest]
  have haudio' : r.config.audio = true := by
    show q.config.audio = true
    rw [hrecalc]
    exact haudio
  have hrecalc' : r.config.recalcAudio = true := by
    show q.config.recalcAudio = true
    rw [hrecalc]
  obtain ⟨c, hsecond⟩ := sample_recalculating haudio' hpacked hvideo hr hquiet hrecalc'
  have hfirst := sample_reusing haudio hpacked hvideo hreuse
  exact ⟨_, _, _, hfirst, hrest'.trans hsecond, rfl, rfl⟩

/-- The square of the context, to which a branch on a word of memory adds two. -/
theorem branch_sounds_as_it_looks :
    ∃ p q : Player,
      (do some (((← ofSource 9 "d*1@?2+;" { audio := true }).poke 1 5).setTime 77)) = some p ∧
      (do some (((← ofSource 9 "d*1@?2+;" { audio := true, recalcAudio := true }).poke 1
        5).setTime 77)) = some q ∧
      ∃ s p' q', p.sample 9 7 8 = some (s, p') ∧ q.sample 9 7 8 = some (s, q') ∧
        p'.machine.memory = q'.machine.memory ∧ p'.lastFault = q'.lastFault := by
  obtain ⟨p, hp, hpacked, fault, m, hvideo⟩ : ∃ p,
      ofSource 9 "d*1@?2+;" { audio := true } = some p ∧ p.layout = .packed ∧
        ∃ fault m, ((p.poke 1 5).setTime 77).machine.runPass p.code 9 0 .video true 7 8 =
          some (.halted fault, m) := ⟨_, rfl, rfl, _, _, rfl⟩
  obtain ⟨q, hq⟩ : ∃ q,
      ofSource 9 "d*1@?2+;" { audio := true, recalcAudio := true } = some q := ⟨_, rfl⟩
  obtain ⟨hsource, hconfig, hmemory⟩ := ofSource_keeps hp
  obtain ⟨hsource', hconfig', hmemory'⟩ := ofSource_keeps hq
  have hreach : ∀ {r : Player}, r.Reachable → ((r.poke 1 5).setTime 77).Reachable := by
    intro r hr
    have hpoke : r.act 0 (.poke 1 5) = some (.done, r.poke 1 5) := rfl
    have htime : (r.poke 1 5).act 0 (.setTime 77) = some (.done, (r.poke 1 5).setTime 77) := rfl
    exact .act (.act hr hpoke) htime
  have hquiet : p.program.Quiet := by
    rw [(Reachable.ofSource hp).consistent.program_eq, hsource]
    decide
  have hsame : ((p.poke 1 5).setTime 77).machine.memory =
      ((q.poke 1 5).setTime 77).machine.memory := congrArg (·.put 1 5) (hmemory.trans hmemory'.symm)
  have hrecalc : q.config = { p.config with recalcAudio := true } := by rw [hconfig, hconfig']
  refine ⟨(p.poke 1 5).setTime 77, (q.poke 1 5).setTime 77, by rw [hp]; rfl, by rw [hq]; rfl, ?_⟩
  exact (reuse_agrees_with_recalculation (hreach (.ofSource hp)) (hreach (.ofSource hq))
    (hsource.trans hsource'.symm) hsame rfl (congrArg Config.recalcAudio hconfig) hrecalc
    (congrArg Config.audio hconfig) hquiet hpacked hvideo).1

end Player
end GlyphMachine
