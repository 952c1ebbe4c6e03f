import GlyphMachine.Proofs.Sessions
import GlyphMachine.Proofs.Visits

/-!
# Ends name their causes

The end of a pass tells an address: of the instruction that stopped it, or of the place that
control went to.  The addresses of instructions are put into the exits of blocks when a program is
compiled, and a run may enter blocks anywhere, so it takes the visits of the run to see that the
address told is that of the instruction performed last.

* `Exit.FitsAt`, `exit_lower` — the exits that an instruction can have.
* `Stops`, `stops_of_execute` — the instructions that stop a run, and how.
* `Accounts` — what each end says about the run; `Run.accounts` shows that it is true.
* `Player.passes` — the passes that a sample runs; `sample_cases` is what it makes of them.
* `ends_name_their_causes` — the fault that a player shows is the one that ended its last pass.
-/

namespace GlyphMachine

/-! ## Exits -/

/-- The exits that the instruction `i` at `addr` can have. -/
def Exit.FitsAt (addr : Nat) (i : Instruction) : Exit → Prop
  | .goto next => ∃ last, i.target? = some last ∧ next = last + 1
  | .ifZero skipTo next => next = addr + 1 ∧ ∃ last, i.target? = some last ∧ skipTo = last + 1
  | .loopWhile next => i.opcode? = some .loopWhile ∧ next = addr + 1
  | .countDown next => i.opcode? = some .loop ∧ next = addr + 1
  | .ret => i.opcode? = some .ret
  | .call _ _ => i.opcode? = some .call
  | .jump | .jumpTo _ => i.opcode? = some .jump
  | .switch here resume => i.opcode? = some .mediaSwitch ∧ here = addr ∧ resume = addr + 1
  | .terminate here => i.opcode? = some .terminate ∧ here = addr

/-- An instruction is lowered to an exit that fits it. -/
theorem Instruction.exit_lower {i : Instruction} {a : Addressing} {addr : Nat} {exit : Exit}
    (h : (i.lower a addr).exit = some exit) : exit.FitsAt addr i := by
  cases i with
  | push w => cases h
  | op code literal target =>
    cases code with
    | loopWhile | loop | mediaSwitch | terminate =>
      cases h
      simp [Exit.FitsAt, opcode?]
    | ret | call =>
      cases h
      rfl
    | jump => cases literal <;> cases h <;> rfl
    | branch | otherwise | define =>
      cases target with
      | none => cases h
      | some last =>
        cases h
        simp [Exit.FitsAt, target?]
    | load | store =>
      cases literal with
      | none => cases h
      | some w =>
        simp only [lower, lowerOp, lowerLoad, lowerStore] at h
        split at h <;> cases h
    | _ => cases literal <;> cases h

namespace Machine

variable {a : Addressing} {p : Program} {fuel k : Nat} {ip : Int} {m m' : Machine}
  {i : Instruction} {finish : PassEnd} {vs : List Visit}

/-! ## Instructions that stop a run -/

/-- `Stops addr i m finish m'`: the instruction `i` at `addr` stops a run on the machine `m` with
`finish` and leaves `m'`. -/
inductive Stops (addr : Nat) (i : Instruction) (m : Machine) : PassEnd → Machine → Prop where
  | terminate : i.opcode? = some .terminate → Stops addr i m (.halted (.terminated addr)) m
  | refuse : i.opcode? = some .mediaSwitch → m.maySwitch = false →
      Stops addr i m (.halted (.illegalMediaSwitch addr)) m
  | switch : i.opcode? = some .mediaSwitch → m.maySwitch = true →
      Stops addr i m (.switched m.data.top (addr + 1)) { m with data := m.data.drop }

theorem stops_of_execute (h : m.execute (k + 1) (i.lower a k) = (.stop finish, m')) :
    Stops k i m finish m' := by
  cases hx : (i.lower a k).exit with
  | none =>
    simp only [execute, hx] at h
    cases h
  | some exit =>
    have hfits := Instruction.exit_lower hx
    cases i with
    | push w => cases hx
    | op code literal target =>
      have htransfer := h
      simp only [execute, hx] at htransfer
      rcases exit_of_stop htransfer with ⟨addr, rfl⟩ | ⟨addr, resume, rfl⟩
      · obtain ⟨hcode, -⟩ := hfits
        cases hcode
        cases h
        exact .terminate rfl
      · obtain ⟨hcode, -⟩ := hfits
        cases hcode
        cases hmay : m.maySwitch with
        | false =>
          have hrefused : m.transfer (.switch k (k + 1)) =
              (.stop (.halted (.illegalMediaSwitch k)), m) := by simp [transfer, hmay]
          cases hrefused.symm.trans h
          exact .refuse rfl hmay
        | true =>
          have hswitched : m.transfer (.switch k (k + 1)) =
              (.stop (.switched m.data.top (k + 1)), { m with data := m.data.drop }) := by
            simp [transfer, hmay, Stack.pop]
          cases hswitched.symm.trans h
          exact .switch rfl hmay

/-! ## Ends and the runs they end -/

/-- The last instruction that `vs` performs stands at `addr` in `p` and performs `code`. -/
def LastPerforms (p : Program) (vs : List Visit) (addr : Nat) (code : Opcode) : Prop :=
  ∃ v, vs.getLast? = some v ∧ v.addr = addr ∧ p[addr]? = some v.instruction ∧
    v.instruction.opcode? = some code

/-- What the end of a run of `p` from `start` on says about the run, which began with the machine
`m`, performed the instructions `vs` and left the machine `m'`. -/
def Accounts (a : Addressing) (p : Program) (start : Int) (m : Machine) (vs : List Visit)
    (m' : Machine) : PassEnd → Prop
  | .halted (.terminated addr) => LastPerforms p vs addr .terminate
  | .halted (.illegalMediaSwitch addr) =>
    LastPerforms p vs addr .mediaSwitch ∧ m.maySwitch = false
  | .halted .endOfProgram => Path a p vs.length start m p.length m'
  | .halted (.outOfRange target) => target < 0 ∨ (p.length : Int) < target
  | .switched video resume =>
    0 < resume ∧ LastPerforms p vs (resume - 1) .mediaSwitch ∧ m.maySwitch = true ∧
      ∃ v, vs.getLast? = some v ∧ v.machine.data.top = video

theorem maySwitch_of_fixed (h : m'.fixed = m.fixed) : m'.maySwitch = m.maySwitch := by
  rw [toContext_eq h]

/-- Outside the program, a place is reported as negative or as beyond the end. -/
theorem reportedTarget_of_outside {size : Nat} {target : Int}
    (h : target < 0 ∨ (size : Int) ≤ target) (hne : target ≠ size) :
    reportedTarget target < 0 ∨ (size : Int) < reportedTarget target := by
  unfold reportedTarget
  split <;> omega

/-- **Every end gives a true account of the run.** -/
theorem Run.accounts (h : Run a p ip m vs finish m') : Accounts a p ip m vs m' finish := by
  have hfixed := h.fixed.2
  rcases h.ends with ⟨target, hpath, hout, rfl⟩ | ⟨before, v, rfl, hpath, hv, hstop⟩
  · unfold leaveAt
    split
    · rename_i heq
      rw [heq] at hpath
      exact hpath
    · rename_i hne
      exact reportedTarget_of_outside hout hne
  · have hlast : (before ++ [v]).getLast? = some v := by simp
    have hmay := maySwitch_of_fixed (hfixed v (by simp))
    cases stops_of_execute hstop with
    | terminate hcode => exact ⟨v, hlast, rfl, hv, hcode⟩
    | refuse hcode hrefused => exact ⟨⟨v, hlast, rfl, hv, hcode⟩, hmay.symm.trans hrefused⟩
    | switch hcode hallowed =>
      exact ⟨Nat.succ_pos _, ⟨v, hlast, rfl, hv, hcode⟩, hmay.symm.trans hallowed, v, hlast, rfl⟩

end Machine

/-! ## The passes of a sample -/

namespace Player

variable {fuel : Nat} {p p' : Player} {s : Sample} {x y : UInt8}

open Machine (dispatch)

/-- The passes that a sample runs, in order: the address at which each starts, and the machine that
it starts on. -/
def passes (fuel : Nat) (x y : UInt8) (p : Player) : List (Nat × Machine) :=
  let video := p.machine.passStart .video p.config.audio x y
  match dispatch p.code fuel 0 video with
  | none => [(0, video)]
  | some (.switched _ resume, m) => [(0, video), (resume, m.passStart .audio false x y)]
  | some (.halted _, m) =>
    if !p.config.audio || p.layout = .packed && !p.config.recalcAudio then [(0, video)]
    else [(0, video), (0, m.passStart .audio false x y)]

/-- The player after a sample whose last pass ended with `fault` and left the machine `m`. -/
def afterPass (p : Player) (m : Machine) (fault : Fault) : Player :=
  { p with machine := { m with data := m.data.drop }, lastFault := some fault }

/-- What a sample does: a video pass, and an audio pass if it switched media or more is wanted. -/
theorem sample_cases (h : p.sample fuel x y = some (s, p')) :
    ∃ finish m₁,
      dispatch p.code fuel 0 (p.machine.passStart .video p.config.audio x y) = some (finish, m₁) ∧
      ((∃ fault, finish = .halted fault ∧ p' = p.afterPass m₁ fault ∧
          p.passes fuel x y = [(0, p.machine.passStart .video p.config.audio x y)]) ∨
        ∃ (start : Nat) (fault : Fault) (m₂ : Machine), p' = p.afterPass m₂ fault ∧
          dispatch p.code fuel start (m₁.passStart .audio false x y) = some (.halted fault, m₂) ∧
          p.passes fuel x y = [(0, p.machine.passStart .video p.config.audio x y),
            (start, m₁.passStart .audio false x y)]) := by
  obtain ⟨config, source, program, code, machine, layout, lastFault⟩ := p
  simp only [sample, Option.bind_eq_bind] at h
  obtain ⟨⟨finish, m₁⟩, h₁, h⟩ := Option.bind_eq_some_iff.1 h
  have hvideo : dispatch code fuel 0 (machine.passStart .video config.audio x y) =
      some (finish, m₁) := h₁
  refine ⟨finish, m₁, hvideo, ?_⟩
  simp only [passes, hvideo]
  cases finish with
  | switched video resume =>
    obtain ⟨⟨finish, m₂⟩, h₂, h⟩ := Option.bind_eq_some_iff.1 h
    obtain ⟨fault, rfl⟩ := Machine.halted_of_dispatch h₂ rfl
    cases h
    exact .inr ⟨resume, fault, m₂, rfl, h₂, rfl⟩
  | halted fault =>
    cases haudio : config.audio with
    | false =>
      simp only [haudio, Bool.not_false, if_true] at h
      cases h
      exact .inl ⟨fault, rfl, rfl, by simp⟩
    | true =>
      simp only [haudio, Bool.not_true, Bool.false_eq_true, if_false, Bool.false_or] at h ⊢
      split at h
      · rename_i hreuse
        cases h
        exact .inl ⟨fault, rfl, rfl, if_pos hreuse⟩
      · rename_i hrecalc
        obtain ⟨⟨finish, m₂⟩, h₂, h⟩ := Option.bind_eq_some_iff.1 h
        obtain ⟨fault', rfl⟩ := Machine.halted_of_dispatch h₂ rfl
        cases h
        exact .inr ⟨0, fault', m₂, rfl, h₂, if_neg hrecalc⟩

/-- A sample runs a video pass, and after it an audio pass or nothing. -/
theorem passes_cases (fuel : Nat) (x y : UInt8) (p : Player) :
    p.passes fuel x y = [(0, p.machine.passStart .video p.config.audio x y)] ∨
      ∃ (start : Nat) (m : Machine), p.passes fuel x y =
        [(0, p.machine.passStart .video p.config.audio x y),
          (start, m.passStart .audio false x y)] := by
  simp only [passes]
  split
  · exact .inl rfl
  · exact .inr ⟨_, _, rfl⟩
  · split
    · exact .inl rfl
    · exact .inr ⟨_, _, rfl⟩

/-- Audio passes have no leave to switch media. -/
theorem maySwitch_of_mem_passes {start : Nat} {m : Machine} (h : (start, m) ∈ p.passes fuel x y)
    (haudio : m.pass = .audio) : m.maySwitch = false := by
  have hfirst : (start, m) ≠ (0, p.machine.passStart .video p.config.audio x y) := by
    rintro ⟨⟩
    cases haudio
  rcases passes_cases fuel x y p with hpasses | ⟨start₂, m₂, hpasses⟩
  · rw [hpasses, List.mem_singleton] at h
    exact absurd h hfirst
  · rw [hpasses, List.mem_cons, List.mem_singleton] at h
    rcases h with h | h
    · exact absurd h hfirst
    · cases h
      rfl

/-- **Ends name their causes.**  Let the code of any program run from any address to an end.  The
end gives a true account of the run: an end by an instruction tells the address of the instruction
performed last, which is a `T` or an `M`; a switch tells the word that was on top then; and the
other ends tell where control went.  Without leave to switch media there is no switch.  Hence no
audio pass of a sample switches, and the fault that a player shows after a sample is the one that
ended the last pass of it. -/
theorem ends_name_their_causes :
    (∀ (a : Addressing) (p : Program) (fuel : Nat) (start : Int) (m : Machine) (finish : PassEnd)
      (m' : Machine), dispatch (p.compile a) fuel start m = some (finish, m') →
        Machine.Accounts a p start m (Machine.visits a p fuel start m) m' finish ∧
          (m.maySwitch = false → ∀ video resume, finish ≠ .switched video resume)) ∧
    ∀ (p p' : Player) (fuel : Nat) (x y : UInt8) (s : Sample),
      p.sample fuel x y = some (s, p') →
        (∀ start m finish m', (start, m) ∈ p.passes fuel x y → m.pass = .audio →
          dispatch p.code fuel start m = some (finish, m') →
            ∀ video resume, finish ≠ .switched video resume) ∧
        ∃ start m fault m', (p.passes fuel x y).getLast? = some (start, m) ∧
          dispatch p.code fuel start m = some (.halted fault, m') ∧
          p'.lastFault = some fault := by
  constructor
  · intro a p fuel start m finish m' h
    refine ⟨(Machine.run_of_dispatch h).accounts, ?_⟩
    rintro hmay video resume rfl
    obtain ⟨fault, hhalted⟩ := Machine.halted_of_dispatch h hmay
    cases hhalted
  · intro p p' fuel x y s h
    constructor
    · rintro start m finish m' hmem haudio hrun video resume rfl
      obtain ⟨fault, hhalted⟩ :=
        Machine.halted_of_dispatch hrun (maySwitch_of_mem_passes hmem haudio)
      cases hhalted
    · obtain ⟨finish, m₁, hfirst, hcases⟩ := sample_cases h
      rcases hcases with ⟨fault, rfl, rfl, hpasses⟩ | ⟨start, fault, m₂, rfl, hsecond, hpasses⟩
      · exact ⟨_, _, fault, m₁, by rw [hpasses]; rfl, hfirst, rfl⟩
      · exact ⟨_, _, fault, m₂, by rw [hpasses]; rfl, hsecond, rfl⟩

/-- The code of `5M1T` entered after the `M`, and a sample of it that switches media: both end at
the `T`. -/
theorem terminated_after_switch :
    (∃ m', dispatch ((Program.parse "5M1T").compile .full) 9 2 (.fresh .full) =
        some (.halted (.terminated 3), m') ∧
      Machine.LastPerforms (Program.parse "5M1T")
        (Machine.visits .full (Program.parse "5M1T") 9 2 (.fresh .full)) 3 .terminate) ∧
    ∃ p p' s, ofSource 9 "5M1T" { audio := true } = some p ∧ p.sample 9 7 8 = some (s, p') ∧
      p'.lastFault = some (.terminated 3) ∧
      ∃ start m fault m', (p.passes 9 7 8).getLast? = some (start, m) ∧
        dispatch p.code 9 start m = some (.halted fault, m') ∧ p'.lastFault = some fault := by
  constructor
  · obtain ⟨m', hrun⟩ : ∃ m', dispatch ((Program.parse "5M1T").compile .full) 9 2 (.fresh .full) =
        some (.halted (.terminated 3), m') := ⟨_, rfl⟩
    exact ⟨m', hrun, (ends_name_their_causes.1 _ _ _ _ _ _ _ hrun).1⟩
  · obtain ⟨p, p', s, hp, hsample, hfault⟩ : ∃ p p' s,
        ofSource 9 "5M1T" { audio := true } = some p ∧ p.sample 9 7 8 = some (s, p') ∧
          p'.lastFault = some (.terminated 3) := ⟨_, _, _, rfl, rfl, rfl⟩
    exact ⟨p, p', s, hp, hsample, hfault, (ends_name_their_causes.2 _ _ _ _ _ _ hsample).2⟩

end Player
end GlyphMachine
