import GlyphMachine.Proofs.Links
import GlyphMachine.Proofs.PassEnds
import GlyphMachine.Proofs.RoundTrip

/-!
# Programs that always finish

Where control goes after a block is written in the code, except after the five operations that take
the next address from a stack or from memory.  A program without these is *static*.  What is
written in the code of a program that was read points forward, since targets do; so every block
that a static program runs starts behind the one before.

* `Program.isStatic` — no operation takes the next address from a stack or from memory.
* `PassEnd.Orderly` — the ends that a static program can come to.
* `onward_runBlock` — every block of a static program goes forward or comes to such an end.
* `ends_orderly` — hence a run ends after at most one block for each address.
* `static_programs_finish` — programs that are read and static can always be loaded and sampled.
-/

namespace GlyphMachine

open Lowered (blockFrom)

/-- Whether the operation takes the next address from a stack or from memory. -/
def Opcode.isDynamic : Opcode → Bool
  | loopWhile | loop | ret | call | jump => true
  | _ => false

namespace Program

/-- Whether no operation of the program takes the next address from a stack or from memory. -/
def isStatic (p : Program) : Bool := p.all fun i => !i.opcode?.any Opcode.isDynamic

theorem isDynamic_eq_false {p : Program} (h : p.isStatic = true) {k : Nat} {i : Instruction}
    {code : Opcode} (hi : p[k]? = some i) (hcode : i.opcode? = some code) :
    code.isDynamic = false := by
  have hall := List.all_eq_true.1 h i (List.mem_of_getElem? hi)
  simpa [hcode] using hall

/-- The targets of a program that was read point forward. -/
theorem forward_parse (source : String) : (parse source).Forward :=
  forward_resolve fun _ => target?_of_mem_unresolved

end Program

/-! ## Ends and steps of static programs -/

/-- The ends that a static program of `size` instructions can come to: the end of the program, an
instruction that stops the pass, and a media switch if there is leave for it. -/
def PassEnd.Orderly (size : Nat) (maySwitch : Bool) : PassEnd → Prop
  | .halted .endOfProgram => True
  | .halted (.terminated addr) => addr < size
  | .halted (.illegalMediaSwitch addr) => addr < size ∧ maySwitch = false
  | .halted (.outOfRange _) => False
  | .switched _ resume => resume ≤ size ∧ maySwitch = true

namespace Machine

variable {a : Addressing} {p : Program} {fuel k : Nat} {i : Instruction}

/-- Control goes on behind `addr` and not beyond the end of the program, or the pass comes to an
orderly end. -/
def Flow.Onward (size addr : Nat) (maySwitch : Bool) : Flow → Prop
  | .goto target => ∃ next : Nat, target = next ∧ addr < next ∧ next ≤ size
  | .stop finish => finish.Orderly size maySwitch

theorem Flow.Onward.of_le {size addr addr' : Nat} {maySwitch : Bool} {flow : Flow}
    (h : flow.Onward size addr' maySwitch) (hle : addr ≤ addr') :
    flow.Onward size addr maySwitch := by
  cases flow with
  | goto target =>
    obtain ⟨next, rfl, hlt, hnext⟩ := h
    exact ⟨next, rfl, Nat.lt_of_le_of_lt hle hlt, hnext⟩
  | stop finish => exact h

/-- The exit of an instruction of a static program goes forward. -/
theorem onward_transfer (hforward : p.Forward) (hstatic : p.isStatic = true)
    (hi : p[k]? = some i) {exit : Exit} (hfits : exit.FitsAt k i) (m : Machine) :
    (m.transfer exit).1.Onward p.length k m.maySwitch := by
  have hk : k < p.length := (List.getElem?_eq_some_iff.1 hi).1
  have hcode : ∀ code, i.opcode? = some code → code.isDynamic = false :=
    fun code => Program.isDynamic_eq_false hstatic hi
  cases exit with
  | goto next =>
    obtain ⟨last, hlast, rfl⟩ := hfits
    obtain ⟨hlt, hinside⟩ := hforward k i last hi hlast
    exact ⟨last + 1, rfl, by omega, hinside⟩
  | ifZero skipTo next =>
    obtain ⟨rfl, last, hlast, rfl⟩ := hfits
    obtain ⟨hlt, hinside⟩ := hforward k i last hi hlast
    simp only [transfer]
    split
    · exact ⟨last + 1, rfl, by omega, hinside⟩
    · exact ⟨k + 1, rfl, by omega, hk⟩
  | loopWhile | countDown => exact absurd (hcode _ hfits.1) (by decide)
  | ret | call | jump | jumpTo => exact absurd (hcode _ hfits) (by decide)
  | switch here resume =>
    obtain ⟨-, rfl, rfl⟩ := hfits
    cases hmay : m.maySwitch with
    | false => simpa [transfer, hmay, Flow.Onward, PassEnd.Orderly] using hk
    | true => simpa [transfer, hmay, Flow.Onward, PassEnd.Orderly] using Nat.succ_le_of_lt hk
  | terminate here =>
    obtain ⟨-, rfl⟩ := hfits
    exact hk

/-- The block of an address ends with the exit of an instruction at or behind it, or at the end of
the program. -/
theorem exit_blockFrom (a : Addressing) (hk : k ≤ p.length) :
    (blockFrom p.length ((p.lowered a).drop k)).exit = .goto p.length ∨
      ∃ j i, k ≤ j ∧ p[j]? = some i ∧
        (blockFrom p.length ((p.lowered a).drop k)).exit.FitsAt j i := by
  refine Program.block_induction (a := a) (motive := fun k block => block.exit = .goto p.length ∨
    ∃ j i, k ≤ j ∧ p[j]? = some i ∧ block.exit.FitsAt j i) ?_ ?_ ?_ hk
  · exact .inl rfl
  · intro k hlt exit hx
    exact .inr ⟨k, p[k], Nat.le_refl k, List.getElem?_eq_getElem hlt, Instruction.exit_lower hx⟩
  · intro k hlt block hx ih
    rcases ih with hend | ⟨j, i, hj, hi, hfits⟩
    · exact .inl hend
    · exact .inr ⟨j, i, by omega, hi, hfits⟩

/-- **Every block of a static program goes forward** or comes to an orderly end. -/
theorem onward_runBlock (hforward : p.Forward) (hstatic : p.isStatic = true) (hk : k < p.length)
    (m : Machine) :
    (m.runBlock (blockFrom p.length ((p.lowered a).drop k))).1.Onward p.length k m.maySwitch := by
  rw [← maySwitch_of_fixed (fixed_steps m (blockFrom p.length ((p.lowered a).drop k)).ops)]
  rcases exit_blockFrom a (Nat.le_of_lt hk) with hend | ⟨j, i, hj, hi, hfits⟩
  · rw [runBlock, hend]
    exact ⟨p.length, rfl, hk, Nat.le_refl _⟩
  · exact (onward_transfer hforward hstatic hi hfits _).of_le hj

/-! ## Runs of static programs -/

/-- Addresses in ascending order from `start` on and below `size`. -/
structure Ascending (start size : Nat) (addrs : List Nat) : Prop where
  pairwise : addrs.Pairwise (· < ·)
  bounds : ∀ addr ∈ addrs, start ≤ addr ∧ addr < size
  length_le : addrs.length ≤ size - start

theorem ascending_nil (start size : Nat) : Ascending start size [] := ⟨.nil, by simp, by simp⟩

theorem Ascending.cons {start next size : Nat} {addrs : List Nat} (h : Ascending next size addrs)
    (hlt : start < next) (hle : next ≤ size) : Ascending start size (start :: addrs) where
  pairwise :=
    List.pairwise_cons.2
      ⟨fun addr haddr => Nat.lt_of_lt_of_le hlt (h.bounds addr haddr).1, h.pairwise⟩
  bounds := by
    intro addr haddr
    rcases List.mem_cons.1 haddr with rfl | haddr
    · omega
    · have := h.bounds addr haddr
      omega
  length_le := by
    have := h.length_le
    rw [List.length_cons]
    omega

/-- **A run of a static program comes to an orderly end**, and the blocks it enters ascend, so that
there is at most one for each address. -/
theorem ends_orderly (hforward : p.Forward) (hstatic : p.isStatic = true) {start : Nat}
    (hstart : start ≤ p.length) (hfuel : p.length - start < fuel) (m : Machine) :
    ∃ finish m', dispatch (p.compile a) fuel start m = some (finish, m') ∧
      finish.Orderly p.length m.maySwitch ∧
      Ascending start p.length ((entered (p.compile a) fuel start m).map Prod.fst) := by
  -- every block goes forward, and every block uses one unit of fuel
  induction fuel generalizing start m with
  | zero => omega
  | succ fuel ih =>
    by_cases hend : start = p.length
    · have hout : (start : Int) < 0 ∨ (p.length : Int) ≤ start := .inr (by omega)
      refine ⟨_, m, dispatch_of_outside hout fuel m, ?_, ?_⟩
      · rw [hend, leaveAt, if_pos rfl]
        trivial
      · rw [entered_of_outside hout]
        exact ascending_nil _ _
    · have hk : start < p.length := by omega
      have honward := onward_runBlock (a := a) hforward hstatic hk m
      have hfixed := fixed_runBlock m (blockFrom p.length ((p.lowered a).drop start))
      rw [dispatch_of_inside hk, entered_of_inside hk]
      rcases hrun : m.runBlock (blockFrom p.length ((p.lowered a).drop start)) with
        ⟨target | finish, m₁⟩
      · rw [hrun] at honward hfixed
        obtain ⟨next, rfl, hlt, hnext⟩ := honward
        obtain ⟨finish, m', hdispatch, horderly, hascending⟩ := ih hnext (by omega) m₁
        rw [maySwitch_of_fixed hfixed] at horderly
        exact ⟨finish, m', hdispatch, horderly, hascending.cons hlt hnext⟩
      · rw [hrun] at honward
        refine ⟨finish, m₁, rfl, honward, ?_⟩
        exact (ascending_nil (start + 1) p.length).cons (Nat.lt_succ_self _) hk

end Machine

/-! ## Players of static programs -/

namespace Player

variable {fuel : Nat} {p : Player} {x y : UInt8}

open Machine (dispatch)

/-- A sample returns if every pass of it does. -/
theorem exists_sample (size : Nat) (hends : ∀ (start : Nat) (m : Machine), start ≤ size →
      ∃ finish m', dispatch p.code fuel start m = some (finish, m') ∧
        finish.Orderly size m.maySwitch) :
    ∃ s p', p.sample fuel x y = some (s, p') := by
  obtain ⟨config, source, program, code, machine, layout, lastFault⟩ := p
  obtain ⟨finish, m₁, hvideo, horderly⟩ :=
    hends 0 (machine.passStart .video config.audio x y) (Nat.zero_le _)
  have hpass : machine.runPass code fuel 0 .video config.audio x y = some (finish, m₁) := hvideo
  simp only [sample, hpass, Option.bind_eq_bind, Option.bind_some]
  cases finish with
  | switched video resume =>
    obtain ⟨finish, m₂, haudio, -⟩ := hends resume (m₁.passStart .audio false x y) horderly.1
    have hpass₂ : m₁.runPass code fuel resume .audio false x y = some (finish, m₂) := haudio
    simp only [hpass₂, Option.bind_some]
    exact ⟨_, _, rfl⟩
  | halted fault =>
    obtain ⟨finish, m₂, haudio, -⟩ :=
      hends 0 ({ m₁ with data := m₁.data.drop }.passStart .audio false x y) (Nat.zero_le _)
    have hpass₂ : { m₁ with data := m₁.data.drop }.runPass code fuel 0 .audio false x y =
        some (finish, m₂) := haudio
    simp only [Stack.pop, hpass₂, Option.bind_some]
    split
    · exact ⟨_, _, rfl⟩
    · split
      · exact ⟨_, _, rfl⟩
      · exact ⟨_, _, rfl⟩

/-- **Static programs finish.**  Take a text that denotes a static program, however its openers and
closers are nested.  From every address and in every state its code comes to one orderly end, never
outside the program, and enters ascending addresses on the way, so at most one block for each.
Hence every player can load it, and every player of its code, whatever its machine and settings
are, can compute every sample. -/
theorem static_programs_finish (source : String)
    (hstatic : (Program.parse source).isStatic = true) :
    (∀ (a : Addressing) (m : Machine) (start : Nat), start ≤ (Program.parse source).length →
      ∃ finish m', finish.Orderly (Program.parse source).length m.maySwitch ∧
        ∀ fuel, (Program.parse source).length - start < fuel →
          dispatch ((Program.parse source).compile a) fuel start m = some (finish, m') ∧
          Machine.Ascending start (Program.parse source).length
            ((Machine.entered ((Program.parse source).compile a) fuel start m).map Prod.fst)) ∧
    ∀ fuel, (Program.parse source).length < fuel →
      (∀ q : Player, ∃ p, q.load fuel source = some p ∧ p.config = q.config ∧
        p.code = (Program.parse source).compile p.config.addressing) ∧
      ∀ (p : Player) (a : Addressing), p.code = (Program.parse source).compile a →
        ∀ x y, ∃ s p', p.sample fuel x y = some (s, p') ∧ p'.code = p.code := by
  have hforward := Program.forward_parse source
  refine ⟨fun a m start hstart => ?_, fun fuel hfuel => ⟨fun q => ?_, fun p a hcode x y => ?_⟩⟩
  · obtain ⟨finish, m', hrun, horderly, -⟩ :=
      Machine.ends_orderly (a := a) hforward hstatic hstart (Nat.lt_succ_self _) m
    refine ⟨finish, m', horderly, fun fuel hfuel => ?_⟩
    obtain ⟨finish', m'', hrun', -, hascending⟩ :=
      Machine.ends_orderly (a := a) hforward hstatic hstart hfuel m
    rw [Machine.dispatch_unique hrun hrun']
    exact ⟨hrun', hascending⟩
  · obtain ⟨finish, m, hrun, -⟩ :=
      Machine.ends_orderly (a := q.config.addressing) hforward hstatic (Nat.zero_le _)
        (Nat.lt_of_le_of_lt (Nat.sub_le _ _) hfuel) q.machine.dryStart
    have hload : q.load fuel source = some ({ q with source }.loaded m) := by
      rw [load, reload_eq]
      exact congrArg (Option.map _) hrun
    exact ⟨_, hload, rfl, rfl⟩
  · obtain ⟨s, p', hsample⟩ : ∃ s p', p.sample fuel x y = some (s, p') := by
      refine exists_sample (Program.parse source).length fun start m hstart => ?_
      rw [hcode]
      obtain ⟨finish, m', hrun, horderly, -⟩ := Machine.ends_orderly (a := a) hforward hstatic
        hstart (Nat.lt_of_le_of_lt (Nat.sub_le _ _) hfuel) m
      exact ⟨finish, m', hrun, horderly⟩
    obtain ⟨m, fault, rfl, -⟩ := atRest_of_sample hsample
    exact ⟨s, _, hsample, rfl⟩

/-- A `:` that closes a `?` across another `:`, and a `;` too many: the program is entered in the
middle, loaded and sampled, all within one block for each address. -/
theorem crossed_conditionals_finish :
    (Program.parse "1??:M:;T;;").isStatic = true ∧
    (∃ finish m', finish.Orderly 10 false ∧
      dispatch ((Program.parse "1??:M:;T;;").compile .full) 9 2 (.fresh .full) =
        some (finish, m')) ∧
    ∃ p s p', (blank { audio := true }).load 11 "1??:M:;T;;" = some p ∧
      p.sample 11 7 8 = some (s, p') := by
  have hlength : (Program.parse "1??:M:;T;;").length = 10 := by rfl
  have hstatic : (Program.parse "1??:M:;T;;").isStatic = true := by rfl
  obtain ⟨hruns, hplayers⟩ := static_programs_finish _ hstatic
  obtain ⟨hload, hsample⟩ := hplayers 11 (by rw [hlength]; decide)
  refine ⟨hstatic, ?_, ?_⟩
  · obtain ⟨finish, m', horderly, hrun⟩ := hruns .full (.fresh .full) 2 (by rw [hlength]; decide)
    rw [hlength] at horderly
    exact ⟨finish, m', horderly, (hrun 9 (by rw [hlength]; decide)).1⟩
  · obtain ⟨p, hp, -, hcode⟩ := hload (blank { audio := true })
    obtain ⟨s, p', hs, -⟩ := hsample p _ hcode 7 8
    exact ⟨p, s, p', hp, hs⟩

end Player
end GlyphMachine
