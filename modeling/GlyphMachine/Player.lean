import GlyphMachine.Code.Compile
import GlyphMachine.Machine.Dispatch
import GlyphMachine.Program.Parse

/-!
# Players

A player holds a loaded program and computes its samples.

* Loading calibrates: a dry pass over three zeros, in scratch memory, with no context.  A program
  that leaves more than one word did not want three, and gets its context packed in one word.
* A sample starts with a video pass.  If the program switches media, a fresh audio pass goes on
  after the switch.  If it does not and sound is wanted, the video word of a packed program
  serves as the audio word unless recalculation is asked for; otherwise the program runs again
  from the start as an audio pass.

Passes may go on for ever, so each is given `fuel` blocks; `none` means that one of them ran out.

A sample is what a program gives for one place and time: a video word and an audio word.
-/

namespace GlyphMachine

/-! ## Samples -/

/-- The two output words. -/
structure Sample where
  video : Word
  audio : Word
deriving DecidableEq

namespace Sample

/-- The brightness. -/
def luma (s : Sample) : UInt8 := (s.video.toUInt32 >>> 8).toUInt8

/-- The first colour difference. -/
def chromaU (s : Sample) : UInt8 := (s.video.toUInt32 >>> 16).toUInt8

/-- The second colour difference. -/
def chromaV (s : Sample) : UInt8 := (s.video.toUInt32 >>> 24).toUInt8

/-- The sound level: the fraction half of the audio word, signed. -/
def pcm (s : Sample) : Int16 := s.audio.toInt16

end Sample

/-! ## Passes -/

/-- The settings of a player. -/
structure Config where
  addressing : Addressing := .full
  /-- Compute audio words. -/
  audio : Bool := false
  /-- Run a second pass for audio even if the video word could be used. -/
  recalcAudio : Bool := false
  /-- Forget the memory when a program is loaded. -/
  clearMemoryOnLoad : Bool := false
deriving DecidableEq

namespace Machine

/-- Runs a pass on fresh stacks that hold the context of the sample. -/
def runPass (code : Code) (fuel start : Nat) (pass : Pass) (maySwitch : Bool) (x y : UInt8)
    (m : Machine) : Option (PassEnd × Machine) :=
  dispatch code fuel start { m.reset pass x y with maySwitch }.pushContext

/-- Runs the dry pass on three zeros.  Stores go to scratch memory and are forgotten. -/
def dryRun (code : Code) (fuel : Nat) (m : Machine) : Option Machine := do
  let memory := m.memory
  let m := { m.reset .video 0 0 with layout := none, maySwitch := false, memory := .zero }
  let m := { m with data := ((m.data.push 0).push 0).push 0 }
  let (_, m) ← dispatch code fuel 0 m
  some { m with memory }

/-- The layout that a dry pass calls for. -/
def calibratedLayout (m : Machine) : Layout := if 1 < m.data.size then .packed else .tuple

end Machine

/-- The fault that ended a pass, if it did not switch media. -/
def PassEnd.fault? : PassEnd → Option Fault
  | halted fault => some fault
  | switched _ _ => none

/-- A loaded program with the machine that runs it. -/
structure Player where
  config : Config
  source : String
  program : Program
  code : Code
  machine : Machine
  layout : Layout
  /-- What ended the last pass that stopped. -/
  lastFault : Option Fault

namespace Player

/-! ## Loading -/

/-- A player before anything is loaded. -/
def blank (config : Config) : Player where
  config := config
  source := ""
  program := []
  code := .empty
  machine := .fresh config.addressing
  layout := .packed
  lastFault := none

/-- Reads the source again, and calibrates. -/
def reload (fuel : Nat) : Player → Option Player
  | ⟨config, source, _, _, machine, _, lastFault⟩ => do
    let program := Program.parse source
    let code := program.compile config.addressing
    let machine := if config.clearMemoryOnLoad then { machine with memory := .zero } else machine
    let machine ← machine.dryRun code fuel
    let layout := machine.calibratedLayout
    let machine := { machine with layout := some layout }
    some ⟨config, source, program, code, machine, layout, lastFault⟩

/-- Loads a program. -/
def load (fuel : Nat) (source : String) (p : Player) : Option Player :=
  { p with source }.reload fuel

/-- A player of the empty program. -/
def new (fuel : Nat) (config : Config) : Option Player := (blank config).reload fuel

/-- A player of the given program. -/
def ofSource (fuel : Nat) (source : String) (config : Config) : Option Player := do
  (← new fuel config).load fuel source

/-! ## Playing -/

/-- Computes the sample at `(x, y)`. -/
def sample (fuel : Nat) (x y : UInt8) : Player → Option (Sample × Player)
  | ⟨config, source, program, code, machine, layout, lastFault⟩ => do
    let (finish, machine) ← machine.runPass code fuel 0 .video config.audio x y
    match finish with
    | .switched video resume =>
      let (finish, machine) ← machine.runPass code fuel resume .audio false x y
      let (audio, data) := machine.data.pop
      some (⟨video, audio⟩, ⟨config, source, program, code, { machine with data }, layout,
        finish.fault?.or lastFault⟩)
    | .halted fault =>
      let (video, data) := machine.data.pop
      let machine := { machine with data }
      if !config.audio then
        some (⟨video, 0⟩, ⟨config, source, program, code, machine, layout, some fault⟩)
      else if layout = .packed && !config.recalcAudio then
        some (⟨video, video⟩, ⟨config, source, program, code, machine, layout, some fault⟩)
      else
        let (finish, machine) ← machine.runPass code fuel 0 .audio false x y
        let (audio, data) := machine.data.pop
        some (⟨video, audio⟩, ⟨config, source, program, code, { machine with data }, layout,
          finish.fault?.or (some fault)⟩)

/-- The time that samples are computed for. -/
def time (p : Player) : UInt16 := p.machine.time

/-- Sets the time; only its low 16 bits count. -/
def setTime (t : UInt32) (p : Player) : Player :=
  { p with machine := { p.machine with time := t.toUInt16 } }

/-- The word of memory at an address. -/
def peek (addr : UInt32) (p : Player) : Word := p.machine.memory.get addr.toNat

/-- Writes the word of memory at an address. -/
def poke (addr : UInt32) (w : Word) (p : Player) : Player :=
  { p with machine := { p.machine with memory := p.machine.memory.put addr.toNat w } }

end Player
end GlyphMachine
