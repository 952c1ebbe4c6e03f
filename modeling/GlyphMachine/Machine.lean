import GlyphMachine.Addressing
import GlyphMachine.Stack

/-!
# The machine

A machine has a data stack for operands, a control stack for return addresses and loop markers,
and memory.  Beside them stands the context of the pass being run, which programs can read but
not change.

Every pass ends: by running off the end of the program, by an instruction that stops it, by a
jump outside the program, or by handing over to the audio pass.
-/

namespace GlyphMachine

/-! ## How a pass ends -/

/-- Why a pass stopped. -/
inductive Fault where
  /-- The instruction at `addr` ended the pass. -/
  | terminated (addr : Nat)
  /-- The instruction at `addr` asked for a media switch that is not allowed now. -/
  | illegalMediaSwitch (addr : Nat)
  /-- Control reached the address after the last instruction. -/
  | endOfProgram
  /-- Control went to an address that the program does not have. -/
  | outOfRange (target : Int)
deriving DecidableEq

/-- The wording of the cause. -/
def Fault.message : Fault → String
  | terminated addr => "terminated at instruction " ++ toString addr
  | illegalMediaSwitch addr => "media switch not allowed at instruction " ++ toString addr
  | endOfProgram => "end of program"
  | outOfRange target => "jump to " ++ toString target ++ " outside the program"

/-- How a pass ended. -/
inductive PassEnd where
  /-- The result is what the data stack holds. -/
  | halted (fault : Fault)
  /-- The video word was popped, and audio goes on at `resume`. -/
  | switched (video : Word) (resume : Nat)
deriving DecidableEq

/-! ## Contexts and machines -/

/-- The output that a pass computes. -/
inductive Pass where
  | video
  | audio
deriving DecidableEq

/-- The form in which a video pass gets its context. -/
inductive Layout where
  /-- One word with time, row and column. -/
  | packed
  /-- Three words: time, row and column, the last two scaled to `-1.0 … 1.0`. -/
  | tuple
deriving DecidableEq

/-- What a pass is told about the sample it computes. -/
structure Context where
  addressing : Addressing
  time : UInt16 := 0
  /-- The column. -/
  x : UInt8 := 0
  /-- The row. -/
  y : UInt8 := 0
  pass : Pass := .video
  /-- The form of the video context; `none` while it is being found out. -/
  layout : Option Layout := none
  /-- Whether the pass may hand over to audio. -/
  maySwitch : Bool := false
deriving DecidableEq

namespace Context

/-- The words that describe the sample to a pass, in the order they are pushed. -/
def words (c : Context) : List Word :=
  let time := c.time.toUInt32 <<< 16
  let y := c.y.toUInt32
  let x := c.x.toUInt32
  match c.pass, c.layout with
  | .audio, _ => [(time + ((y <<< 8) + x)).toInt32]
  | .video, some .packed => [(time ||| (y <<< 8) ||| x).toInt32]
  | .video, some .tuple =>
    [time.toInt32, (y <<< 9).toInt32 - Word.one, (x <<< 9).toInt32 - Word.one]
  | .video, none => []

end Context

/-- The number of words that fit on the data stack. -/
def dataCapacity : Nat := 0x20000

/-- The number of words that fit on the control stack. -/
def controlCapacity : Nat := 0x4000

/-- The state of a machine. -/
structure Machine extends Context where
  data : Stack
  control : Stack
  memory : Memory

namespace Machine

/-- A machine with empty stacks and nothing in memory. -/
def fresh (addressing : Addressing) : Machine where
  addressing := addressing
  data := .empty dataCapacity
  control := .empty controlCapacity
  memory := .zero

/-- The word at an address. -/
@[inline]
def get (m : Machine) (addr : Nat) : Word :=
  match m.addressing.region addr with
  | .memory addr => m.memory.get addr
  | .control index => m.control.get index
  | .data index => m.data.get index

/-- Writes the word at an address. -/
@[inline]
def put (m : Machine) (addr : Nat) (w : Word) : Machine :=
  match m.addressing.region addr with
  | .memory addr => { m with memory := m.memory.put addr w }
  | .control index => { m with control := m.control.put index w }
  | .data index => { m with data := m.data.put index w }

/-- Pushes the words that describe the sample. -/
def pushContext (m : Machine) : Machine :=
  { m with data := m.toContext.words.foldl Stack.push m.data }

/-- Clears both stacks for a pass over the sample at `(x, y)`. -/
def reset (m : Machine) (pass : Pass) (x y : UInt8) : Machine :=
  { m with pass, x, y, data := m.data.clear, control := m.control.clear }

end Machine
end GlyphMachine
