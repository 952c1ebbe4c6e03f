import GlyphMachine.Command.Arguments
import GlyphMachine.Command.Files
import GlyphMachine.Film
import GlyphMachine.Program.Printer

/-!
# Running commands

A command reads its settings file first and its program second.  Only then does it do its work,
and only the frame command writes files.  It ends with exit code 0 when the work is done, 1 when
a file stands in the way, and 2 when the arguments make no sense.
-/

namespace GlyphMachine

/-! ## Reports -/

/-- The name of a layout. -/
def Layout.name : Layout → String
  | packed => "packed"
  | tuple => "tuple"

/-- A byte in two hexadecimal digits. -/
def Text.byte (b : UInt8) : String := String.ofList (Text.hexadecimal 2 b.toNat)

/-- The bits of a word in hexadecimal, then its literal in a column of eleven characters. -/
def Word.report (w : Word) : String :=
  "0x" ++ String.ofList (Text.hexadecimal 8 w.toUInt32.toNat) ++ "  " ++
    String.ofList (Text.padRight 11 (Literal.chars w))

/-- The video line and the audio line of a sample. -/
def Sample.report (s : Sample) : String :=
  "video  " ++ s.video.report ++ " v=" ++ Text.byte s.chromaV ++ " u=" ++ Text.byte s.chromaU ++
    " y=" ++ Text.byte s.luma ++ "\n" ++
  "audio  " ++ s.audio.report ++ " pcm=" ++ toString s.pcm.toInt ++ "\n"

namespace Player

/-- The listing of the program, and a line on its size and layout. -/
def programReport (p : Player) : String :=
  p.program.listing ++ "; " ++ toString p.program.length ++ " instructions, " ++
    toString p.code.blockCount ++ " blocks, layout " ++ p.layout.name ++ "\n"

/-- The line on the last fault, if there was one. -/
def faultReport (p : Player) : String :=
  match p.lastFault with
  | some fault => "fault  " ++ fault.message ++ "\n"
  | none => ""

end Player

/-! ## Outcomes -/

namespace Command

/-- What stops a command. -/
inductive Failure where
  | cannotRead (path : String)
  | cannotParse (path : String)
  | cannotCreate (path : String)
deriving DecidableEq

/-- The wording of the cause. -/
def Failure.message : Failure → String
  | cannotRead path => "cannot read '" ++ path ++ "'"
  | cannotParse path => "cannot parse '" ++ path ++ "'"
  | cannotCreate path => "cannot create '" ++ path ++ "'"

/-- How a command ended. -/
inductive Outcome where
  /-- The work is done, with what is printed and a line for the terminal. -/
  | done (printed : String) (notice : Option String)
  | failed (cause : Failure)
  | usage (cause : UsageError)
  /-- A pass was still running when its fuel was spent. -/
  | unfinished
deriving DecidableEq

/-- The exit code. -/
def Outcome.exitCode : Outcome → UInt32
  | done _ _ => 0
  | failed _ => 1
  | usage _ => 2
  | unfinished => 1

/-- What is printed on standard output. -/
def Outcome.stdout : Outcome → String
  | done printed _ => printed
  | _ => ""

/-- What is printed on standard error. -/
def Outcome.stderr : Outcome → String
  | done _ (some notice) => notice ++ "\n"
  | done _ none => ""
  | failed cause => "error: " ++ cause.message ++ "\n"
  | usage cause => "error: " ++ cause.message ++ "\n"
  | unfinished => "error: the program does not end\n"

section

variable {m : Type → Type} [Monad m] [FileAccess m]

/-- The text of a file, if it can be read and is text. -/
def readText (path : String) : m (Option String) := do
  return (← FileAccess.read path).bind String.fromUTF8?

/-- The settings of the settings file; none are made without a file. -/
def loadSettings : Option String → m (Except Failure Settings)
  | none => return .ok {}
  | some path => do
    match ← readText path with
    | none => return .error (.cannotRead path)
    | some text =>
      match Settings.parse? text with
      | none => return .error (.cannotParse path)
      | some settings => return .ok settings

/-- The text of the program. -/
def loadSource : ProgramSource → m (Except Failure String)
  | .code text => return .ok text
  | .file path => do
    match ← readText path with
    | none => return .error (.cannotRead path)
    | some text => return .ok text

/-- Lists the program. -/
def disasm (p : Player) : Outcome := .done p.programReport none

/-- Computes and prints one sample. -/
def eval (fuel : Nat) (x y : UInt8) (t : UInt32) (p : Player) : Outcome :=
  match (p.setTime t).sample fuel x y with
  | none => .unfinished
  | some (sample, p) => .done (sample.report ++ p.faultReport) none

/-- Creates the sound file, if one is asked for; gives its name when that is impossible. -/
def createAudio : Option String → m (Option String)
  | none => return none
  | some path => do
    if ← FileAccess.create path then return none else return some path

/-- Renders frames into files. -/
def frame (fuel : Nat) (t frames : UInt32) (out : String) (audioOut : Option String)
    (p : Player) : m Outcome := do
  if !(← FileAccess.create out) then return .failed (.cannotCreate out)
  match ← createAudio audioOut with
  | some path => return .failed (.cannotCreate path)
  | none =>
    match Film.addFrames fuel t frames.toNat { player := p } with
    | none => return .unfinished
    | some film =>
      FileAccess.write out film.video
      match audioOut with
      | some path => FileAccess.write path film.audio
      | none => pure ()
      return .done "" (some ("rendered " ++ toString frames.toNat ++ " frames -> " ++ out))

/-- Does the work of a command for a loaded program. -/
def perform (fuel : Nat) (task : Task) (p : Player) : m Outcome :=
  match task with
  | .disasm => return disasm p
  | .eval x y t => return eval fuel x y t p
  | .frame t frames out audioOut => frame fuel t frames out audioOut p

/-- Runs a command. -/
def Invocation.run (fuel : Nat) (inv : Invocation) : m Outcome := do
  match ← loadSettings inv.config with
  | .error cause => return .failed cause
  | .ok settings =>
    match ← loadSource inv.source with
    | .error cause => return .failed cause
    | .ok source =>
      let config := inv.settings.apply (settings.apply {})
      match Player.ofSource fuel source config with
      | none => return .unfinished
      | some p => perform fuel inv.task p

/-- The name and version of the tool. -/
def versionText : String := "ibniz 0.1.0\n"

/-- Runs the tool with the given arguments.  A request for help is work that is done; the wording of
the help belongs to the terminal. -/
def run (fuel : Nat) (args : List String) : m Outcome :=
  match Invocation.parse args with
  | .error .help => return .done "" none
  | .error .version => return .done versionText none
  | .error (.usage cause) => return .usage cause
  | .ok inv => inv.run fuel

end

end Command
end GlyphMachine
