import GlyphMachine.Settings

/-!
# Command-line arguments

The tool has three verbs.  Each takes exactly one program, as a file or as text, settings that
override the settings file, and options of its own.  `Arguments.parse` reads the arguments from
left to right and stops at the first that is wrong, or that asks for help or for the version.

* `--name value`, `--name=value`, `-n value`, `-nvalue` and `-n=value` give an option its value.
  A value that stands apart must not start with `-`, unless it is just that.
* Flags with one letter may be run together, and the last of them may take a value.
* A switch is on when it stands alone, and takes a value only after `=`.
* After `--` everything is an operand.
* An option is given at most once; those that may also stand before the verb, once on each side.
-/

namespace GlyphMachine.Command

/-- What an option takes. -/
inductive Arity where
  /-- No value. -/
  | flag
  /-- A value, attached or in the next argument. -/
  | value
  /-- An optional value, only attached. -/
  | switch
deriving DecidableEq

/-- The options of the tool. -/
inductive Opt where
  | help
  | version
  | verbose
  | config
  | code
  | addressing
  | audio
  | recalcAudio
  | clearMemory
  | x
  | y
  | t
  | frames
  | out
  | audioOut
deriving DecidableEq

namespace Opt

/-- The long name. -/
def long : Opt → String
  | help => "help"
  | version => "version"
  | verbose => "verbose"
  | config => "config"
  | code => "code"
  | addressing => "addressing"
  | audio => "audio"
  | recalcAudio => "recalc-audio"
  | clearMemory => "clear-memory"
  | x => "x"
  | y => "y"
  | t => "t"
  | frames => "frames"
  | out => "out"
  | audioOut => "audio-out"

/-- The one-letter name, if there is one. -/
def short? : Opt → Option Char
  | help => some 'h'
  | version => some 'V'
  | verbose => some 'v'
  | code => some 'e'
  | out => some 'o'
  | _ => none

/-- What the option takes. -/
def arity : Opt → Arity
  | help | version | verbose => .flag
  | audio | recalcAudio | clearMemory => .switch
  | _ => .value

end Opt

/-- What the tool can do. -/
inductive Verb where
  /-- List a program. -/
  | disasm
  /-- Compute one sample. -/
  | eval
  /-- Render frames. -/
  | frame
deriving DecidableEq

namespace Verb

/-- The verb with the given name. -/
def ofName? : String → Option Verb
  | "disasm" => some disasm
  | "eval" => some eval
  | "frame" => some frame
  | _ => none

/-- The options that every verb takes. -/
def sharedOptions : List Opt :=
  [.help, .verbose, .config, .code, .addressing, .audio, .recalcAudio, .clearMemory]

/-- The options that may follow the verb. -/
def options : Verb → List Opt
  | disasm => sharedOptions
  | eval => sharedOptions ++ [.x, .y, .t]
  | frame => sharedOptions ++ [.t, .frames, .out, .audioOut]

end Verb

/-- The options that may stand before the verb. -/
def leadingOptions : List Opt := [.help, .version, .verbose, .config]

/-! ## Causes to stop -/

/-- What is wrong with the arguments. -/
inductive UsageError where
  | unknownOption (name : String)
  | missingValue (o : Opt)
  | unexpectedValue (o : Opt)
  | invalidValue (o : Opt) (text : String)
  | repeated (o : Opt)
  | unexpectedOperand (text : String)
  | emptyPath
  | missingVerb
  | unknownVerb (name : String)
  | missingProgram
  | twoPrograms
  | missingOut
deriving DecidableEq

/-- The wording of the cause. -/
def UsageError.message : UsageError → String
  | unknownOption name => "unexpected option '" ++ name ++ "'"
  | missingValue o => "a value is required for '--" ++ o.long ++ "'"
  | unexpectedValue o => "no value is allowed for '--" ++ o.long ++ "'"
  | invalidValue o text => "invalid value '" ++ text ++ "' for '--" ++ o.long ++ "'"
  | repeated o => "'--" ++ o.long ++ "' is given more than once"
  | unexpectedOperand text => "unexpected argument '" ++ text ++ "'"
  | emptyPath => "a file name must not be empty"
  | missingVerb => "a command is required: disasm, eval or frame"
  | unknownVerb name => "unknown command '" ++ name ++ "'"
  | missingProgram => "a program is required: a file, or --code"
  | twoPrograms => "a file and --code exclude each other"
  | missingOut => "'--out' is required"

/-- Why reading arguments ends before a command is run. -/
inductive Stop where
  | help
  | version
  | usage (e : UsageError)
deriving DecidableEq

/-- The values given on one side of the verb. -/
structure Given where
  verbose : Option Bool := none
  config : Option String := none
  file : Option String := none
  code : Option String := none
  settings : Settings := {}
  x : Option UInt8 := none
  y : Option UInt8 := none
  t : Option UInt32 := none
  frames : Option UInt32 := none
  out : Option String := none
  audioOut : Option String := none
deriving DecidableEq

/-! ## Values -/

/-- A decimal number up to `limit`, with an optional sign. -/
def number? (limit : Nat) (text : String) : Option Nat :=
  let magnitude? (ds : List Char) : Option Nat :=
    if ds ≠ [] ∧ ds.all Char.isDigit then
      some (ds.foldl (fun n d => 10 * n + (d.toNat - 48)) 0)
    else none
  match text.toList with
  | '+' :: ds => (magnitude? ds).filter (· ≤ limit)
  | '-' :: ds => (magnitude? ds).filter (· = 0)
  | ds => (magnitude? ds).filter (· ≤ limit)

/-- A truth value. -/
def boolean? : String → Option Bool
  | "true" => some true
  | "false" => some false
  | _ => none

/-- A file name. -/
def path? (text : String) : Option String := if text = "" then none else some text

/-- The value of an option that must not have one yet. -/
def once {α : Type} (o : Opt) (text : String) (old new : Option α) : Except Stop (Option α) :=
  match old, new with
  | some _, _ => .error (.usage (.repeated o))
  | none, none => .error (.usage (.invalidValue o text))
  | none, some a => .ok (some a)

namespace Given

/-- Takes an option with its value into account. -/
def accept (g : Given) (o : Opt) (text : String) : Except Stop Given :=
  match o with
  | .help => .error .help
  | .version => .error .version
  | .verbose => do
    let verbose ← once o text g.verbose (some true)
    return { g with verbose }
  | .config => do
    let config ← once o text g.config (path? text)
    return { g with config }
  | .code => do
    let code ← once o text g.code (some text)
    return { g with code }
  | .addressing => do
    let addressing ← once o text g.settings.addressing (Addressing.ofName? text)
    return { g with settings := { g.settings with addressing } }
  | .audio => do
    let audio ← once o text g.settings.audio (boolean? text)
    return { g with settings := { g.settings with audio } }
  | .recalcAudio => do
    let recalcAudio ← once o text g.settings.recalcAudio (boolean? text)
    return { g with settings := { g.settings with recalcAudio } }
  | .clearMemory => do
    let clearMemoryOnLoad ← once o text g.settings.clearMemoryOnLoad (boolean? text)
    return { g with settings := { g.settings with clearMemoryOnLoad } }
  | .x => do
    let x ← once o text g.x ((number? 255 text).map UInt8.ofNat)
    return { g with x }
  | .y => do
    let y ← once o text g.y ((number? 255 text).map UInt8.ofNat)
    return { g with y }
  | .t => do
    let t ← once o text g.t ((number? 4294967295 text).map UInt32.ofNat)
    return { g with t }
  | .frames => do
    let frames ← once o text g.frames ((number? 4294967295 text).map UInt32.ofNat)
    return { g with frames }
  | .out => do
    let out ← once o text g.out (path? text)
    return { g with out }
  | .audioOut => do
    let audioOut ← once o text g.audioOut (path? text)
    return { g with audioOut }

/-- Takes an operand into account: the program file, of which there is only one. -/
def operand (g : Given) (text : String) : Except Stop Given :=
  match g.file, path? text with
  | some _, _ => .error (.usage (.unexpectedOperand text))
  | none, none => .error (.usage .emptyPath)
  | none, some path => .ok { g with file := some path }

end Given

/-! ## Reading -/

/-- The values read so far, and the option that still waits for its value. -/
structure Reading where
  given : Given := {}
  pending : Option Opt := none

namespace Reading

/-- Refuses to go on while an option waits for its value. -/
def settled (r : Reading) : Except Stop Given :=
  match r.pending with
  | none => .ok r.given
  | some o => .error (.usage (.missingValue o))

/-- Reads an option with a long name, after the dashes. -/
def longOption (options : List Opt) (g : Given) (text : List Char) : Except Stop Reading := do
  let name := String.ofList (text.takeWhile (· != '='))
  let attached := match text.dropWhile (· != '=') with
    | [] => none
    | _ :: value => some (String.ofList value)
  match options.find? (·.long == name) with
  | none => throw (.usage (.unknownOption ("--" ++ name)))
  | some o =>
    match o.arity, attached with
    | .flag, none => return { given := ← g.accept o "" }
    | .flag, some _ => throw (.usage (.unexpectedValue o))
    | .switch, none => return { given := ← g.accept o "true" }
    | .value, none => return { given := g, pending := some o }
    | _, some value => return { given := ← g.accept o value }

/-- Reads one-letter options that are run together, after the dash. -/
def shortOptions (options : List Opt) (g : Given) : List Char → Except Stop Reading
  | [] => .ok { given := g }
  | c :: rest =>
    match options.find? (·.short? == some c) with
    | none => .error (.usage (.unknownOption ("-" ++ String.singleton c)))
    | some o =>
      match o.arity, rest with
      | .value, [] => .ok { given := g, pending := some o }
      | .value, '=' :: value => do return { given := ← g.accept o (String.ofList value) }
      | .value, value => do return { given := ← g.accept o (String.ofList value) }
      | _, rest => do shortOptions options (← g.accept o "") rest

/-- Reads an argument that is an option or the value of one; `none` if it is an operand. -/
def argument (options : List Opt) (r : Reading) (text : String) : Except Stop (Option Reading) :=
  match text.toList with
  | '-' :: '-' :: name => do return some (← longOption options (← r.settled) name)
  | '-' :: c :: rest => do return some (← shortOptions options (← r.settled) (c :: rest))
  | _ =>
    match r.pending with
    | none => .ok none
    | some o => do return some { given := ← r.given.accept o text }

end Reading

/-- Reads the arguments after the verb. -/
def readArguments (options : List Opt) (r : Reading) : List String → Except Stop Given
  | [] => r.settled
  | "--" :: rest => do rest.foldlM Given.operand (← r.settled)
  | arg :: rest => do
    match ← r.argument options arg with
    | some r => readArguments options r rest
    | none => readArguments options { given := ← r.given.operand arg } rest

/-- Reads the arguments up to the verb: what was given, the verb, and what follows it. -/
def readLeading (r : Reading) : List String → Except Stop (Given × String × List String)
  | [] => do
    let _ ← r.settled
    throw (.usage .missingVerb)
  | "--" :: _ => .error (.usage .missingVerb)
  | arg :: rest => do
    match ← r.argument leadingOptions arg with
    | some r => readLeading r rest
    | none => return (r.given, arg, rest)

/-! ## Invocations -/

/-- Where the program comes from. -/
inductive ProgramSource where
  | file (path : String)
  | code (text : String)
deriving DecidableEq

/-- The verb with its own options. -/
inductive Task where
  | disasm
  | eval (x y : UInt8) (t : UInt32)
  | frame (t : UInt32) (frames : UInt32) (out : String) (audioOut : Option String)
deriving DecidableEq

/-- A complete command. -/
structure Invocation where
  /-- The settings file. -/
  config : Option String
  /-- The settings that override the file. -/
  settings : Settings
  source : ProgramSource
  task : Task
deriving DecidableEq

/-- The program that the options name. -/
def Given.source (g : Given) : Except Stop ProgramSource :=
  match g.file, g.code with
  | some path, none => .ok (.file path)
  | none, some text => .ok (.code text)
  | some _, some _ => .error (.usage .twoPrograms)
  | none, none => .error (.usage .missingProgram)

/-- The task of a verb, with what its options leave out filled in. -/
def Given.task (g : Given) : Verb → Except Stop Task
  | .disasm => .ok .disasm
  | .eval => .ok (.eval (g.x.getD 0) (g.y.getD 0) (g.t.getD 0))
  | .frame =>
    match g.out with
    | some out => .ok (.frame (g.t.getD 0) (g.frames.getD 1) out g.audioOut)
    | none => .error (.usage .missingOut)

/-- Answers a request for help on a verb. -/
def helpOn : List String → Stop
  | [] => .help
  | [name] =>
    if name = "help" ∨ (Verb.ofName? name).isSome then .help else .usage (.unknownVerb name)
  | _ :: name :: _ => .usage (.unknownVerb name)

/-- Reads the arguments of a command. -/
def Invocation.parse (args : List String) : Except Stop Invocation := do
  let (leading, name, rest) ← readLeading {} args
  match Verb.ofName? name with
  | none => throw (if name = "help" then helpOn rest else .usage (.unknownVerb name))
  | some verb =>
    let g ← readArguments verb.options {} rest
    return {
      config := g.config.or leading.config
      settings := g.settings
      source := ← g.source
      task := ← g.task verb }

end GlyphMachine.Command
