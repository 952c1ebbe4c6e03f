import GlyphMachine.Player
import GlyphMachine.Document.Parse

/-!
# Settings

Settings change some parts of a player's configuration and leave the others as they are.  They
come from a `[vm]` table and from the command line, which has the last word.
-/

namespace GlyphMachine

/-- The parts of a configuration that are to change. -/
structure Settings where
  addressing : Option Addressing := none
  audio : Option Bool := none
  recalcAudio : Option Bool := none
  clearMemoryOnLoad : Option Bool := none
deriving DecidableEq

/-- The addressing with the given name. -/
def Addressing.ofName? : String → Option Addressing
  | "full" => some full
  | "simple" => some simple
  | _ => none

namespace Settings

/-- The configuration with the changes made. -/
def apply (s : Settings) (c : Config) : Config where
  addressing := s.addressing.getD c.addressing
  audio := s.audio.getD c.audio
  recalcAudio := s.recalcAudio.getD c.recalcAudio
  clearMemoryOnLoad := s.clearMemoryOnLoad.getD c.clearMemoryOnLoad

/-! ## From a document -/

/-- A truth value. -/
def flag? : Document.Value → Option Bool
  | .boolean b => some b
  | _ => none

/-- Whether a value says nothing: an empty array or table. -/
def isUnit : Document.Value → Bool
  | .array [] => true
  | .table _ [] => true
  | _ => false

/-- An addressing: its name, or a table whose only key is the name. -/
def addressing? : Document.Value → Option Addressing
  | .string name => Addressing.ofName? name
  | .table _ [(name, v)] => if isUnit v then Addressing.ofName? name else none
  | _ => none

/-- Makes the change that a key of the table asks for. -/
def withField? (s : Settings) (key : String) (v : Document.Value) : Option Settings :=
  match key with
  | "addressing" => do some { s with addressing := some (← addressing? v) }
  | "audio" => do some { s with audio := some (← flag? v) }
  | "recalc_audio" => do some { s with recalcAudio := some (← flag? v) }
  | "clear_memory_on_load" => do some { s with clearMemoryOnLoad := some (← flag? v) }
  | _ => none

/-- The settings of a table, or of an array that gives all of them in order. -/
def ofValue? : Document.Value → Option Settings
  | .table _ fields => fields.foldlM (fun s (key, v) => s.withField? key v) {}
  | .array (a :: audio :: recalc :: clear :: _) => do
    some ⟨some (← addressing? a), some (← flag? audio), some (← flag? recalc),
      some (← flag? clear)⟩
  | _ => none

/-- The settings of a document, which may have the table `vm` and nothing else. -/
def ofDocument? : Document.Fields → Option Settings
  | [] => some {}
  | [("vm", v)] => ofValue? v
  | _ => none

/-- The settings of a file with the given text. -/
def parse? (text : String) : Option Settings := do ofDocument? (← Document.parse? text)

end Settings
end GlyphMachine
