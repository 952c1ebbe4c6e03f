import GlyphMachine.Player

/-!
# Films

A frame has 256 rows of 256 samples.  A film holds the bytes of the frames played so far: the
video words row by row, least significant byte first, and one sound level per row, taken from
its first sample.
-/

namespace GlyphMachine

/-- Appends a word, least significant byte first. -/
def Word.appendTo (bytes : ByteArray) (w : Word) : ByteArray :=
  let u := w.toUInt32
  (((bytes.push u.toUInt8).push (u >>> 8).toUInt8).push (u >>> 16).toUInt8).push (u >>> 24).toUInt8

/-- Appends a sound level, least significant byte first. -/
def Sample.appendLevel (bytes : ByteArray) (s : Sample) : ByteArray :=
  let u := s.pcm.toUInt16
  (bytes.push u.toUInt8).push (u >>> 8).toUInt8

/-- The bytes of the frames played so far, and the player that plays them. -/
structure Film where
  player : Player
  video : ByteArray := .empty
  audio : ByteArray := .empty

namespace Film

/-- The places in a row, and the rows of a frame. -/
def places : List UInt8 := (List.range 256).map UInt8.ofNat

/-- Adds the sample at column `x` of row `y`. -/
def addSample (fuel : Nat) (y : UInt8) : Film → UInt8 → Option Film
  | ⟨player, video, audio⟩, x => do
    let (sample, player) ← player.sample fuel x y
    let video := sample.video.appendTo video
    let audio := if x = 0 then sample.appendLevel audio else audio
    some ⟨player, video, audio⟩

/-- Adds a row. -/
def addRow (fuel : Nat) (f : Film) (y : UInt8) : Option Film :=
  places.foldlM (addSample fuel y) f

/-- Adds the frame at time `t`. -/
def addFrame (fuel : Nat) (f : Film) (t : UInt32) : Option Film :=
  places.foldlM (addRow fuel) { f with player := f.player.setTime t }

/-- Adds `frames` frames, the first at time `t` and each of the others one later. -/
def addFrames (fuel : Nat) (t : UInt32) (frames : Nat) (f : Film) : Option Film :=
  (List.range frames).foldlM (fun f n => f.addFrame fuel (t + UInt32.ofNat n)) f

end Film
end GlyphMachine
