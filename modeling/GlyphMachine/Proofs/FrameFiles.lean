import Mathlib
import GlyphMachine.Proofs.Commands
import GlyphMachine.Proofs.Films
import GlyphMachine.Proofs.Termination

/-!
# The files of the frame command

What each sample of a film finds in memory is what the samples before it left there.  The files that
the frame command writes hold this sequence of samples and nothing else.

* `Fuelled` — more fuel does not change what a function gives; players and their samples are such
  functions.
* `Command.Outputs` — the output files can be made, in places of their own; `Outputs.rendered` reads
  them back.
* `Command.frame_files_hold_samples` — hence the contents of both files.
-/

namespace GlyphMachine

/-! ## Fuel -/

/-- More fuel does not change what `f` gives. -/
def Fuelled {α : Type} (f : Nat → Option α) : Prop :=
  ∀ (fuel more : Nat) (r : α), fuel ≤ more → f fuel = some r → f more = some r

namespace Fuelled

variable {α β : Type}

theorem const (x : Option α) : Fuelled fun _ => x := fun _ _ _ _ h => h

theorem bind {f : Nat → Option α} {g : α → Nat → Option β} (hf : Fuelled f)
    (hg : ∀ a, Fuelled (g a)) : Fuelled fun fuel => (f fuel).bind fun a => g a fuel := by
  intro fuel more r hle h
  obtain ⟨a, ha, hr⟩ := Option.bind_eq_some_iff.1 h
  exact Option.bind_eq_some_iff.2 ⟨a, hf fuel more a hle ha, hg a fuel more r hle hr⟩

end Fuelled

namespace Player

theorem fuelled_reload (p : Player) : Fuelled (p.reload ·) := by
  intro fuel more r hle h
  obtain ⟨e, he, hr⟩ := Option.map_eq_some_iff.1 ((reload_eq fuel p).symm.trans h)
  exact (reload_eq more p).trans
    (Option.map_eq_some_iff.2 ⟨e, Machine.dispatch_mono hle he, hr⟩)

theorem fuelled_ofSource (source : String) (config : Config) :
    Fuelled (ofSource · source config) :=
  .bind (fuelled_reload (blank config)) fun p => fuelled_reload { p with source }

theorem fuelled_sample (x y : UInt8) (p : Player) : Fuelled (p.sample · x y) := by
  obtain ⟨config, source, program, code, machine, layout, lastFault⟩ := p
  have hpass : ∀ (m : Machine) start pass maySwitch,
      Fuelled fun fuel => m.runPass code fuel start pass maySwitch x y :=
    fun m start pass maySwitch fuel more r hle h => Machine.dispatch_mono hle h
  refine .bind (hpass machine 0 .video config.audio) ?_
  rintro ⟨finish, m⟩
  cases finish with
  | switched video resume =>
    exact .bind (hpass m resume .audio false) fun r => .const _
  | halted fault =>
    simp only
    split
    · exact .const _
    · split
      · exact .const _
      · exact .bind (hpass _ 0 .audio false) fun r => .const _

theorem fuelled_takeAll (shots : List (UInt16 × UInt8 × UInt8)) (p : Player) :
    Fuelled (takeAll · shots p) := by
  induction shots generalizing p with
  | nil => exact .const _
  | cons shot shots ih =>
    exact .bind (fuelled_sample _ _ _) fun r => .bind (ih r.2) fun r' => .const _

/-- Static programs give all their samples. -/
theorem exists_takeAll_of_isStatic {source : String} {a : Addressing} {fuel : Nat} {p : Player}
    (hstatic : (Program.parse source).isStatic = true)
    (hfuel : (Program.parse source).length < fuel)
    (hcode : p.code = (Program.parse source).compile a)
    (shots : List (UInt16 × UInt8 × UInt8)) : ∃ ss q, takeAll fuel shots p = some (ss, q) := by
  refine exists_takeAll (I := fun p => p.code = (Program.parse source).compile a)
    (fun _ _ h => h) ?_ shots hcode
  intro p x y hp
  obtain ⟨s, p', hs⟩ : ∃ s p', p.sample fuel x y = some (s, p') := by
    refine exists_sample (Program.parse source).length fun start m hstart => ?_
    obtain ⟨finish, m', hrun, horderly, -⟩ := Machine.ends_orderly (a := a)
      (Program.forward_parse source) hstatic hstart (Nat.lt_of_le_of_lt (Nat.sub_le _ _) hfuel) m
    exact ⟨finish, m', hp ▸ hrun, horderly⟩
  obtain ⟨m, fault, rfl, -⟩ := atRest_of_sample hs
  exact ⟨s, _, hs, hp⟩

end Player

/-! ## The output files -/

namespace Command

open FileSystem

/-- The output files can be made, in places of their own, and the video does not go to the null
device. -/
structure Outputs (fs : FileSystem) (out : String) (audioOut : Option String) : Prop where
  video : (fs.create? out).isSome = true
  audio : ∀ path ∈ audioOut, (fs.create? path).isSome = true
  kept : fs.find? out ≠ some .null
  apart : ∀ path ∈ audioOut, fs.locate? path ≠ fs.locate? out

/-- **Rendering into files that can be made leaves the bytes in them.** -/
theorem Outputs.rendered {fs : FileSystem} {out : String} {audioOut : Option String}
    (h : Outputs fs out audioOut) (video audio : ByteArray) :
    ∃ fs', rendered? fs out audioOut video audio = some fs' ∧ fs'.read? out = some video ∧
      ∀ path ∈ audioOut, fs.find? path ≠ some .null → fs'.read? path = some audio := by
  obtain ⟨fs', hfs'⟩ := exists_rendered? h.video h.audio video audio
  exact ⟨fs', hfs', read?_of_rendered? hfs' h.kept h.apart⟩

/-- **The files of the frame command hold the sequence of samples.**  Let the program be read, and
let all its samples end, taken in order on one player.  Let `left i` be the player that the first
`i` samples left.  Then there are bytes for the video and for the sound, of the expected lengths,
whose words and levels are those of the samples.  The sample of column `x` and row `y` in frame `n`
is taken at number `(n * 256 + y) * 256 + x`: by the player that the sample before it left, with
its memory, but at the time of the frame, which wraps around as a number of 32 bits and counts with
its low 16 bits.  Its word lies at that number, and its level at `n * 256 + y` if `x` is zero.
Whatever else the command line says, and whether it asks for the sound or not, these are the bytes
that are left in the files. -/
theorem frame_files_hold_samples {source : String} {config : Config} {p q : Player}
    {t frames : UInt32} {fuel₁ fuel₂ : Nat} {ss : List Sample}
    (hp : Player.ofSource fuel₁ source config = some p)
    (hss : p.takeAll fuel₂ (Film.filmShots t frames.toNat) = some (ss, q)) :
    ∃ (left : Nat → Player) (video audio : ByteArray) (enough : Nat), left 0 = p ∧
      video.size = frames.toNat * 262144 ∧ audio.size = frames.toNat * 512 ∧
      (∀ i, Word.nth? video i = ss[i]?.map fun s => s.video) ∧
      (∀ i, Sample.nthLevel? audio i = ss[i * 256]?.map fun s => s.audio.toInt16) ∧
      (∀ n < frames.toNat, ∀ (x y : UInt8) (i : Nat), i = (n * 256 + y.toNat) * 256 + x.toNat →
        ∃ (taker : Player) (s : Sample),
          taker = { left i with machine := { (left i).machine with
            time := UInt16.ofNat ((t.toNat + n) % 4294967296 % 65536) } } ∧
          taker.time = UInt16.ofNat ((t.toNat + n) % 4294967296 % 65536) ∧
          taker.machine.memory = (left i).machine.memory ∧
          taker.sample fuel₂ x y = some (s, left (i + 1)) ∧ ss[i]? = some s ∧
          Word.nth? video i = some s.video ∧
          (x = 0 → Sample.nthLevel? audio (n * 256 + y.toNat) = some s.audio.toInt16)) ∧
      ∀ fuel args inv fs out audioOut, enough ≤ fuel → Invocation.parse args = .ok inv →
        inv.task = .frame t frames out audioOut → inv.load fs = .ok (source, config) →
        Outputs fs out audioOut →
        ∃ fs', runOn fuel args fs =
            (.done "" (some ("rendered " ++ toString frames.toNat ++ " frames -> " ++ out)), fs') ∧
          fs'.read? out = some video ∧
          ∀ path ∈ audioOut, fs.find? path ≠ some .null → fs'.read? path = some audio := by
  have hlength : ss.length = frames.toNat * 65536 := by
    rw [Player.length_takeAll hss, Film.length_filmShots]
  obtain ⟨left, hleft, hsamples⟩ := Player.exists_left hss
  let film : Film := Film.extended { player := p } (Film.filmShots t frames.toNat) ss q
  have hvideo : film.video.data.toList = (ss.map Sample.video).flatMap Word.bytes :=
    (Film.toList_video_extended _ _ ss q).trans (List.nil_append _)
  have haudio : film.audio.data.toList =
      (Film.rowStarts (Film.filmShots t frames.toNat) ss).flatMap Sample.levelBytes :=
    (Film.toList_audio_extended _ _ ss q).trans (List.nil_append _)
  have hwords : ∀ i, Word.nth? film.video i = ss[i]?.map fun s => s.video := by
    intro i
    rw [Word.nth?_of_bytes hvideo, List.getElem?_map]
  have hlevels : ∀ i, Sample.nthLevel? film.audio i =
      ss[i * 256]?.map fun s => s.audio.toInt16 := by
    intro i
    rw [Sample.nthLevel?_of_bytes haudio, Film.getElem?_rowStarts_filmShots hlength]
    rfl
  refine ⟨left, film.video, film.audio, max fuel₁ fuel₂, hleft, ?_, ?_, hwords, hlevels, ?_, ?_⟩
  · rw [Film.size_of_toList hvideo, Film.length_rows Word.length_bytes, List.length_map, hlength]
    omega
  · rw [Film.size_of_toList haudio, Film.length_rows Sample.length_levelBytes,
      Film.length_rowStarts_filmShots hlength]
    omega
  · rintro n hn x y i rfl
    have hshot := Film.getElem?_filmShots t hn x y
    rw [Film.time_of_frame] at hshot
    obtain ⟨s, hs, hsample⟩ := hsamples _ _ x y hshot
    refine ⟨_, s, rfl, rfl, rfl, hsample, hs, ?_, ?_⟩
    · rw [hwords, hs, Option.map_some]
    · rintro rfl
      rw [UInt8.toNat_zero, Nat.add_zero] at hs
      rw [hlevels, hs, Option.map_some]
  · intro fuel args inv fs out audioOut hfuel hparse htask hload houtputs
    have hp' : Player.ofSource fuel source config = some p :=
      Player.fuelled_ofSource source config fuel₁ fuel p (by omega) hp
    have hss' := Player.fuelled_takeAll _ p fuel₂ fuel (ss, q) (by omega) hss
    have hfilm : Film.addFrames fuel t frames.toNat { player := p } = some film := by
      rw [Film.addFrames_eq_shoot, Film.shoot_of_takeAll hss']
    obtain ⟨fs', hrendered, hread, hread'⟩ := houtputs.rendered film.video film.audio
    refine ⟨fs', ?_, hread, hread'⟩
    rw [runOn_eq hparse hload, hp', htask]
    exact frame_of_rendered? hfilm hrendered

/-- A program that counts its samples in memory, with the count as the sound.  It is rendered into
two frames from the last time on, so that the second is at time zero: the video to a file that
starts at the root, in a directory that was empty, and the sound beside it. -/
theorem counter_frames :
    ∃ (fuel : Nat) (fs' : FileSystem) (video audio : ByteArray) (before taker : Player),
      runOn fuel ["frame", "--audio", "-e", "1@.0001+d1!", "--t", "4294967295", "--frames", "2",
          "-o", "/d/v", "--audio-out", "../d/a"] (.ofNodes ["home"] [(["d"], .directory)]) =
        (.done "" (some "rendered 2 frames -> /d/v"), fs') ∧
      fs'.read? "/d/v" = some video ∧ video.size = 524288 ∧
      fs'.read? "../d/a" = some audio ∧ audio.size = 1024 ∧
      taker.time = 0 ∧ taker.machine.memory = before.machine.memory ∧
      (taker.sample 9 7 8).map (fun r => r.1.video) = Word.nth? video 67591 := by
  obtain ⟨p, hp, hcode⟩ : ∃ p, Player.ofSource 9 "1@.0001+d1!" { audio := true } = some p ∧
      p.code = (Program.parse "1@.0001+d1!").compile .full := ⟨_, rfl, rfl⟩
  have hstatic : (Program.parse "1@.0001+d1!").isStatic = true := by rfl
  have hlength : (Program.parse "1@.0001+d1!").length < 9 := by decide
  obtain ⟨ss, q, hss⟩ := Player.exists_takeAll_of_isStatic hstatic hlength hcode
    (Film.filmShots 4294967295 (2 : UInt32).toNat)
  obtain ⟨left, video, audio, fuel, -, hsize, hsize', -, -, hsamples, hrun⟩ :=
    frame_files_hold_samples hp hss
  let fs : FileSystem := .ofNodes ["home"] [(["d"], .directory)]
  have houtputs : Outputs fs "/d/v" (some "../d/a") := by
    refine ⟨by decide, ?_, nofun, ?_⟩
    · rintro path ⟨⟩
      decide
    · rintro path ⟨⟩
      decide
  let inv : Invocation := {
    config := none
    settings := { audio := some true }
    source := .code "1@.0001+d1!"
    task := .frame 4294967295 2 "/d/v" (some "../d/a") }
  have hparse : Invocation.parse ["frame", "--audio", "-e", "1@.0001+d1!", "--t", "4294967295",
      "--frames", "2", "-o", "/d/v", "--audio-out", "../d/a"] = .ok inv := rfl
  have hload : inv.load fs = .ok ("1@.0001+d1!", { audio := true }) := rfl
  obtain ⟨fs', hfs', hread, hread'⟩ :=
    hrun fuel _ inv fs _ _ (Nat.le_refl _) hparse rfl hload houtputs
  obtain ⟨taker, s, -, htime, hmemory, hsample, -, hword, -⟩ := hsamples 1 (by decide) 7 8 67591 rfl
  refine ⟨fuel, fs', video, audio, left 67591, taker, hfs', hread, hsize,
    hread' "../d/a" rfl nofun, hsize', htime, hmemory, ?_⟩
  rw [hsample, hword]
  rfl

end Command
end GlyphMachine
