import Mathlib
import GlyphMachine.Proofs.FrameFiles

/-!
# What commands leave behind

A frame command can fail at five points, two of them behind a file that it has made empty.  What it
then reports and what it leaves are functions of the file system that it found.

* `Invocation.obstacle?` — the first of the failures that leave everything as it was.
* `frame_of_create?_eq_none`, `frame_of_audio_eq_none` — the two failures of rendering itself;
  `frame_cases` — all that rendering can do.
* `failures_leave_files` — hence the exit code, the cause and the files, in every case.
-/

namespace GlyphMachine

/-- The text of the file that a path names. -/
def FileSystem.text? (fs : FileSystem) (path : String) : Option String :=
  (fs.read? path).bind String.fromUTF8?

namespace Command

open FileSystem

variable {fs fs' : FileSystem} {inv : Invocation} {cause : Failure}

/-! ## Obstacles -/

/-- Why the settings file cannot be used. -/
def settingsFailure? (fs : FileSystem) : Option String → Option Failure
  | none => none
  | some path =>
    match fs.text? path with
    | none => some (.cannotRead path)
    | some text => if (Settings.parse? text).isSome then none else some (.cannotParse path)

/-- Why the program cannot be read. -/
def sourceFailure? (fs : FileSystem) : ProgramSource → Option Failure
  | .code _ => none
  | .file path => if (fs.text? path).isSome then none else some (.cannotRead path)

/-- Why a file cannot be made. -/
def createFailure? (fs : FileSystem) (path : String) : Option Failure :=
  if (fs.create? path).isSome then none else some (.cannotCreate path)

/-- The failure before anything is written: of the settings rather than of the program, and of the
program rather than of the output. -/
def Invocation.obstacle? (inv : Invocation) (fs : FileSystem) (out : String) : Option Failure :=
  (settingsFailure? fs inv.config).or ((sourceFailure? fs inv.source).or (createFailure? fs out))

theorem readText_apply (path : String) (fs : FileSystem) :
    ((readText path : StateM FileSystem (Option String)) fs).1 = fs.text? path := rfl

/-- Settings are loaded just if nothing is wrong with their file. -/
theorem loadSettings_cases (config : Option String) (fs : FileSystem) :
    (∃ cause, settingsFailure? fs config = some cause ∧
      ((loadSettings config : StateM FileSystem (Except Failure Settings)) fs).1 = .error cause) ∨
    (∃ settings, settingsFailure? fs config = none ∧
      ((loadSettings config : StateM FileSystem (Except Failure Settings)) fs).1 =
        .ok settings) := by
  cases config with
  | none => exact .inr ⟨_, rfl, rfl⟩
  | some path =>
    rw [loadSettings, (readOnly_readText path).bind_apply, readText_apply, settingsFailure?]
    cases fs.text? path with
    | none => exact .inl ⟨_, rfl, rfl⟩
    | some text =>
      simp only
      cases Settings.parse? text with
      | none => exact .inl ⟨_, rfl, rfl⟩
      | some settings => exact .inr ⟨_, rfl, rfl⟩

/-- The program is loaded just if nothing is wrong with its file. -/
theorem loadSource_cases (source : ProgramSource) (fs : FileSystem) :
    (∃ cause, sourceFailure? fs source = some cause ∧
      ((loadSource source : StateM FileSystem (Except Failure String)) fs).1 = .error cause) ∨
    (∃ text, sourceFailure? fs source = none ∧
      ((loadSource source : StateM FileSystem (Except Failure String)) fs).1 = .ok text) := by
  cases source with
  | code text => exact .inr ⟨_, rfl, rfl⟩
  | file path =>
    rw [loadSource, (readOnly_readText path).bind_apply, readText_apply, sourceFailure?]
    cases fs.text? path with
    | none => exact .inl ⟨_, rfl, rfl⟩
    | some text => exact .inr ⟨_, rfl, rfl⟩

/-- Loading fails with the first obstacle, or succeeds and leaves that of the output. -/
theorem load_cases (inv : Invocation) (fs : FileSystem) (out : String) :
    (∃ cause, inv.obstacle? fs out = some cause ∧ inv.load fs = .error cause) ∨
    (∃ source config, inv.obstacle? fs out = createFailure? fs out ∧
      inv.load fs = .ok (source, config)) := by
  unfold Invocation.obstacle? Invocation.load
  rcases loadSettings_cases inv.config fs with ⟨cause, hfailure, hload⟩ | ⟨settings, hnone, hload⟩
  · rw [hfailure, hload]
    exact .inl ⟨cause, rfl, rfl⟩
  · rw [hnone, hload]
    rcases loadSource_cases inv.source fs with ⟨cause, hfailure, hload'⟩ | ⟨source, hnone', hload'⟩
    · rw [hfailure]
      refine .inl ⟨cause, rfl, ?_⟩
      show ((loadSource inv.source : StateM FileSystem (Except Failure String)) fs).1.bind _ = _
      rw [hload']
      rfl
    · rw [hnone']
      refine .inr ⟨source, inv.settings.apply (settings.apply {}), rfl, ?_⟩
      show ((loadSource inv.source : StateM FileSystem (Except Failure String)) fs).1.bind _ = _
      rw [hload']
      rfl

/-! ## Rendering -/

section

variable {fuel : Nat} {t frames : UInt32} {out path : String} {audioOut : Option String}
  {p : Player} {fs₁ fs₂ : FileSystem} {video audio : ByteArray}

theorem createFailure?_eq_some (h : createFailure? fs path = some cause) :
    fs.create? path = none ∧ cause = .cannotCreate path := by
  unfold createFailure? at h
  split at h
  · cases h
  · rename_i hnone
    cases h
    exact ⟨Option.not_isSome_iff_eq_none.1 hnone, rfl⟩

theorem createFailure?_eq_none (h : createFailure? fs path = none) :
    (fs.create? path).isSome = true := by
  unfold createFailure? at h
  split at h
  · assumption
  · cases h

theorem frame_of_create?_eq_none (h : fs.create? out = none) :
    (frame fuel t frames out audioOut p : StateM FileSystem Outcome) fs =
      (.failed (.cannotCreate out), fs) := by
  rw [frame, bind_apply (create_apply out fs), h]
  rfl

/-- When the sound cannot be made, the video has been. -/
theorem frame_of_audio_eq_none (h : fs.create? out = some fs₁) (h' : fs₁.create? path = none) :
    (frame fuel t frames out (some path) p : StateM FileSystem Outcome) fs =
      (.failed (.cannotCreate path), fs₁) := by
  have haudio := createAudio_apply (some path) fs₁
  rw [Option.elim_some, h'] at haudio
  rw [frame, bind_apply (create_apply out fs), h]
  exact bind_apply haudio _

/-- **What rendering can do**: fail with the output, fail with the sound behind the output, or be
done. -/
theorem frame_cases {film : Film}
    (hfilm : Film.addFrames fuel t frames.toNat { player := p } = some film) (fs : FileSystem)
    (out : String) (audioOut : Option String) :
    (∃ cause, createFailure? fs out = some cause ∧
      (frame fuel t frames out audioOut p : StateM FileSystem Outcome) fs = (.failed cause, fs)) ∨
    (createFailure? fs out = none ∧ ∃ path cause fs', audioOut = some path ∧
      createFailure? fs path = some cause ∧
      (frame fuel t frames out audioOut p : StateM FileSystem Outcome) fs = (.failed cause, fs') ∧
      fs'.read? out = some .empty ∧ SameBut fs [out] fs') ∨
    (createFailure? fs out = none ∧ (∀ path ∈ audioOut, createFailure? fs path = none) ∧
      ∃ notice fs', (frame fuel t frames out audioOut p : StateM FileSystem Outcome) fs =
          (.done "" notice, fs') ∧
        SameBut fs (out :: audioOut.toList) fs' ∧
        (fs.find? out ≠ some .null → (∀ path ∈ audioOut, fs.locate? path ≠ fs.locate? out) →
          fs'.read? out = some film.video ∧
          ∀ path ∈ audioOut, fs.find? path ≠ some .null → fs'.read? path = some film.audio)) := by
  cases hout : createFailure? fs out with
  | some cause =>
    obtain ⟨hcreate, rfl⟩ := createFailure?_eq_some hout
    exact .inl ⟨_, rfl, frame_of_create?_eq_none hcreate⟩
  | none =>
    obtain ⟨fs₁, hcreate⟩ := Option.isSome_iff_exists.1 (createFailure?_eq_none hout)
    by_cases haudio : ∀ path ∈ audioOut, createFailure? fs path = none
    · obtain ⟨fs', hrendered⟩ := exists_rendered? (createFailure?_eq_none hout)
        (fun path hpath => createFailure?_eq_none (haudio path hpath)) film.video film.audio
      exact .inr (.inr ⟨rfl, haudio, _, fs', frame_of_rendered? hfilm hrendered,
        sameBut_of_rendered? hrendered, read?_of_rendered? hrendered⟩)
    · obtain ⟨path, rfl, hpath⟩ : ∃ path, audioOut = some path ∧ createFailure? fs path ≠ none := by
        simpa using haudio
      obtain ⟨cause, hcause⟩ := Option.ne_none_iff_exists'.1 hpath
      obtain ⟨hnone, rfl⟩ := createFailure?_eq_some hcause
      -- what could not be made before cannot be made now
      have hnone' : fs₁.create? path = none := by
        rw [← Option.not_isSome_iff_eq_none, (alike_create? hcreate).isSome_create?, hnone]
        simp
      exact .inr (.inl ⟨rfl, path, _, fs₁, rfl, hcause, frame_of_audio_eq_none hcreate hnone',
        read?_create? hcreate, .create hcreate⟩)

end

/-- Commands that do not render change nothing. -/
theorem readOnly_run {fuel : Nat} {args : List String} {fs : FileSystem}
    (h : ∀ inv, Invocation.parse args = .ok inv →
      ∀ t frames out audioOut, inv.task ≠ .frame t frames out audioOut) :
    (runOn fuel args fs).2 = fs := by
  unfold runOn run
  cases hparse : Invocation.parse args with
  | error stop => cases stop <;> rfl
  | ok inv =>
    simp only
    rw [inv.run_eq]
    cases inv.load fs with
    | error cause => rfl
    | ok loaded =>
      obtain ⟨source, config⟩ := loaded
      simp only
      cases Player.ofSource fuel source config with
      | none => rfl
      | some p =>
        cases htask : inv.task with
        | disasm => rfl
        | eval x y t => rfl
        | frame t frames out audioOut => exact absurd htask (h inv hparse t frames out audioOut)

/-- The film that a frame command renders on a file system: of the program that is found there, and
with the settings. -/
def Invocation.Renders (inv : Invocation) (fs : FileSystem) (t frames : UInt32) (film : Film) :
    Prop :=
  ∃ source config fuel p, inv.load fs = .ok (source, config) ∧
    Player.ofSource fuel source config = some p ∧
    Film.addFrames fuel t frames.toNat { player := p } = some film

theorem fuelled_addFrames (t : UInt32) (frames : Nat) (f : Film) :
    Fuelled (Film.addFrames · t frames f) := by
  intro fuel more film hle h
  obtain ⟨ss, q, hss, rfl⟩ := Film.shoot_cases ((Film.addFrames_eq_shoot t frames f).symm.trans h)
  have hss' := Player.fuelled_takeAll _ _ fuel more (ss, q) hle hss
  exact (Film.addFrames_eq_shoot t frames f).trans (Film.shoot_of_takeAll hss')

/-- **Failed commands leave the files as they should be.**  Take any file system, and a frame
command whose program, if it can be loaded there, gives all its frames.  If the settings or the
program cannot be loaded or the output cannot be made, then the command fails with the first of
these causes, and leaves the file system as it was.  If the sound alone cannot be made, it fails
with that cause, and leaves the output there and empty, and every other file as it was.  Otherwise
the work is done, and no file changes but the outputs.  They hold the film of the program that was
there before, in places of their own.  A command that does not render leaves every file system as it
was. -/
theorem failures_leave_files (args : List String) (fs : FileSystem) :
    (∀ (inv : Invocation) (t frames : UInt32) (out : String) (audioOut : Option String),
      Invocation.parse args = .ok inv → inv.task = .frame t frames out audioOut →
      (∀ source config, inv.load fs = .ok (source, config) →
        ∃ film, inv.Renders fs t frames film) →
      ∃ enough, ∀ fuel, enough ≤ fuel → ∃ outcome fs', runOn fuel args fs = (outcome, fs') ∧
        (∀ cause, inv.obstacle? fs out = some cause →
          outcome = .failed cause ∧ outcome.exitCode = 1 ∧ fs' = fs) ∧
        (inv.obstacle? fs out = none →
          (∀ path ∈ audioOut, ∀ cause, createFailure? fs path = some cause →
            outcome = .failed cause ∧ outcome.exitCode = 1 ∧ fs'.read? out = some .empty ∧
            SameBut fs [out] fs') ∧
          ((∀ path ∈ audioOut, createFailure? fs path = none) →
            outcome.exitCode = 0 ∧ SameBut fs (out :: audioOut.toList) fs' ∧
            ∃ film, inv.Renders fs t frames film ∧
              (fs.find? out ≠ some .null →
                (∀ path ∈ audioOut, fs.locate? path ≠ fs.locate? out) →
                fs'.read? out = some film.video ∧ ∀ path ∈ audioOut, fs.find? path ≠ some .null →
                  fs'.read? path = some film.audio)))) ∧
    ∀ fuel, (∀ inv, Invocation.parse args = .ok inv →
      ∀ t frames out audioOut, inv.task ≠ .frame t frames out audioOut) →
      (runOn fuel args fs).2 = fs := by
  refine ⟨?_, fun fuel => readOnly_run⟩
  intro inv t frames out audioOut hparse htask hends
  rcases load_cases inv fs out with ⟨cause, hobstacle, hload⟩ | ⟨source, config, hobstacle, hload⟩
  · refine ⟨0, fun fuel _ => ⟨.failed cause, fs, ?_, ?_, ?_⟩⟩
    · rw [runOn, run, hparse]
      exact (inv.run_eq fuel fs).trans (by rw [hload])
    · rw [hobstacle]
      rintro _ ⟨⟩
      exact ⟨rfl, rfl, rfl⟩
    · rw [hobstacle]
      rintro ⟨⟩
  · obtain ⟨film, hrenders⟩ := hends source config hload
    obtain ⟨source', config', enough, p, hload', hp, hfilm⟩ := id hrenders
    cases hload.symm.trans hload'
    refine ⟨enough, fun fuel hfuel => ?_⟩
    have hp' : Player.ofSource fuel source config = some p :=
      Player.fuelled_ofSource source config enough fuel p hfuel hp
    have hfilm' : Film.addFrames fuel t frames.toNat { player := p } = some film :=
      fuelled_addFrames t frames.toNat _ enough fuel film hfuel hfilm
    have hrun : runOn fuel args fs =
        (frame fuel t frames out audioOut p : StateM FileSystem Outcome) fs := by
      rw [runOn_eq hparse hload, hp', htask]
      rfl
    rw [hrun, hobstacle]
    rcases frame_cases hfilm' fs out audioOut with ⟨cause, hout, hframe⟩ |
      ⟨hout, path, cause, fs', rfl, haudio, hframe, hempty, hsame⟩ |
      ⟨hout, haudio, notice, fs', hframe, hsame, hcontents⟩
    · rw [hout]
      refine ⟨_, fs, hframe, ?_, ?_⟩
      · rintro _ ⟨⟩
        exact ⟨rfl, rfl, rfl⟩
      · rintro ⟨⟩
    · rw [hout]
      refine ⟨_, fs', hframe, ?_, fun _ => ⟨?_, ?_⟩⟩
      · rintro _ ⟨⟩
      · rintro _ ⟨⟩ cause' hcause
        cases haudio.symm.trans hcause
        exact ⟨rfl, rfl, hempty, hsame⟩
      · intro hnone
        cases haudio.symm.trans (hnone path rfl)
    · rw [hout]
      refine ⟨_, fs', hframe, ?_, fun _ => ⟨?_, fun _ => ?_⟩⟩
      · rintro _ ⟨⟩
      · intro path hpath cause hcause
        cases (haudio path hpath).symm.trans hcause
      · exact ⟨rfl, hsame, film, hrenders, hcontents⟩

/-- The program is its own output, named from the root, and the sound would go to a directory that
is not there.  What is left of the program is an empty file, and its neighbour is as it was. -/
theorem program_lost_to_output :
    ∃ fuel fs', runOn fuel ["frame", "p", "-o", "/tmp/work/p", "--audio-out", "no/a"]
        (.ofFiles [("p", "1".toUTF8), ("q", "2".toUTF8)]) =
          (.failed (.cannotCreate "no/a"), fs') ∧
      fs'.read? "p" = some .empty ∧ fs'.read? "../work/q" = some "2".toUTF8 := by
  let fs : FileSystem := .ofFiles [("p", "1".toUTF8), ("q", "2".toUTF8)]
  let inv : Invocation := {
    config := none
    settings := {}
    source := .file "p"
    task := .frame 0 1 "/tmp/work/p" (some "no/a") }
  have hp : fs.locate? "/tmp/work/p" = fs.locate? "p" := by decide
  have hload : inv.load fs = .ok ("1", {}) := by cbv
  have hends : ∀ source config, inv.load fs = .ok (source, config) →
      ∃ film, inv.Renders fs 0 1 film := by
    intro source config _
    obtain ⟨p, hplayer, hcode⟩ : ∃ p, Player.ofSource 9 "1" {} = some p ∧
        p.code = (Program.parse "1").compile .full := ⟨_, rfl, rfl⟩
    have hstatic : (Program.parse "1").isStatic = true := by rfl
    have hlength : (Program.parse "1").length < 9 := by decide
    obtain ⟨ss, q, hss⟩ := Player.exists_takeAll_of_isStatic hstatic hlength hcode
      (Film.filmShots 0 (1 : UInt32).toNat)
    have hfilm := Film.shoot_of_takeAll (f := { player := p }) hss
    exact ⟨_, "1", {}, 9, p, hload, hplayer, (Film.addFrames_eq_shoot ..).trans hfilm⟩
  have hparse : Invocation.parse ["frame", "p", "-o", "/tmp/work/p", "--audio-out", "no/a"] =
    .ok inv := rfl
  obtain ⟨fuel, hfuel⟩ :=
    (failures_leave_files _ fs).1 inv 0 1 "/tmp/work/p" (some "no/a") hparse rfl hends
  obtain ⟨outcome, fs', hrun, -, hrest⟩ := hfuel fuel (Nat.le_refl _)
  have hobstacle : inv.obstacle? fs "/tmp/work/p" = none := by cbv
  have haudio : createFailure? fs "no/a" = some (.cannotCreate "no/a") := by decide
  obtain ⟨rfl, -, hempty, hsame⟩ := (hrest hobstacle).1 "no/a" rfl _ haudio
  refine ⟨fuel, fs', hrun, ?_, ?_⟩
  · rw [read?, find?, hsame.locate?, ← hp, ← hsame.locate?]
    exact hempty
  · have hq : fs.locate? "../work/q" = some ["tmp", "work", "q"] := by decide
    have hnode : fs'.node? ["tmp", "work", "q"] = fs.node? ["tmp", "work", "q"] := by
      refine hsame.nodes _ fun path hpath => ?_
      rw [List.mem_singleton.1 hpath]
      decide
    rw [read?, find?, hsame.locate?, hq, Option.bind_some, hnode]
    rfl

end Command
end GlyphMachine
