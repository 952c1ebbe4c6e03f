import GlyphMachine.Proofs.FileSystems

/-!
# Commands on a file system

A command on the model of a disk is a function from file systems to file systems.  It reads before
it does anything else, and only rendering changes files.

* `rendered?` — what rendering leaves behind; `read?_of_rendered?` reads the video and the sound
  back, and `sameBut_of_rendered?` says that nothing else changes.
* `Invocation.load`, `Invocation.run_eq` — what is read, as a function of the file system.
* `rendered?_of_frame`, `frame_of_rendered?` — rendering is done just if it leaves such a system.
-/

namespace GlyphMachine

/-! ## What rendering leaves -/

namespace Command

open FileSystem

/-- The file system after rendering: the files are made empty, then the video and the sound are
written. -/
def rendered? (fs : FileSystem) (out : String) (audioOut : Option String)
    (video audio : ByteArray) : Option FileSystem := do
  let fs ← fs.create? out
  let fs ← audioOut.elim (some fs) fs.create?
  let fs := fs.write out video
  some (audioOut.elim fs (fs.write · audio))

section

variable {fs fs' : FileSystem} {out path : String} {audioOut : Option String}
  {video audio : ByteArray}

theorem rendered?_cases (h : rendered? fs out audioOut video audio = some fs') :
    ∃ fs₁ fs₂, fs.create? out = some fs₁ ∧ audioOut.elim (some fs₁) fs₁.create? = some fs₂ ∧
      fs' = audioOut.elim (fs₂.write out video) ((fs₂.write out video).write · audio) := by
  obtain ⟨fs₁, hcreate, h⟩ := Option.bind_eq_some_iff.1 h
  obtain ⟨fs₂, hcreate', h⟩ := Option.bind_eq_some_iff.1 h
  cases h
  exact ⟨fs₁, fs₂, hcreate, hcreate', rfl⟩

theorem sameBut_elim_create (h : audioOut.elim (some fs) fs.create? = some fs') :
    SameBut fs audioOut.toList fs' := by
  cases audioOut with
  | none =>
    cases h
    exact .refl fs []
  | some path => exact .create h

theorem sameBut_elim_write (fs : FileSystem) (audioOut : Option String) (audio : ByteArray) :
    SameBut fs audioOut.toList (audioOut.elim fs (fs.write · audio)) := by
  cases audioOut with
  | none => exact .refl fs []
  | some path => exact .write fs path audio

/-- **Rendering changes no file but the outputs.** -/
theorem sameBut_of_rendered? (h : rendered? fs out audioOut video audio = some fs') :
    SameBut fs (out :: audioOut.toList) fs' := by
  obtain ⟨fs₁, fs₂, hcreate, hcreate', rfl⟩ := rendered?_cases h
  have hmade := (SameBut.create hcreate).trans (sameBut_elim_create hcreate')
  have hwritten := (SameBut.write fs₂ out video).trans
    (sameBut_elim_write (fs₂.write out video) audioOut audio)
  refine (hmade.trans hwritten).mono ?_
  simp

/-- **Where both outputs can be made, rendering leaves a file system.** -/
theorem exists_rendered? (hout : (fs.create? out).isSome = true)
    (haudio : ∀ path ∈ audioOut, (fs.create? path).isSome = true) (video audio : ByteArray) :
    ∃ fs', rendered? fs out audioOut video audio = some fs' := by
  obtain ⟨fs₁, hcreate⟩ := Option.isSome_iff_exists.1 hout
  obtain ⟨fs₂, hcreate'⟩ : ∃ fs₂, audioOut.elim (some fs₁) fs₁.create? = some fs₂ := by
    cases audioOut with
    | none => exact ⟨fs₁, rfl⟩
    | some path =>
      -- whether the sound can be made does not depend on the video
      have hsome := ((alike_create? hcreate).isSome_create? path).trans (haudio path rfl)
      exact Option.isSome_iff_exists.1 hsome
  exact ⟨_, Option.bind_eq_some_iff.2 ⟨fs₁, hcreate,
    Option.bind_eq_some_iff.2 ⟨fs₂, hcreate', rfl⟩⟩⟩

/-- **The output file holds the video**, unless the sound was written over it. -/
theorem find?_of_rendered? (h : rendered? fs out audioOut video audio = some fs')
    (hnull : fs.find? out ≠ some .null)
    (hapart : ∀ path ∈ audioOut, fs.locate? path ≠ fs.locate? out) :
    fs'.find? out = some (.file video) := by
  obtain ⟨fs₁, fs₂, hcreate, hcreate', rfl⟩ := rendered?_cases h
  have hempty : fs₁.find? out = some (.file .empty) := find?_create? hcreate hnull
  cases audioOut with
  | none =>
    cases hcreate'
    exact (find?_write hempty video).trans (by rw [overwrite_empty])
  | some path =>
    have halike := ((alike_create? hcreate).trans (alike_create? hcreate')).trans
      (alike_write fs₂ out video)
    have hne : (fs₂.write out video).locate? path ≠ (fs₂.write out video).locate? out := by
      rw [halike.locate?, halike.locate?]
      exact hapart path rfl
    rw [Option.elim_some, find?_write_of_ne hne,
      find?_write (find?_create?_of_empty hcreate' hempty), overwrite_empty]

/-- The sound file holds the sound. -/
theorem find?_audio_of_rendered? (h : rendered? fs out (some path) video audio = some fs')
    (hnull : fs.find? path ≠ some .null) (hapart : fs.locate? path ≠ fs.locate? out) :
    fs'.find? path = some (.file audio) := by
  obtain ⟨fs₁, fs₂, hcreate, hcreate', rfl⟩ := rendered?_cases h
  have hnull' : fs₁.find? path ≠ some .null := by
    rwa [Ne, (alike_create? hcreate).find?_eq_null_iff]
  have halike := (alike_create? hcreate).trans (alike_create? hcreate')
  have hne : fs₂.locate? out ≠ fs₂.locate? path := by
    rw [halike.locate?, halike.locate?]
    exact Ne.symm hapart
  have hempty : (fs₂.write out video).find? path = some (.file .empty) := by
    rw [find?_write_of_ne hne, find?_create? hcreate' hnull']
  rw [Option.elim_some, find?_write hempty, overwrite_empty]

/-- **Files that lie apart hold what was rendered.** -/
theorem read?_of_rendered? (h : rendered? fs out audioOut video audio = some fs')
    (hnull : fs.find? out ≠ some .null)
    (hapart : ∀ path ∈ audioOut, fs.locate? path ≠ fs.locate? out) :
    fs'.read? out = some video ∧
      ∀ path ∈ audioOut, fs.find? path ≠ some .null → fs'.read? path = some audio := by
  constructor
  · rw [read?, find?_of_rendered? h hnull hapart]
    rfl
  · rintro path ⟨⟩ hnull'
    rw [read?, find?_audio_of_rendered? h hnull' (hapart path rfl)]
    rfl

end

/-! ## Runs -/

/-- Runs the tool on a file system. -/
def runOn (fuel : Nat) (args : List String) (fs : FileSystem) : Outcome × FileSystem :=
  (run fuel args : StateM FileSystem Outcome) fs

/-- The program that a command is for, and the settings that it is played with. -/
def Invocation.load (inv : Invocation) (fs : FileSystem) : Except Failure (String × Config) := do
  let settings ← ((loadSettings inv.config : StateM FileSystem (Except Failure Settings)) fs).1
  let source ← ((loadSource inv.source : StateM FileSystem (Except Failure String)) fs).1
  return (source, inv.settings.apply (settings.apply {}))

theorem bind_apply {α β : Type} {c : StateM FileSystem α} {a : α} {fs fs' : FileSystem}
    (h : c fs = (a, fs')) (k : α → StateM FileSystem β) : (c >>= k) fs = k a fs' := by
  show k (c fs).1 (c fs).2 = k a fs'
  rw [h]

/-- The computation leaves the file system as it is. -/
def ReadOnly {α : Type} (c : StateM FileSystem α) : Prop := ∀ fs, (c fs).2 = fs

theorem ReadOnly.pure {α : Type} (a : α) : ReadOnly (pure a : StateM FileSystem α) := fun _ => rfl

theorem ReadOnly.bind_apply {α β : Type} {c : StateM FileSystem α} (hc : ReadOnly c)
    (k : α → StateM FileSystem β) (fs : FileSystem) : (c >>= k) fs = k (c fs).1 fs := by
  have hpair : c fs = ((c fs).1, fs) := Prod.ext rfl (hc fs)
  exact Command.bind_apply hpair k

theorem ReadOnly.bind {α β : Type} {c : StateM FileSystem α} {k : α → StateM FileSystem β}
    (hc : ReadOnly c) (hk : ∀ a, ReadOnly (k a)) : ReadOnly (c >>= k) := by
  intro fs
  rw [hc.bind_apply, hk]

theorem readOnly_readText (path : String) :
    ReadOnly (readText path : StateM FileSystem (Option String)) := by
  intro fs
  rfl

theorem readOnly_loadSettings (path : Option String) :
    ReadOnly (loadSettings path : StateM FileSystem (Except Failure Settings)) := by
  cases path with
  | none => exact .pure _
  | some path =>
    refine .bind (readOnly_readText path) ?_
    intro text
    cases text with
    | none => exact .pure _
    | some text =>
      simp only
      split <;> exact .pure _

theorem readOnly_loadSource (source : ProgramSource) :
    ReadOnly (loadSource source : StateM FileSystem (Except Failure String)) := by
  cases source with
  | code text => exact .pure _
  | file path =>
    refine .bind (readOnly_readText path) ?_
    intro text
    cases text <;> exact .pure _

/-- **A command loads its program, and then does its work.** -/
theorem Invocation.run_eq (fuel : Nat) (inv : Invocation) (fs : FileSystem) :
    (inv.run fuel : StateM FileSystem Outcome) fs =
      match inv.load fs with
      | .error cause => (.failed cause, fs)
      | .ok (source, config) =>
        match Player.ofSource fuel source config with
        | none => (.unfinished, fs)
        | some p => (perform fuel inv.task p : StateM FileSystem Outcome) fs := by
  rw [Invocation.run, (readOnly_loadSettings inv.config).bind_apply, Invocation.load]
  cases ((loadSettings inv.config : StateM FileSystem (Except Failure Settings)) fs).1 with
  | error cause => rfl
  | ok settings =>
    simp only
    rw [(readOnly_loadSource inv.source).bind_apply]
    cases ((loadSource inv.source : StateM FileSystem (Except Failure String)) fs).1 with
    | error cause => rfl
    | ok source =>
      show _ = match Player.ofSource fuel source (inv.settings.apply (settings.apply {})) with
        | none => (Outcome.unfinished, fs)
        | some p => (perform fuel inv.task p : StateM FileSystem Outcome) fs
      simp only
      cases Player.ofSource fuel source (inv.settings.apply (settings.apply {})) <;> rfl

section

variable {fuel : Nat} {args : List String} {inv : Invocation} {fs fs' : FileSystem}
  {source : String} {config : Config} {p : Player} {printed : String} {notice : Option String}

theorem runOn_eq (hparse : Invocation.parse args = .ok inv)
    (hload : inv.load fs = .ok (source, config)) :
    runOn fuel args fs =
      match Player.ofSource fuel source config with
      | none => (.unfinished, fs)
      | some p => (perform fuel inv.task p : StateM FileSystem Outcome) fs := by
  have hrun := inv.run_eq fuel fs
  rw [hload] at hrun
  rw [runOn, run, hparse]
  exact hrun

theorem create_apply (path : String) (fs : FileSystem) :
    (FileAccess.create path : StateM FileSystem Bool) fs =
      ((fs.create? path).isSome, (fs.create? path).getD fs) := by
  simp only [FileAccess.create]
  cases fs.create? path <;> rfl

theorem createAudio_apply (audioOut : Option String) (fs : FileSystem) :
    (createAudio audioOut : StateM FileSystem (Option String)) fs =
      match audioOut.elim (some fs) fs.create? with
      | none => (audioOut, fs)
      | some fs' => (none, fs') := by
  cases audioOut with
  | none => rfl
  | some path =>
    rw [createAudio, bind_apply (create_apply path fs)]
    show _ = match fs.create? path with
      | none => (some path, fs)
      | some fs' => (none, fs')
    cases fs.create? path <;> rfl

/-- **Rendering that is done has written the frames of one film.** -/
theorem rendered?_of_frame {t frames : UInt32} {out : String} {audioOut : Option String}
    (h : (frame fuel t frames out audioOut p : StateM FileSystem Outcome) fs =
      (.done printed notice, fs')) :
    ∃ film, Film.addFrames fuel t frames.toNat { player := p } = some film ∧
      rendered? fs out audioOut film.video film.audio = some fs' := by
  rw [frame, bind_apply (create_apply out fs)] at h
  cases hcreate : fs.create? out with
  | none =>
    rw [hcreate] at h
    cases h
  | some fs₁ =>
    rw [hcreate] at h
    have haudio := createAudio_apply audioOut fs₁
    cases hcreate' : audioOut.elim (some fs₁) fs₁.create? with
    | none =>
      rw [hcreate'] at haudio
      replace h := (bind_apply haudio _).symm.trans h
      cases audioOut with
      | none => cases hcreate'
      | some path => cases h
    | some fs₂ =>
      rw [hcreate'] at haudio
      replace h := (bind_apply haudio _).symm.trans h
      cases hfilm : Film.addFrames fuel t frames.toNat { player := p } with
      | none =>
        simp only [hfilm] at h
        cases h
      | some film =>
        simp only [hfilm] at h
        refine ⟨film, rfl, ?_⟩
        rw [rendered?, hcreate]
        show (audioOut.elim (some fs₁) fs₁.create?).bind _ = _
        rw [hcreate']
        cases audioOut <;> cases h <;> rfl

/-- Rendering is done if the files can be made and the film ends. -/
theorem frame_of_rendered? {t frames : UInt32} {out : String} {audioOut : Option String}
    {film : Film} (hfilm : Film.addFrames fuel t frames.toNat { player := p } = some film)
    (h : rendered? fs out audioOut film.video film.audio = some fs') :
    (frame fuel t frames out audioOut p : StateM FileSystem Outcome) fs =
      (.done "" (some ("rendered " ++ toString frames.toNat ++ " frames -> " ++ out)), fs') := by
  obtain ⟨fs₁, hcreate, h⟩ := Option.bind_eq_some_iff.1 h
  obtain ⟨fs₂, hcreate', h⟩ := Option.bind_eq_some_iff.1 h
  have haudio := createAudio_apply audioOut fs₁
  rw [hcreate'] at haudio
  rw [frame, bind_apply (create_apply out fs), hcreate]
  refine (bind_apply haudio _).trans ?_
  simp only [hfilm]
  cases audioOut <;> cases h <;> rfl

end

end Command
end GlyphMachine
