import Mathlib
import GlyphMachine.Proofs.Commands
import GlyphMachine.Proofs.Films
import GlyphMachine.Proofs.Quiet
import GlyphMachine.Proofs.Reports

/-!
# The order of samples does not matter

A quiet program is played on a memory that stays as it was.  While it is only rendered, the visible
state of its player is therefore that of a new player but for the time, and so is every sample.

* `Rendering` — the players of a program that is rendered; `act_untouched` is what one action
  preserves and `Rendering.untouched` what a session preserves.
* `Rendering.map_look` — samples taken in sequence are the shots, each looked at by itself.
* `samples_in_any_order` — hence a rendered pixel is what evaluating it prints.
-/

namespace GlyphMachine

/-- Whether an action is part of rendering: it loads no other program and writes no memory. -/
def Action.renders : Action → Bool
  | .load _ | .poke _ _ => false
  | .reload | .sample _ _ | .setTime _ | .peek _ => true

namespace Player

/-- The players of a program that is rendered. -/
inductive Rendering (source : String) (config : Config) : Player → Prop where
  | start {fuel : Nat} {p : Player} :
      ofSource fuel source config = some p → Rendering source config p
  | act {fuel : Nat} {action : Action} {reply : Reply} {p p' : Player} :
      Rendering source config p → action.renders = true → p.act fuel action = some (reply, p') →
        Rendering source config p'

/-- What is the same in all players of a quiet program that is rendered. -/
structure Untouched (source : String) (config : Config) (p : Player) : Prop where
  consistent : p.Consistent
  source_eq : p.source = source
  config_eq : p.config = config
  memory_eq : p.machine.memory = .zero

variable {source : String} {config : Config} {fuel : Nat} {p p' q : Player} {action : Action}
  {reply : Reply} {x y : UInt8}

theorem act_untouched (hquiet : (Program.parse source).Quiet) (hp : p.Untouched source config)
    (hrenders : action.renders = true) (h : p.act fuel action = some (reply, p')) :
    p'.Untouched source config := by
  have hconsistent := act_consistent hp.consistent h
  cases action with
  | load source' => cases hrenders
  | poke addr w => cases hrenders
  | reload =>
    obtain ⟨p₁, hp₁, heq⟩ := Option.map_eq_some_iff.1 h
    cases heq
    obtain ⟨hsource, hconfig, -, -, hmemory⟩ := reload_keeps hp₁
    refine ⟨hconsistent, hsource.trans hp.source_eq, hconfig.trans hp.config_eq, ?_⟩
    rw [hmemory, hp.memory_eq]
    split <;> rfl
  | sample x y =>
    obtain ⟨⟨s, p₁⟩, hp₁, heq⟩ := Option.map_eq_some_iff.1 h
    cases heq
    have hprogram : p.program.Quiet := by
      rw [hp.consistent.program_eq, hp.source_eq]
      exact hquiet
    have hmemory := memory_sample hp.consistent hprogram hp₁
    obtain ⟨m, fault, rfl, -⟩ := atRest_of_sample hp₁
    exact ⟨hconsistent, hp.source_eq, hp.config_eq, hmemory.trans hp.memory_eq⟩
  | setTime t =>
    cases h
    exact ⟨hconsistent, hp.source_eq, hp.config_eq, hp.memory_eq⟩
  | peek addr =>
    cases h
    exact hp

/-- **Rendering a quiet program changes nothing visible but the time.** -/
theorem Rendering.untouched (hquiet : (Program.parse source).Quiet)
    (hp : Rendering source config p) : p.Untouched source config := by
  induction hp with
  | start h =>
    obtain ⟨hsource, hconfig, hmemory⟩ := ofSource_keeps h
    exact ⟨(Reachable.ofSource h).consistent, hsource, hconfig, hmemory⟩
  | act _ hrenders h ih => exact act_untouched hquiet ih hrenders h

theorem Rendering.setTime (hp : Rendering source config p) (t : UInt32) :
    Rendering source config (p.setTime t) := by
  have hact : p.act 0 (.setTime t) = some (.done, p.setTime t) := rfl
  exact .act hp rfl hact

theorem Rendering.atTime (hp : Rendering source config p) (t : UInt16) :
    Rendering source config (p.atTime t) := by
  have htime : p.atTime t = p.setTime t.toUInt32 := by
    rw [Player.atTime, Player.setTime, UInt16.toUInt16_toUInt32]
  rw [htime]
  exact hp.setTime _

theorem Rendering.sample_eq (hquiet : (Program.parse source).Quiet)
    (hp : Rendering source config p) (hq : Rendering source config q) (htime : p.time = q.time)
    (fuel : Nat) (x y : UInt8) :
    (p.sample fuel x y).map Prod.fst = (q.sample fuel x y).map Prod.fst := by
  have hp' := hp.untouched hquiet
  have hq' := hq.untouched hquiet
  have hrest : p.atRest = q.atRest :=
    hp'.consistent.atRest_eq hq'.consistent (hp'.source_eq.trans hq'.source_eq.symm)
      (hp'.config_eq.trans hq'.config_eq.symm) (hp'.memory_eq.trans hq'.memory_eq.symm) htime
  rw [← sample_atRest, hrest, sample_atRest]

/-! ## Films -/

/-- The sample that the player gives for a shot. -/
def look (fuel : Nat) (p : Player) : UInt16 × UInt8 × UInt8 → Option Sample
  | (t, x, y) => ((p.atTime t).sample fuel x y).map Prod.fst

/-- **Samples taken in sequence are the shots, each looked at by itself.** -/
theorem Rendering.map_look (hquiet : (Program.parse source).Quiet)
    (hp : Rendering source config p) (hq : Rendering source config q)
    {shots : List (UInt16 × UInt8 × UInt8)} {ss : List Sample}
    (h : p.takeAll fuel shots = some (ss, p')) : shots.map (q.look fuel) = ss.map some := by
  induction shots generalizing p ss with
  | nil =>
    cases h
    rfl
  | cons shot shots ih =>
    obtain ⟨t, x, y⟩ := shot
    obtain ⟨s, p₁, ss₁, hs, hss, rfl⟩ := takeAll_cons_cases h
    have hlook : q.look fuel (t, x, y) = some s := by
      rw [look, Rendering.sample_eq hquiet (hq.atTime t) (hp.atTime t) rfl, hs]
      rfl
    rw [List.map_cons, List.map_cons, hlook, ih (.act (hp.atTime t) rfl (act_sample hs)) hss]

/-- The word of each place of each frame is that of a sample taken at that time alone. -/
theorem nth?_addFrames (hquiet : (Program.parse source).Quiet)
    (hp : ofSource fuel source config = some p) {t : UInt32} {frames : Nat} {film : Film}
    (h : Film.addFrames fuel t frames { player := p } = some film) {n : Nat} (hn : n < frames)
    (x y : UInt8) :
    ∃ s, Word.nth? film.video ((n * 256 + y.toNat) * 256 + x.toNat) = some s.video ∧
      ((p.setTime (t + UInt32.ofNat n)).sample fuel x y).map Prod.fst = some s := by
  rw [Film.addFrames_eq_shoot] at h
  obtain ⟨ss, p', hss, rfl⟩ := Film.shoot_cases h
  have hmap := Rendering.map_look hquiet (.start hp) (.start hp) hss
  have hshot := congrArg (·[(n * 256 + y.toNat) * 256 + x.toNat]?) hmap
  simp only [List.getElem?_map, Film.getElem?_filmShots t hn] at hshot
  obtain ⟨s, hs, hlook⟩ := Option.map_eq_some_iff.1 hshot.symm
  refine ⟨s, ?_, hlook.symm⟩
  have hvideo := Film.toList_video_extended { player := p } (Film.filmShots t frames) ss p'
  rw [Word.nth?_of_bytes (hvideo.trans (List.nil_append _)), List.getElem?_map, hs]
  rfl

/-- A quiet program whose samples end, each by itself, can be filmed. -/
theorem exists_film (hquiet : (Program.parse source).Quiet)
    (hp : ofSource fuel source config = some p)
    (hends : ∀ t x y, ((p.setTime t).sample fuel x y).isSome = true) (t : UInt32) (frames : Nat) :
    ∃ film, Film.addFrames fuel t frames { player := p } = some film := by
  have hsample : ∀ q x y, Rendering source config q →
      ∃ s q', q.sample fuel x y = some (s, q') ∧ Rendering source config q' := by
    intro q x y hq
    have htime : (p.setTime q.time.toUInt32).time = q.time := UInt16.toUInt16_toUInt32 _
    have hsame := hq.sample_eq hquiet (Rendering.setTime (.start hp) _) htime.symm fuel x y
    obtain ⟨r, hr⟩ := Option.isSome_iff_exists.1 (hends q.time.toUInt32 x y)
    rw [hr] at hsame
    obtain ⟨⟨s, q'⟩, hs, -⟩ := Option.map_eq_some_iff.1 hsame
    exact ⟨s, q', hs, .act hq rfl (act_sample hs)⟩
  have hstart : Rendering source config p := .start hp
  obtain ⟨ss, q, hss⟩ :=
    exists_takeAll (fun q t hq => hq.atTime t) hsample (Film.filmShots t frames) hstart
  exact ⟨_, (Film.addFrames_eq_shoot t frames _).trans (Film.shoot_of_takeAll hss)⟩

end Player

namespace Command

open Player FileSystem

/-- **The order of samples does not matter.**  Under any settings, a player of a quiet program that
has been sampled, moved in time and loaded again gives the sample that a new player gives at the
same time.  Hence each word that the frame command writes is the video word that the eval command
prints for its place and time: what eval prints starts with the word, in eight hexadecimal
digits. -/
theorem samples_in_any_order {source : String} (hquiet : (Program.parse source).Quiet)
    (config : Config) :
    (∀ (p q : Player) (fuel₀ : Nat) (t : UInt32), Rendering source config p →
      ofSource fuel₀ source config = some q → p.time = t.toUInt16 →
      (q.setTime t).time = t.toUInt16 ∧ ∀ (fuel : Nat) (x y : UInt8),
        (p.sample fuel x y).map Prod.fst = ((q.setTime t).sample fuel x y).map Prod.fst) ∧
    ∀ (fuel : Nat) (args : List String) (inv : Invocation) (fs fs' : FileSystem) (t frames : UInt32)
      (out : String) (audioOut : Option String) (printed : String) (notice : Option String),
      Invocation.parse args = .ok inv → inv.task = .frame t frames out audioOut →
      inv.load fs = .ok (source, config) → runOn fuel args fs = (.done printed notice, fs') →
      ∃ video audio : ByteArray, rendered? fs out audioOut video audio = some fs' ∧
        (fs.find? out ≠ some .null → (∀ path ∈ audioOut, fs.locate? path ≠ fs.locate? out) →
          fs'.read? out = some video) ∧
        video.size = 262144 * frames.toNat ∧
        ∀ n < frames.toNat, ∀ x y : UInt8,
          ∃ (s : Sample) (fault : String) (digits : List Char) (rest : String),
            Word.nth? video ((n * 256 + y.toNat) * 256 + x.toNat) = some s.video ∧
            s.report ++ fault = "video  0x" ++ String.ofList digits ++ rest ∧
            digits.length = 8 ∧ Text.ofHexadecimal? digits = some s.video.toUInt32.toNat ∧
            ∀ args', Invocation.parse args' =
                .ok { inv with task := .eval x y (t + UInt32.ofNat n) } →
              runOn fuel args' fs = (.done (s.report ++ fault) none, fs) := by
  constructor
  · intro p q fuel₀ t hp hq htime
    exact ⟨rfl, Rendering.sample_eq hquiet hp (Rendering.setTime (.start hq) t) htime⟩
  · intro fuel args inv fs fs' t frames out audioOut printed notice hparse htask hload hrun
    rw [runOn_eq hparse hload, htask] at hrun
    cases hp : ofSource fuel source config with
    | none =>
      rw [hp] at hrun
      cases hrun
    | some p =>
      rw [hp] at hrun
      obtain ⟨film, hfilm, hfs'⟩ := rendered?_of_frame hrun
      refine ⟨film.video, film.audio, hfs',
        fun hnull hapart => (read?_of_rendered? hfs' hnull hapart).1,
        (Film.size_addFrames hfilm).trans (Nat.zero_add _), ?_⟩
      intro n hn x y
      obtain ⟨s, hword, hs⟩ := nth?_addFrames hquiet hp hfilm hn x y
      obtain ⟨⟨s', p'⟩, hsample, rfl⟩ := Option.map_eq_some_iff.1 hs
      obtain ⟨digits, digits', rest, rest', hreport, ⟨hlength, hdigits⟩, -⟩ := s'.exists_report
      refine ⟨s', p'.faultReport, digits, rest ++ "\naudio  0x" ++ String.ofList digits' ++ rest' ++
        p'.faultReport, hword, ?_, hlength, hdigits, ?_⟩
      · rw [hreport]
        simp only [String.append_assoc]
      · intro args' hparse'
        have heval : eval fuel x y (t + UInt32.ofNat n) p =
            .done (s'.report ++ p'.faultReport) none := by
          simp only [eval, hsample]
        rw [runOn_eq hparse' hload, hp, ← heval]
        rfl

/-- A program that switches media.  A player of it that was sampled elsewhere gives the samples of a
new one; and in two frames from the last time on, a pixel of the second is what evaluating it at
time zero prints. -/
theorem time_wraps_around :
    (∃ p q s, ofSource 9 "d*M1@" { audio := true } = some q ∧ q.sample 9 1 2 = some (s, p) ∧
      ∀ fuel x y, (p.sample fuel x y).map Prod.fst = ((q.setTime 0).sample fuel x y).map Prod.fst) ∧
    ∃ (fs' : FileSystem) (video : ByteArray) (w : Word) (digits : List Char) (rest : String),
      runOn 9 ["frame", "--audio", "-e", "d*M1@", "--t", "4294967295", "--frames", "2", "-o", "/v",
          "--audio-out", "a"] (.ofFiles []) = (.done "" (some "rendered 2 frames -> /v"), fs') ∧
      fs'.read? "/v" = some video ∧
      Word.nth? video ((1 * 256 + 8) * 256 + 7) = some w ∧
      digits.length = 8 ∧ Text.ofHexadecimal? digits = some w.toUInt32.toNat ∧
      runOn 9 ["eval", "--audio", "-e", "d*M1@", "--x", "7", "--y", "8", "--t", "0"] (.ofFiles []) =
        (.done ("video  0x" ++ String.ofList digits ++ rest) none, .ofFiles []) := by
  have hquiet : (Program.parse "d*M1@").Quiet := by decide
  obtain ⟨p, hp, htime, ⟨s, p'⟩, hsample, hends⟩ : ∃ p,
      ofSource 9 "d*M1@" { audio := true } = some p ∧ p.time = 0 ∧
        ∃ r, p.sample 9 1 2 = some r ∧
          ∀ t x y, ((p.setTime t).sample 9 x y).isSome = true :=
    ⟨_, rfl, rfl, _, rfl, fun _ _ _ => rfl⟩
  constructor
  · have htime' : p'.time = (0 : UInt32).toUInt16 := (time_of_sample hsample).trans htime
    have hsamples := (samples_in_any_order hquiet { audio := true }).1 p' p 9 0
      (.act (.start hp) rfl (act_sample hsample)) hp htime'
    exact ⟨p', p, s, hp, hsample, hsamples.2⟩
  · obtain ⟨film, hfilm⟩ := exists_film hquiet hp hends 4294967295 (2 : UInt32).toNat
    let fs : FileSystem := .ofFiles []
    have hapart : ∀ path ∈ some "a", fs.locate? path ≠ fs.locate? "/v" := by
      rintro path ⟨⟩
      decide
    have haudio : ∀ path ∈ some "a", (fs.create? path).isSome = true := by
      rintro path ⟨⟩
      decide
    obtain ⟨fs', hfs'⟩ := exists_rendered? (by decide : (fs.create? "/v").isSome = true) haudio
      film.video film.audio
    let inv : Invocation := {
      config := none
      settings := { audio := some true }
      source := .code "d*M1@"
      task := .frame 4294967295 2 "/v" (some "a") }
    have hparse : Invocation.parse ["frame", "--audio", "-e", "d*M1@", "--t", "4294967295",
        "--frames", "2", "-o", "/v", "--audio-out", "a"] = .ok inv := rfl
    have hload : inv.load fs = .ok ("d*M1@", { audio := true }) := rfl
    have hrun : runOn 9 ["frame", "--audio", "-e", "d*M1@", "--t", "4294967295", "--frames", "2",
        "-o", "/v", "--audio-out", "a"] fs = (.done "" (some "rendered 2 frames -> /v"), fs') := by
      rw [runOn_eq hparse hload, hp]
      exact frame_of_rendered? hfilm hfs'
    obtain ⟨video, audio, -, hread, -, hpixel⟩ :=
      (samples_in_any_order hquiet { audio := true }).2 9 _ inv _ _ _ _ _ _ _ _ hparse rfl hload
        hrun
    obtain ⟨s, fault, digits, rest, hword, hreport, hlength, hdigits, heval⟩ :=
      hpixel 1 (by decide) 7 8
    refine ⟨fs', video, s.video, digits, rest, hrun, hread nofun hapart, hword, hlength,
      hdigits, ?_⟩
    rw [← hreport]
    exact heval _ rfl

end Command
end GlyphMachine
