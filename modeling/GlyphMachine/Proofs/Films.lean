import GlyphMachine.Film
import GlyphMachine.Proofs.VisibleState

/-!
# Films are sequences of samples

The loops over frames, rows and columns take one sample after the other, each on the player that
the one before it left.  The bytes of a film are the video words of these samples in order, and the
sound levels of those in the first column.

* `Word.nth?_of_bytes`, `Sample.nthLevel?_of_bytes` — what is written one after the other is read
  back by its number.
* `Player.takeAll` — samples taken one after the other, each at its own time and place;
  `Player.exists_left` gives the player that takes each of them.
* `Film.shoot` — a film with such samples added; `foldlM_eq_shoot` is the one induction over a loop,
  and `addFrames_eq_shoot` puts the three loops together.
* `Film.getElem?_filmShots`, `Film.getElem?_rowStarts_filmShots` — the sample at number
  `(n * 256 + y) * 256 + x` is that of column `x` and row `y` at the time of frame `n`, and those
  with the sound are the first of each row.
-/

namespace GlyphMachine

/-! ## Rows of one length -/

namespace Film

section Rows

variable {α β : Type} {f : α → List β} {k : Nat} (hf : ∀ a, (f a).length = k)
include hf

theorem length_rows (l : List α) : (l.flatMap f).length = l.length * k := by
  rw [List.length_flatMap, funext hf, List.map_const', List.sum_replicate_nat]

/-- Of rows of one length laid end to end, the entry `j` of row `i`. -/
theorem getElem?_rows (l : List α) (i : Nat) {j : Nat} (hj : j < k) :
    (l.flatMap f)[i * k + j]? = l[i]?.bind fun a => (f a)[j]? := by
  induction l generalizing i with
  | nil => rfl
  | cons a l ih =>
    rw [List.flatMap_cons]
    cases i with
    | zero =>
      rw [Nat.zero_mul, Nat.zero_add, List.getElem?_append_left (by rw [hf]; exact hj)]
      rfl
    | succ i =>
      have hk : (i + 1) * k + j = (f a).length + (i * k + j) := by rw [hf, Nat.succ_mul]; omega
      rw [hk, List.getElem?_append_right (Nat.le_add_right _ _), Nat.add_sub_cancel_left, ih]
      rfl

theorem drop_rows (l : List α) (i : Nat) : (l.flatMap f).drop (k * i) = (l.drop i).flatMap f := by
  induction i generalizing l with
  | zero => rfl
  | succ i ih =>
    cases l with
    | nil => simp
    | cons a l =>
      have hk : k * (i + 1) = (f a).length + k * i := by rw [hf, Nat.mul_succ, Nat.add_comm]
      rw [List.flatMap_cons, List.drop_succ_cons, ← ih, hk, List.drop_length_add_append]

/-- Of rows of one length laid end to end, row `i`. -/
theorem take_drop_rows (l : List α) (i : Nat) :
    ((l.flatMap f).drop (k * i)).take k = (l[i]?.map f).getD [] := by
  rw [drop_rows hf, ← List.head?_drop]
  cases l.drop i with
  | nil => simp
  | cons a l =>
    rw [List.flatMap_cons, List.take_append_of_le_length (Nat.le_of_eq (hf a).symm), ← hf a,
      List.take_length]
    rfl

end Rows

end Film

/-! ## Words in a file -/

namespace Word

/-- The bytes of a word, least significant byte first. -/
def bytes (w : Word) : List UInt8 :=
  let u := w.toUInt32
  [u.toUInt8, (u >>> 8).toUInt8, (u >>> 16).toUInt8, (u >>> 24).toUInt8]

/-- The word with the given four bytes. -/
def ofBytes? : List UInt8 → Option Word
  | [a, b, c, d] =>
    some (UInt32.ofNat (a.toNat + 256 * (b.toNat + 256 * (c.toNat + 256 * d.toNat)))).toInt32
  | _ => none

/-- The word with number `i` in a file of words. -/
def nth? (file : ByteArray) (i : Nat) : Option Word :=
  ofBytes? ((file.data.toList.drop (4 * i)).take 4)

theorem ofBytes?_bytes (w : Word) : ofBytes? w.bytes = some w := by
  obtain ⟨u⟩ := w
  have hu := u.toNat_lt
  have hnumber : u.toUInt8.toNat + 256 * ((u >>> 8).toUInt8.toNat +
      256 * ((u >>> 16).toUInt8.toNat + 256 * (u >>> 24).toUInt8.toNat)) = u.toNat := by
    simp [Nat.shiftRight_eq_div_pow]
    omega
  show some (UInt32.ofNat _).toInt32 = some u.toInt32
  rw [hnumber, UInt32.ofNat_toNat]

theorem toList_appendTo (file : ByteArray) (w : Word) :
    (w.appendTo file).data.toList = file.data.toList ++ w.bytes := by
  simp [appendTo, bytes]

theorem length_bytes (w : Word) : w.bytes.length = 4 := rfl

/-- **Words written one after the other are read back by their number.** -/
theorem nth?_of_bytes {file : ByteArray} {ws : List Word}
    (h : file.data.toList = ws.flatMap bytes) (i : Nat) : nth? file i = ws[i]? := by
  rw [nth?, h, Film.take_drop_rows length_bytes]
  cases ws[i]? with
  | none => rfl
  | some w => exact ofBytes?_bytes w

end Word

/-! ## Sound levels in a file -/

namespace Sample

/-- The bytes of the sound level, least significant byte first. -/
def levelBytes (s : Sample) : List UInt8 :=
  let u := s.pcm.toUInt16
  [u.toUInt8, (u >>> 8).toUInt8]

/-- The sound level with the given two bytes. -/
def levelOfBytes? : List UInt8 → Option Int16
  | [a, b] => some (UInt16.ofNat (a.toNat + 256 * b.toNat)).toInt16
  | _ => none

/-- The sound level with number `i` in a file of sound levels. -/
def nthLevel? (file : ByteArray) (i : Nat) : Option Int16 :=
  levelOfBytes? ((file.data.toList.drop (2 * i)).take 2)

theorem levelOfBytes?_levelBytes (s : Sample) : levelOfBytes? s.levelBytes = some s.pcm := by
  rw [levelBytes]
  obtain ⟨u⟩ := s.pcm
  have hu := u.toNat_lt
  have hnumber : u.toUInt8.toNat + 256 * (u >>> 8).toUInt8.toNat = u.toNat := by
    simp [Nat.shiftRight_eq_div_pow]
    omega
  show some (UInt16.ofNat _).toInt16 = some u.toInt16
  rw [hnumber, UInt16.ofNat_toNat]

theorem toList_appendLevel (file : ByteArray) (s : Sample) :
    (s.appendLevel file).data.toList = file.data.toList ++ s.levelBytes := by
  simp [appendLevel, levelBytes]

theorem length_levelBytes (s : Sample) : s.levelBytes.length = 2 := rfl

/-- Sound levels written one after the other are read back by their number. -/
theorem nthLevel?_of_bytes {file : ByteArray} {ss : List Sample}
    (h : file.data.toList = ss.flatMap levelBytes) (i : Nat) :
    nthLevel? file i = ss[i]?.map pcm := by
  rw [nthLevel?, h, Film.take_drop_rows length_levelBytes]
  cases ss[i]? with
  | none => rfl
  | some s => exact levelOfBytes?_levelBytes s

end Sample

/-! ## Samples in sequence -/

namespace Player

/-- The player at another time. -/
def atTime (p : Player) (t : UInt16) : Player :=
  { p with machine := { p.machine with time := t } }

/-- Takes a sample for each shot, at its time and place, one after the other on the same player. -/
def takeAll (fuel : Nat) :
    List (UInt16 × UInt8 × UInt8) → Player → Option (List Sample × Player)
  | [], p => some ([], p)
  | (t, x, y) :: shots, p => do
    let (s, p) ← (p.atTime t).sample fuel x y
    let (ss, p) ← takeAll fuel shots p
    some (s :: ss, p)

variable {fuel : Nat} {p q : Player} {t : UInt16} {x y : UInt8} {ss : List Sample}
  {shots shots' : List (UInt16 × UInt8 × UInt8)}

theorem takeAll_cons (t : UInt16) (x y : UInt8) (shots : List (UInt16 × UInt8 × UInt8))
    (p : Player) : takeAll fuel ((t, x, y) :: shots) p =
      ((p.atTime t).sample fuel x y).bind fun r =>
        (takeAll fuel shots r.2).map fun r' => (r.1 :: r'.1, r'.2) := by
  rw [takeAll]
  cases (p.atTime t).sample fuel x y with
  | none => rfl
  | some r =>
    rw [Option.bind_some]
    show (takeAll fuel shots r.2).bind _ = _
    cases takeAll fuel shots r.2 <;> rfl

theorem takeAll_append (shots shots' : List (UInt16 × UInt8 × UInt8)) (p : Player) :
    takeAll fuel (shots ++ shots') p = (takeAll fuel shots p).bind fun r =>
      (takeAll fuel shots' r.2).map fun r' => (r.1 ++ r'.1, r'.2) := by
  induction shots generalizing p with
  | nil =>
    show _ = (takeAll fuel shots' p).map id
    rw [Option.map_id]
    rfl
  | cons shot shots ih =>
    obtain ⟨t, x, y⟩ := shot
    rw [List.cons_append, takeAll_cons, takeAll_cons]
    simp [ih, Option.bind_map, Option.map_bind, Option.bind_assoc, Function.comp_def]

theorem takeAll_cons_cases (h : takeAll fuel ((t, x, y) :: shots) p = some (ss, q)) :
    ∃ s p₁ ss₁, (p.atTime t).sample fuel x y = some (s, p₁) ∧
      takeAll fuel shots p₁ = some (ss₁, q) ∧ ss = s :: ss₁ := by
  obtain ⟨⟨s, p₁⟩, hs, h⟩ := Option.bind_eq_some_iff.1 h
  obtain ⟨⟨ss₁, q₁⟩, hss, h⟩ := Option.bind_eq_some_iff.1 h
  cases h
  exact ⟨s, p₁, ss₁, hs, hss, rfl⟩

theorem length_takeAll (h : takeAll fuel shots p = some (ss, q)) : ss.length = shots.length := by
  induction shots generalizing p ss with
  | nil =>
    cases h
    rfl
  | cons shot shots ih =>
    obtain ⟨s, p₁, ss₁, -, hss, rfl⟩ := takeAll_cons_cases h
    rw [List.length_cons, List.length_cons, ih hss]

/-- The time of the player does not matter, since each shot brings its own. -/
theorem takeAll_setTime (hne : shots ≠ []) (t : UInt32) :
    takeAll fuel shots (p.setTime t) = takeAll fuel shots p := by
  cases shots with
  | nil => exact absurd rfl hne
  | cons shot shots => rfl

/-- Shots of one time leave the player at that time. -/
theorem time_of_takeAll (h : takeAll fuel shots p = some (ss, q))
    (hshots : ∀ shot ∈ shots, shot.1 = t) (hp : p.time = t) : q.time = t := by
  induction shots generalizing p ss with
  | nil =>
    cases h
    exact hp
  | cons shot shots ih =>
    obtain ⟨s, p₁, ss₁, hs, hss, -⟩ := takeAll_cons_cases h
    refine ih hss (fun r hr => hshots r (List.mem_cons_of_mem _ hr)) ?_
    rw [time_of_sample hs, ← hshots shot List.mem_cons_self]
    rfl

/-- **Each sample is taken on the player that the one before it left**: at the time of its shot, and
with everything else as it was left. -/
theorem exists_left (h : takeAll fuel shots p = some (ss, q)) :
    ∃ left : Nat → Player, left 0 = p ∧ ∀ i t x y, shots[i]? = some (t, x, y) →
      ∃ s, ss[i]? = some s ∧ ((left i).atTime t).sample fuel x y = some (s, left (i + 1)) := by
  induction shots generalizing p ss with
  | nil => exact ⟨fun _ => p, rfl, by simp⟩
  | cons shot shots ih =>
    obtain ⟨s, p₁, ss₁, hs, hss, rfl⟩ := takeAll_cons_cases h
    obtain ⟨left, rfl, hleft⟩ := ih hss
    refine ⟨fun i => i.casesOn p left, rfl, fun i t x y hshot => ?_⟩
    cases i with
    | zero =>
      cases hshot
      exact ⟨s, rfl, hs⟩
    | succ i => exact hleft i t x y hshot

/-- If every sample ends, on players with a property that lasts, all samples are taken. -/
theorem exists_takeAll {I : Player → Prop} (htime : ∀ p t, I p → I (p.atTime t))
    (hsample : ∀ p x y, I p → ∃ s p', p.sample fuel x y = some (s, p') ∧ I p')
    (shots : List (UInt16 × UInt8 × UInt8)) (hp : I p) :
    ∃ ss q, takeAll fuel shots p = some (ss, q) := by
  induction shots generalizing p with
  | nil => exact ⟨[], p, rfl⟩
  | cons shot shots ih =>
    obtain ⟨t, x, y⟩ := shot
    obtain ⟨s, p', hs, hp'⟩ := hsample _ x y (htime p t hp)
    obtain ⟨ss, q, hss⟩ := ih hp'
    exact ⟨s :: ss, q, by rw [takeAll_cons, hs, Option.bind_some, hss]; rfl⟩

end Player

/-! ## What a film gains -/

namespace Film

variable {fuel : Nat} {f g : Film} {q : Player} {ss ss' : List Sample}
  {shots shots' : List (UInt16 × UInt8 × UInt8)}

/-- Of the samples taken at the given shots, those of the first column. -/
def rowStarts (shots : List (UInt16 × UInt8 × UInt8)) (ss : List Sample) : List Sample :=
  ((shots.zip ss).filter fun (shot, _) => shot.2.1 = 0).map Prod.snd

theorem rowStarts_append (hlength : shots.length = ss.length) :
    rowStarts (shots ++ shots') (ss ++ ss') = rowStarts shots ss ++ rowStarts shots' ss' := by
  rw [rowStarts, List.zip_append hlength, List.filter_append, List.map_append]
  rfl

/-- The film with the samples `ss` added, which were taken at the given shots and left the player
`q`. -/
def extended (f : Film) (shots : List (UInt16 × UInt8 × UInt8)) (ss : List Sample) (q : Player) :
    Film where
  player := q
  video := ss.foldl (fun file s => s.video.appendTo file) f.video
  audio := (rowStarts shots ss).foldl (fun file s => s.appendLevel file) f.audio

theorem size_of_toList {b : ByteArray} {l : List UInt8} (h : b.data.toList = l) :
    b.size = l.length := by
  rw [← h]
  exact Array.length_toList.symm

/-- What is appended piece by piece is appended in order. -/
theorem toList_foldl {α : Type} {append : ByteArray → α → ByteArray} {bytes : α → List UInt8}
    (happend : ∀ file a, (append file a).data.toList = file.data.toList ++ bytes a) (l : List α)
    (file : ByteArray) :
    (l.foldl append file).data.toList = file.data.toList ++ l.flatMap bytes := by
  induction l generalizing file with
  | nil => simp
  | cons a l ih => rw [List.foldl_cons, ih, happend, List.flatMap_cons, List.append_assoc]

theorem toList_video_extended (f : Film) (shots : List (UInt16 × UInt8 × UInt8))
    (ss : List Sample) (q : Player) : (f.extended shots ss q).video.data.toList =
      f.video.data.toList ++ (ss.map Sample.video).flatMap Word.bytes := by
  rw [List.flatMap_map]
  exact toList_foldl (fun file s => Word.toList_appendTo file s.video) ss f.video

theorem toList_audio_extended (f : Film) (shots : List (UInt16 × UInt8 × UInt8))
    (ss : List Sample) (q : Player) : (f.extended shots ss q).audio.data.toList =
      f.audio.data.toList ++ (rowStarts shots ss).flatMap Sample.levelBytes :=
  toList_foldl Sample.toList_appendLevel _ f.audio

theorem extended_extended {p : Player} (hlength : shots.length = ss.length) :
    (f.extended shots ss p).extended shots' ss' q = f.extended (shots ++ shots') (ss ++ ss') q := by
  simp only [extended, rowStarts_append hlength, List.foldl_append]

/-- The film with the samples at the given shots added, if all of them end. -/
def shoot (fuel : Nat) (shots : List (UInt16 × UInt8 × UInt8)) (f : Film) : Option Film :=
  (f.player.takeAll fuel shots).map fun (ss, q) => f.extended shots ss q

theorem shoot_append (shots shots' : List (UInt16 × UInt8 × UInt8)) (f : Film) :
    f.shoot fuel (shots ++ shots') = (f.shoot fuel shots).bind (shoot fuel shots') := by
  rw [shoot, shoot, Player.takeAll_append]
  cases hss : f.player.takeAll fuel shots with
  | none => rfl
  | some r =>
    obtain ⟨ss, p⟩ := r
    have hlength := (Player.length_takeAll hss).symm
    rw [Option.bind_some, Option.map_map]
    show _ = (Player.takeAll fuel shots' p).map fun r =>
      (f.extended shots ss p).extended shots' r.1 r.2
    simp only [extended_extended hlength]
    rfl

/-- **A loop takes the samples of its rounds.**  What each round needs of the player and leaves of
it is `I`. -/
theorem foldlM_eq_shoot {α : Type} {step : Film → α → Option Film} {I : Player → Prop}
    {round : α → List (UInt16 × UInt8 × UInt8)}
    (hstep : ∀ f a, I f.player → step f a = f.shoot fuel (round a))
    (hround : ∀ p a ss q, I p → p.takeAll fuel (round a) = some (ss, q) → I q) (l : List α)
    (hf : I f.player) : l.foldlM step f = f.shoot fuel (l.flatMap round) := by
  induction l generalizing f with
  | nil => rfl
  | cons a l ih =>
    rw [List.foldlM_cons, List.flatMap_cons, shoot_append, hstep f a hf]
    cases hss : f.player.takeAll fuel (round a) with
    | none =>
      rw [shoot, hss]
      rfl
    | some r =>
      rw [shoot, hss]
      exact ih (hround _ _ _ _ hf hss)

theorem addSample_eq_shoot {t : UInt16} (htime : f.player.time = t) (x y : UInt8) :
    addSample fuel y f x = f.shoot fuel [(t, x, y)] := by
  obtain ⟨player, video, audio⟩ := f
  have hplayer : player.atTime t = player := by
    rw [← htime]
    rfl
  rw [shoot, Player.takeAll_cons, hplayer, addSample]
  cases player.sample fuel x y with
  | none => rfl
  | some r =>
    by_cases hx : x = 0
    · simp [extended, rowStarts, hx, Player.takeAll]
    · simp [extended, rowStarts, hx, Player.takeAll]

/-- The shots of the frame at time `t`. -/
def frameShots (t : UInt16) : List (UInt16 × UInt8 × UInt8) :=
  places.flatMap fun y => places.map fun x => (t, x, y)

theorem addRow_eq_shoot {t : UInt16} (htime : f.player.time = t) (y : UInt8) :
    addRow fuel f y = f.shoot fuel (places.map fun x => (t, x, y)) := by
  rw [List.map_eq_flatMap]
  refine foldlM_eq_shoot (I := fun p => p.time = t) (fun f x hf => addSample_eq_shoot hf x y) ?_
    places htime
  exact fun p x ss q hp h => Player.time_of_takeAll h (by simp) hp

theorem addFrame_eq_shoot (t : UInt32) (f : Film) :
    f.addFrame fuel t = f.shoot fuel (frameShots t.toUInt16) := by
  have hne : frameShots t.toUInt16 ≠ [] := List.cons_ne_nil _ _
  have hrow : ∀ (p : Player) y ss q, p.time = t.toUInt16 →
      p.takeAll fuel (places.map fun x => (t.toUInt16, x, y)) = some (ss, q) →
      q.time = t.toUInt16 :=
    fun p y ss q hp h => Player.time_of_takeAll h (by simp) hp
  have hloop := foldlM_eq_shoot (f := { f with player := f.player.setTime t })
    (I := fun p => p.time = t.toUInt16) (fun f y hf => addRow_eq_shoot hf y) hrow places rfl
  exact hloop.trans (congrArg (Option.map _) (Player.takeAll_setTime hne t))

/-- The shots of a film, in the order they are taken: frame by frame, row by row, column by column.
The time of frame `n` is that of the first plus `n`, which wraps around as a number of 32 bits and
then counts with its low 16 bits. -/
def filmShots (t : UInt32) (frames : Nat) : List (UInt16 × UInt8 × UInt8) :=
  (List.range frames).flatMap fun n =>
    (List.range 256).flatMap fun y =>
      (List.range 256).map fun x =>
        (UInt16.ofNat ((t.toNat + n) % 4294967296 % 65536), UInt8.ofNat x, UInt8.ofNat y)

theorem time_of_frame (t : UInt32) (n : Nat) :
    (t + UInt32.ofNat n).toUInt16 = UInt16.ofNat ((t.toNat + n) % 4294967296 % 65536) := by
  apply UInt16.toNat_inj.1
  simp

theorem filmShots_eq (t : UInt32) (frames : Nat) :
    filmShots t frames =
      (List.range frames).flatMap fun n => frameShots (t + UInt32.ofNat n).toUInt16 := by
  simp only [filmShots, frameShots, places, time_of_frame, List.flatMap_map, List.map_map]
  rfl

/-- **The frames of a film are the samples at its shots.** -/
theorem addFrames_eq_shoot (t : UInt32) (frames : Nat) (f : Film) :
    f.addFrames fuel t frames = f.shoot fuel (filmShots t frames) := by
  have hframe : ∀ (f : Film) n, True → f.addFrame fuel (t + UInt32.ofNat n) =
      f.shoot fuel (frameShots (t + UInt32.ofNat n).toUInt16) :=
    fun f n _ => addFrame_eq_shoot (t + UInt32.ofNat n) f
  rw [filmShots_eq, addFrames,
    foldlM_eq_shoot (I := fun _ => True) hframe (fun _ _ _ _ _ _ => trivial) _ trivial]

theorem shoot_cases (h : f.shoot fuel shots = some g) :
    ∃ ss q, f.player.takeAll fuel shots = some (ss, q) ∧ g = f.extended shots ss q := by
  obtain ⟨⟨ss, q⟩, hss, hg⟩ := Option.map_eq_some_iff.1 h
  exact ⟨ss, q, hss, hg.symm⟩

theorem shoot_of_takeAll (h : f.player.takeAll fuel shots = some (ss, q)) :
    f.shoot fuel shots = some (f.extended shots ss q) := by
  rw [shoot, h]
  rfl

/-! ## Where a sample lies -/

theorem getElem?_places (x : UInt8) : places[x.toNat]? = some x := by
  have hx := x.toNat_lt
  simp [places, hx]

theorem length_row (t : UInt16) (y : UInt8) : (places.map fun x => (t, x, y)).length = 256 := by
  simp [places]

theorem length_frameShots (t : UInt16) : (frameShots t).length = 65536 := by
  rw [frameShots, length_rows (length_row t)]
  simp [places]

theorem getElem?_frameShots (t : UInt16) (x y : UInt8) :
    (frameShots t)[y.toNat * 256 + x.toNat]? = some (t, x, y) := by
  rw [frameShots, getElem?_rows (length_row t) _ _ x.toNat_lt, getElem?_places, Option.bind_some,
    List.getElem?_map, getElem?_places]
  rfl

theorem length_filmShots (t : UInt32) (frames : Nat) :
    (filmShots t frames).length = frames * 65536 := by
  rw [filmShots_eq, length_rows (fun n => length_frameShots _), List.length_range]

/-- **The shot of place `(x, y)` of frame `n`** is the one that its word lies at. -/
theorem getElem?_filmShots (t : UInt32) {frames n : Nat} (hn : n < frames) (x y : UInt8) :
    (filmShots t frames)[(n * 256 + y.toNat) * 256 + x.toNat]? =
      some ((t + UInt32.ofNat n).toUInt16, x, y) := by
  have hx := x.toNat_lt
  have hy := y.toNat_lt
  have hindex : (n * 256 + y.toNat) * 256 + x.toNat = n * 65536 + (y.toNat * 256 + x.toNat) := by
    omega
  rw [filmShots_eq, hindex, getElem?_rows (fun n => length_frameShots _) _ _ (by omega),
    List.getElem?_range hn, Option.bind_some, getElem?_frameShots]

/-- Each frame adds 65536 words. -/
theorem size_addFrames {t : UInt32} {frames : Nat} (hf : f.addFrames fuel t frames = some g) :
    g.video.size = f.video.size + 262144 * frames := by
  rw [addFrames_eq_shoot] at hf
  obtain ⟨ss, q, hss, rfl⟩ := shoot_cases hf
  have hlength := (Player.length_takeAll hss).trans (length_filmShots t frames)
  rw [size_of_toList (toList_video_extended f _ ss q), List.length_append,
    length_rows Word.length_bytes, List.length_map, hlength, ← size_of_toList rfl]
  omega

/-! ## Where a sound level lies -/

section RowStarts

variable {α : Type} {row : α → List (UInt16 × UInt8 × UInt8)} {k : Nat}
  (hrow : ∀ a, ∃ shot rest, row a = shot :: rest ∧ rest.length = k ∧ shot.2.1 = 0 ∧
    ∀ r ∈ rest, r.2.1 ≠ 0)
include hrow

/-- **Of rows laid end to end, the first sample of each is found.** -/
theorem getElem?_rowStarts (l : List α) (hss : ss.length = l.length * (k + 1)) (i : Nat) :
    (rowStarts (l.flatMap row) ss)[i]? = ss[i * (k + 1)]? := by
  induction l generalizing ss i with
  | nil =>
    obtain rfl : ss = [] := List.eq_nil_of_length_eq_zero (by simpa using hss)
    rfl
  | cons a l ih =>
    obtain ⟨shot, rest, ha, hrest, hzero, hne⟩ := hrow a
    rw [List.length_cons, Nat.succ_mul] at hss
    -- the samples of this row, and those of the rows after it
    obtain ⟨s, ss₁, ss₂, rfl, hss₁, hss₂⟩ : ∃ s ss₁ ss₂, ss = s :: (ss₁ ++ ss₂) ∧
        ss₁.length = k ∧ ss₂.length = l.length * (k + 1) := by
      cases ss with
      | nil => simp at hss
      | cons s ss =>
        rw [List.length_cons] at hss
        refine ⟨s, ss.take k, ss.drop k, by rw [List.take_append_drop], ?_, ?_⟩
        · rw [List.length_take]
          omega
        · rw [List.length_drop]
          omega
    have hfirst : rowStarts (row a) (s :: ss₁) = [s] := by
      have hnone : (rest.zip ss₁).filter (fun (shot, _) => shot.2.1 = 0) = [] := by
        rw [List.filter_eq_nil_iff]
        rintro ⟨r, s'⟩ hr
        simpa using hne r (List.of_mem_zip hr).1
      rw [rowStarts, ha, List.zip_cons_cons, List.filter_cons_of_pos (by simpa using hzero), hnone]
      rfl
    have hlength : (row a).length = (s :: ss₁).length := by
      rw [ha, List.length_cons, List.length_cons, hrest, hss₁]
    rw [List.flatMap_cons, ← List.cons_append, rowStarts_append hlength, hfirst]
    cases i with
    | zero => simp
    | succ i =>
      have hindex : (i + 1) * (k + 1) = (s :: ss₁).length + i * (k + 1) := by
        rw [List.length_cons, hss₁, Nat.succ_mul]
        omega
      rw [List.singleton_append, List.getElem?_cons_succ, ih hss₂, hindex,
        List.getElem?_append_right (Nat.le_add_right _ _), Nat.add_sub_cancel_left]

end RowStarts

theorem row_starts_with_zero (t : UInt16) (y : UInt8) :
    ∃ shot rest, (places.map fun x => (t, x, y)) = shot :: rest ∧ rest.length = 255 ∧
      shot.2.1 = 0 ∧ ∀ r ∈ rest, r.2.1 ≠ 0 := by
  have hplaces : places = 0 :: (List.range 255).map fun n => UInt8.ofNat (n + 1) := by
    rw [places, List.range_succ_eq_map, List.map_cons, List.map_map]
    rfl
  rw [hplaces, List.map_cons, List.map_map]
  refine ⟨_, _, rfl, by rw [List.length_map, List.length_range], rfl, ?_⟩
  intro r hr
  obtain ⟨n, hn, rfl⟩ := List.mem_map.1 hr
  intro hzero
  have hnat : (n + 1) % 256 = 0 := congrArg UInt8.toNat hzero
  rw [List.mem_range] at hn
  omega

/-- The sound levels are those of the samples in the first column. -/
theorem getElem?_rowStarts_filmShots {t : UInt32} {frames : Nat}
    (hss : ss.length = frames * 65536) (i : Nat) :
    (rowStarts (filmShots t frames) ss)[i]? = ss[i * 256]? := by
  let rows : List (UInt16 × UInt8) :=
    (List.range frames).flatMap fun n => places.map fun y => ((t + UInt32.ofNat n).toUInt16, y)
  have hrows : filmShots t frames = rows.flatMap fun r => places.map fun x => (r.1, x, r.2) := by
    rw [filmShots_eq]
    simp [rows, frameShots, List.flatMap_assoc, List.flatMap_map]
  have hlength : rows.length = frames * 256 := by
    rw [length_rows (k := 256) (fun n => by simp [places]), List.length_range]
  rw [hrows]
  exact getElem?_rowStarts (k := 255) (fun r => row_starts_with_zero r.1 r.2) rows
    (by rw [hlength, hss]; omega) i

theorem length_rowStarts_filmShots {t : UInt32} {frames : Nat}
    (hss : ss.length = frames * 65536) :
    (rowStarts (filmShots t frames) ss).length = frames * 256 := by
  have hle : ∀ i, (rowStarts (filmShots t frames) ss).length ≤ i ↔ frames * 256 ≤ i := by
    intro i
    rw [← List.getElem?_eq_none_iff, getElem?_rowStarts_filmShots hss, List.getElem?_eq_none_iff,
      hss]
    omega
  exact Nat.le_antisymm ((hle _).2 (Nat.le_refl _)) ((hle _).1 (Nat.le_refl _))

end Film
end GlyphMachine
