import GlyphMachine.Command.Run

/-!
# What a report shows

The eval command prints the words of a sample in hexadecimal.  Read as such, the digits give the
words back.

* `Text.ofHexadecimal?` — the number that hexadecimal digits stand for;
  `ofHexadecimal?_hexadecimal` — what is written in hexadecimal is read back.
* `Sample.exists_report` — where the report of a sample shows its two words.
-/

namespace GlyphMachine

namespace Text

/-- The value of a lower-case hexadecimal digit. -/
def hexDigit? (c : Char) : Option Nat :=
  if '0' ≤ c ∧ c ≤ '9' then some (c.toNat - '0'.toNat)
  else if 'a' ≤ c ∧ c ≤ 'f' then some (c.toNat - 'a'.toNat + 10)
  else none

/-- The number `n`, with one more digit behind it. -/
def withHexDigit? (n : Nat) (c : Char) : Option Nat := (hexDigit? c).map (16 * n + ·)

/-- The number that hexadecimal digits stand for, most significant digit first. -/
def ofHexadecimal? (digits : List Char) : Option Nat := digits.foldlM withHexDigit? 0

theorem hexDigit?_digitChar : ∀ d < 16, hexDigit? d.digitChar = some d := by decide

theorem withHexDigit?_digitChar (n : Nat) {d : Nat} (hd : d < 16) :
    withHexDigit? n d.digitChar = some (16 * n + d) := by
  rw [withHexDigit?, hexDigit?_digitChar d hd, Option.map_some]

theorem ofHexadecimal?_toDigits (n : Nat) : ofHexadecimal? (Nat.toDigits 16 n) = some n := by
  induction n using Nat.strongRecOn with
  | ind n ih =>
    rcases Nat.lt_or_ge n 16 with hn | hn
    · rw [Nat.toDigits_of_lt_base hn]
      show (withHexDigit? 0 n.digitChar).bind pure = some n
      rw [withHexDigit?_digitChar 0 hn, Nat.mul_zero, Nat.zero_add]
      rfl
    · have hquotient : ofHexadecimal? (Nat.toDigits 16 (n / 16)) = some (n / 16) :=
        ih (n / 16) (by omega)
      have hlast := withHexDigit?_digitChar (n / 16) (Nat.mod_lt n (by decide : 0 < 16))
      unfold ofHexadecimal? at hquotient
      rw [Nat.toDigits_of_base_le (by decide) hn, ofHexadecimal?, List.foldlM_append, hquotient]
      show (withHexDigit? (n / 16) (n % 16).digitChar).bind pure = some n
      rw [hlast, Nat.div_add_mod]
      rfl

/-- **What is written in hexadecimal is read back**, whatever the width. -/
theorem ofHexadecimal?_hexadecimal (width n : Nat) :
    ofHexadecimal? (hexadecimal width n) = some n := by
  have hzeros : ∀ k, (List.replicate k '0').foldlM withHexDigit? 0 = some 0 := by
    intro k
    induction k with
    | zero => rfl
    | succ k ih => exact ih
  rw [hexadecimal, padLeft, ofHexadecimal?, List.foldlM_append, hzeros]
  exact ofHexadecimal?_toDigits n

theorem length_hexadecimal {n : Nat} (h : n < 4294967296) : (hexadecimal 8 n).length = 8 := by
  have hdigits : (Nat.toDigits 16 n).length ≤ 8 :=
    (Nat.length_toDigits_le_iff (by decide) (by decide)).2 h
  rw [hexadecimal, padLeft, List.length_append, List.length_replicate]
  omega

end Text

/-- The report of a word starts with its bits, in eight hexadecimal digits. -/
theorem Word.exists_report (w : Word) :
    ∃ (digits : List Char) (rest : String), w.report = "0x" ++ String.ofList digits ++ rest ∧
      digits.length = 8 ∧ Text.ofHexadecimal? digits = some w.toUInt32.toNat := by
  refine ⟨Text.hexadecimal 8 w.toUInt32.toNat,
    "  " ++ String.ofList (Text.padRight 11 (Literal.chars w)), ?_,
    Text.length_hexadecimal w.toUInt32.toNat_lt, Text.ofHexadecimal?_hexadecimal 8 _⟩
  simp only [report, String.append_assoc]

/-- **The report of a sample shows its two words**, each in eight hexadecimal digits on a line of
its own. -/
theorem Sample.exists_report (s : Sample) :
    ∃ (video audio : List Char) (rest rest' : String),
      s.report = "video  0x" ++ String.ofList video ++ rest ++ "\naudio  0x" ++
        String.ofList audio ++ rest' ∧
      (video.length = 8 ∧ Text.ofHexadecimal? video = some s.video.toUInt32.toNat) ∧
      (audio.length = 8 ∧ Text.ofHexadecimal? audio = some s.audio.toUInt32.toNat) := by
  obtain ⟨video, rest, hvideo, hdigits⟩ := s.video.exists_report
  obtain ⟨audio, rest', haudio, hdigits'⟩ := s.audio.exists_report
  refine ⟨video, audio, rest ++ (" v=" ++ Text.byte s.chromaV ++ " u=" ++ Text.byte s.chromaU ++
    " y=" ++ Text.byte s.luma), rest' ++ (" pcm=" ++ toString s.pcm.toInt ++ "\n"), ?_, hdigits,
    hdigits'⟩
  have hlabel : ∀ tail : String, "video  " ++ ("0x" ++ tail) = "video  0x" ++ tail := by
    intro tail
    exact (String.append_assoc ..).symm.trans (congrArg (· ++ tail) (by decide))
  have hlabel' : ∀ tail : String,
      "\n" ++ ("audio  " ++ ("0x" ++ tail)) = "\naudio  0x" ++ tail := by
    intro tail
    refine (String.append_assoc ..).symm.trans ((String.append_assoc ..).symm.trans ?_)
    exact congrArg (· ++ tail) (by decide)
  -- not by `rw`, which would first evaluate all the texts for an equation of `report`
  delta Sample.report
  simp only [hvideo, haudio, String.append_assoc, hlabel, hlabel']

end GlyphMachine
