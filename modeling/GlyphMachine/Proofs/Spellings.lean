import Mathlib.Data.List.TakeWhile
import Mathlib.Data.Nat.Digits.Lemmas
import GlyphMachine.Proofs.Literals

/-!
# Spellings of a word

Many literals denote the same word: zeros may stand in front of the whole half and behind the
fraction, digits beyond the fourth are not seen, and neither is a second point.  What a literal
denotes is said here without the reader, through its digits before and after the first point.

* `value_halves` — the word that a text of literal characters denotes.
* `wholeDigits_suffix`, `fractionDigits_prefix` — the digits that a word is written with stand in
  every other spelling of it: at the end of the digits before the point, and at the start of those
  after it.
* `literals_are_shortest` — hence the written form is the shortest spelling that starts with a
  digit, and the only one of its length.
-/

namespace GlyphMachine

/-! ## The halves of a word -/

namespace Word

theorem whole_ofHalves (h f : UInt16) : (ofHalves h.toUInt32 f.toUInt32).whole = h := by
  have hbits : (ofHalves h.toUInt32 f.toUInt32).whole.toBitVec =
      ((h.toBitVec.setWidth 32 <<< 16 ||| f.toBitVec.setWidth 32 &&&
        (BitVec.allOnes 16).setWidth 32) >>> 16).setWidth 16 := rfl
  apply UInt16.toBitVec_inj.1
  rw [hbits]
  apply BitVec.eq_of_getLsbD_eq
  intro i hi
  have h1 : 16 + i < 32 := by omega
  have h2 : ¬ 16 + i < 16 := by omega
  simp [hi, h1, h2, BitVec.getLsbD_of_ge]

theorem fraction_ofHalves (h f : UInt16) : (ofHalves h.toUInt32 f.toUInt32).fraction = f := by
  have hbits : (ofHalves h.toUInt32 f.toUInt32).fraction.toBitVec =
      (h.toBitVec.setWidth 32 <<< 16 ||| f.toBitVec.setWidth 32 &&&
        (BitVec.allOnes 16).setWidth 32).setWidth 16 := rfl
  apply UInt16.toBitVec_inj.1
  rw [hbits]
  apply BitVec.eq_of_getLsbD_eq
  intro i hi
  have h1 : i < 32 := by omega
  simp only [BitVec.getLsbD_or, BitVec.getLsbD_and, BitVec.getLsbD_shiftLeft,
    BitVec.getLsbD_setWidth, BitVec.getLsbD_allOnes]
  simp [hi, h1]

end Word

namespace Literal

/-! ## Characters and digits -/

/-- Only the sixteen digit characters have a value. -/
theorem digitChar_of_digit? {c : Char} {d : Nat} (h : digit? c = some d) :
    d < 16 ∧ digitChar d = c := by
  have hle : ∀ {a b : Char}, a ≤ b → a.toNat ≤ b.toNat := UInt32.le_iff_toNat_le.1
  unfold digit? at h
  split at h
  · rename_i hc
    cases h
    have h1 : 48 ≤ c.toNat := hle hc.1
    have h2 : c.toNat ≤ 57 := hle hc.2
    refine ⟨by omega, ?_⟩
    rw [digitChar, if_pos (by omega), Nat.add_sub_cancel' h1, Char.ofNat_toNat]
  · split at h
    · rename_i hc
      cases h
      have h1 : 65 ≤ c.toNat := hle hc.1
      have h2 : c.toNat ≤ 70 := hle hc.2
      refine ⟨by omega, ?_⟩
      rw [digitChar, if_neg (by omega), Nat.add_sub_cancel' (by omega), Char.ofNat_toNat]
    · cases h

/-- The values of the digits of a text, in order; points are left out. -/
def digitsOf (s : List Char) : List Nat := s.filterMap digit?

theorem digitsOf_lt {s : List Char} {d : Nat} (hd : d ∈ digitsOf s) : d < 16 := by
  obtain ⟨c, -, hc⟩ := List.mem_filterMap.1 hd
  exact (digitChar_of_digit? hc).1

/-- A text of literal characters without a point is made of its digits. -/
theorem map_digitsOf {s : List Char} (hs : ∀ c ∈ s, isLiteralChar c = true)
    (hpoint : '.' ∉ s) : (digitsOf s).map digitChar = s := by
  induction s with
  | nil => rfl
  | cons c s ih =>
    have hc : c ≠ '.' := fun h => hpoint (h ▸ List.mem_cons_self)
    have hlit := hs c List.mem_cons_self
    simp only [isLiteralChar, Bool.or_eq_true, beq_iff_eq, hc, false_or] at hlit
    obtain ⟨d, hd⟩ := Option.isSome_iff_exists.1 hlit
    have ih := ih (fun c' hc' => hs c' (List.mem_cons_of_mem c hc'))
      (fun h => hpoint (List.mem_cons_of_mem c h))
    unfold digitsOf at ih ⊢
    rw [List.filterMap_cons_some hd, List.map_cons, ih, (digitChar_of_digit? hd).2]

/-! ## Numbers -/

/-- The number with the given hexadecimal digits, most significant first. -/
def number (ds : List Nat) : Nat := Nat.ofDigits 16 ds.reverse

/-- The first four of some digits, with zeros for those that are missing. -/
def fourPlaces (ds : List Nat) : List Nat := (ds.take 4).rightpad 4 0

theorem number_cons (d : Nat) (ds : List Nat) :
    number (d :: ds) = d * 16 ^ ds.length + number ds := by
  rw [number, List.reverse_cons, Nat.ofDigits_append, List.length_reverse, Nat.ofDigits_singleton,
    Nat.add_comm, Nat.mul_comm]
  rfl

theorem shiftedIn_eq_number (ds : List Nat) : shiftedIn 0 ds = number ds := by
  rw [shiftedIn, number, List.foldl_eq_foldr_reverse, Nat.ofDigits_eq_foldr]
  congr 1
  funext d k
  simp only [Nat.cast_id]
  omega

theorem placed_eq_number (n : Nat) (ds : List Nat) :
    placed n ds = number ((ds.take n).rightpad n 0) := by
  induction n generalizing ds with
  | zero => simp [placed, number]
  | succ n ih =>
    cases ds with
    | nil =>
      have hzero : ∀ d ∈ List.replicate n 0, d = 0 := fun d hd => List.eq_of_mem_replicate hd
      have hzeros := placed_zeros hzero n
      rw [ih] at hzeros
      simp [placed, number_cons, List.replicate_succ] at hzeros ⊢
      exact hzeros.symm
    | cons d ds =>
      have hpad : ((d :: ds).take (n + 1)).rightpad (n + 1) 0 = d :: (ds.take n).rightpad n 0 := by
        simp [List.rightpad]
      have hlength : ((ds.take n).rightpad n 0).length = n := by simp [List.rightpad]
      rw [hpad, number_cons, hlength, placed, ih, Nat.shiftLeft_eq, Nat.pow_mul]

theorem length_fourPlaces (ds : List Nat) : (fourPlaces ds).length = 4 := by
  simp [fourPlaces, List.rightpad]

theorem fourPlaces_lt {ds : List Nat} (hds : ∀ d ∈ ds, d < 16) : ∀ d ∈ fourPlaces ds, d < 16 := by
  intro d hd
  rcases List.mem_append.1 hd with hd | hd
  · exact hds d (List.mem_of_mem_take hd)
  · rw [List.eq_of_mem_replicate hd]
    omega

/-- Four digits are below `65536`, and different ones make different numbers. -/
theorem number_lt {ds : List Nat} (hds : ∀ d ∈ ds, d < 16) (hlength : ds.length = 4) :
    number ds < 65536 := by
  have hlt := Nat.ofDigits_lt_base_pow_length (b := 16) (l := ds.reverse) (by omega)
    (fun d hd => hds d (List.mem_reverse.1 hd))
  rwa [List.length_reverse, hlength] at hlt

/-! ## What a literal denotes -/

/-- The digits before the first point. -/
def before (s : List Char) : List Nat := digitsOf (s.takeWhile (· != '.'))

/-- The digits after the first point. -/
def after (s : List Char) : List Nat := digitsOf (s.dropWhile (· != '.'))

/-- A text is its characters up to the first point, and nothing more or the point and the rest. -/
theorem point_cases (s : List Char) :
    '.' ∉ s.takeWhile (· != '.') ∧
      (s.dropWhile (· != '.') = [] ∨ ∃ u, s.dropWhile (· != '.') = '.' :: u) := by
  constructor
  · intro h
    have hne := List.all_eq_true.1 List.all_takeWhile _ h
    simp at hne
  · cases hrest : s.dropWhile (· != '.') with
    | nil => exact .inl rfl
    | cons c u =>
      have hc := List.head?_dropWhile_not (· != '.') s
      rw [hrest] at hc
      simp at hc
      exact .inr ⟨u, by rw [hc]⟩

theorem map_before {s : List Char} (hs : ∀ c ∈ s, isLiteralChar c = true) :
    (before s).map digitChar = s.takeWhile (· != '.') :=
  map_digitsOf (fun c hc => hs c ((List.takeWhile_prefix _).mem hc)) (point_cases s).1

/-- After the first point only digits are read. -/
theorem foldl_next_digitsOf (s : List Char) {r : Reading} {n : Nat} (hplaces : r.places = some n) :
    s.foldl Reading.next r = ((digitsOf s).map digitChar).foldl Reading.next r := by
  induction s generalizing r n with
  | nil => rfl
  | cons c s ih =>
    rw [List.foldl_cons, digitsOf]
    cases hc : digit? c with
    | none =>
      have hnext : r.next c = r := by simp [Reading.next, hc, hplaces]
      rw [List.filterMap_cons_none hc, hnext]
      exact ih hplaces
    | some d =>
      rw [List.filterMap_cons_some hc, List.map_cons, List.foldl_cons, (digitChar_of_digit? hc).2]
      cases n with
      | zero => exact ih (n := 0) (by simp [Reading.next, hc, hplaces])
      | succ n => exact ih (n := n) (by simp [Reading.next, hc, hplaces])

/-- **What a literal denotes.**  The whole half is the number before the first point, of which the
last four digits count; the fraction has the first four digits after it. -/
theorem value_halves {s : List Char} (hs : ∀ c ∈ s, isLiteralChar c = true) :
    (value s).whole.toNat = number (before s) % 65536 ∧
      (value s).fraction.toNat = number (fourPlaces (after s)) := by
  have hread : (s.foldl Reading.next {}).whole = UInt16.ofNat (number (before s)) ∧
      (s.foldl Reading.next {}).fraction = UInt16.ofNat (number (fourPlaces (after s))) := by
    have hlt : ∀ d ∈ before s, d < 16 := fun _ => digitsOf_lt
    have hbefore : (s.takeWhile (· != '.')).foldl Reading.next {} =
        { whole := UInt16.ofNat (number (before s)) } := by
      rw [← map_before hs, foldl_next_whole hlt 0 {} rfl rfl, shiftedIn_eq_number]
    rw [← List.takeWhile_append_dropWhile (p := (· != '.')) (l := s), List.foldl_append,
      List.takeWhile_append_dropWhile, hbefore, after, fourPlaces, ← placed_eq_number]
    rcases (point_cases s).2 with hrest | ⟨u, hrest⟩
    · rw [hrest]
      exact ⟨rfl, rfl⟩
    · -- the point itself has no value
      have hdigits : digitsOf ('.' :: u) = digitsOf u := rfl
      have hlt' : ∀ d ∈ digitsOf u, d < 16 := fun _ => digitsOf_lt
      rw [hrest, hdigits, List.foldl_cons, foldl_next_digitsOf u (n := 4) rfl]
      obtain ⟨hwhole, hfraction⟩ := foldl_next_fraction hlt'
        { whole := UInt16.ofNat (number (before s)), places := some 4 } rfl
      exact ⟨hwhole, hfraction.trans (UInt16.zero_add _)⟩
  have hlt : number (fourPlaces (after s)) < 65536 :=
    number_lt (fourPlaces_lt fun _ => digitsOf_lt) (length_fourPlaces _)
  rw [value, Word.whole_ofHalves, Word.fraction_ofHalves, hread.1, hread.2]
  exact ⟨UInt16.toNat_ofNat', UInt16.toNat_ofNat_of_lt' hlt⟩

/-! ## The shortest spelling -/

/-- Digits that make up four places are, without the zeros at the end, the first digits there
are. -/
theorem prefix_of_fourPlaces {es ds : List Nat} (h : es = fourPlaces ds) :
    (es.reverse.dropWhile (· == 0)).reverse <+: ds := by
  have hdrop : es.reverse.dropWhile (· == 0) = (ds.take 4).reverse.dropWhile (· == 0) := by
    rw [h, fourPlaces, List.rightpad, List.reverse_append, List.reverse_replicate]
    exact List.dropWhile_append_of_pos fun d hd => by simp [List.eq_of_mem_replicate hd]
  rw [hdrop]
  have hsuffix := List.dropWhile_suffix (l := (ds.take 4).reverse) (· == 0)
  rw [← List.reverse_prefix, List.reverse_reverse] at hsuffix
  exact hsuffix.trans (List.take_prefix 4 ds)

/-- Four digits are known from their number. -/
theorem eq_of_number_eq {ds es : List Nat} (hds : ∀ d ∈ ds, d < 16) (hes : ∀ d ∈ es, d < 16)
    (hlength : ds.length = es.length) (h : number ds = number es) : ds = es := by
  have hreverse := Nat.ofDigits_inj_of_len_eq (b := 16) (by omega)
    (by rw [List.length_reverse, List.length_reverse, hlength])
    (fun d hd => hds d (List.mem_reverse.1 hd)) (fun d hd => hes d (List.mem_reverse.1 hd)) h
  exact List.reverse_injective hreverse

theorem number_digits (h : UInt16) : number (digits h) = h.toNat := by
  have hlt : h.toNat < 65536 := h.toNat_lt
  simp only [digits, number_cons, List.length_cons, List.length_nil]
  simp [number]
  omega

/-- **Every spelling of a fraction starts with the digits it is written with.** -/
theorem fractionDigits_prefix {h : UInt16} {ds : List Nat} (hds : ∀ d ∈ ds, d < 16)
    (hnumber : number (fourPlaces ds) = h.toNat) : fractionDigits h <+: ds := by
  refine prefix_of_fourPlaces (eq_of_number_eq (fun _ => digits_lt) (fourPlaces_lt hds) ?_ ?_)
  · rw [length_fourPlaces]
    rfl
  · rw [number_digits, hnumber]

/-- The last four digits of a number are its remainder. -/
theorem number_mod (ds : List Nat) (hds : ∀ d ∈ ds, d < 16) :
    number ds % 65536 = number (fourPlaces ds.reverse).reverse := by
  have hpad : number (fourPlaces ds.reverse).reverse = Nat.ofDigits 16 (ds.reverse.take 4) := by
    rw [number, List.reverse_reverse, fourPlaces, List.rightpad, Nat.ofDigits_append_replicate_zero]
  rw [hpad]
  exact Nat.ofDigits_mod_pow_eq_ofDigits_take 4 (by omega) ds.reverse
    (fun d hd => hds d (List.mem_reverse.1 hd))

/-- **Every spelling of a whole half ends in the digits it is written with.** -/
theorem wholeDigits_suffix {h : UInt16} {ds : List Nat} (hds : ∀ d ∈ ds, d < 16) (hne : ds ≠ [])
    (hnumber : number ds % 65536 = h.toNat) : wholeDigits h <:+ ds := by
  have hdigits : (digits h).reverse = fourPlaces ds.reverse := by
    rw [← List.reverse_reverse (fourPlaces ds.reverse), List.reverse_inj]
    refine eq_of_number_eq (fun _ => digits_lt) ?_ ?_ ?_
    · intro d hd
      exact fourPlaces_lt (fun d' hd' => hds d' (List.mem_reverse.1 hd')) d (List.mem_reverse.1 hd)
    · rw [List.length_reverse, length_fourPlaces]
      rfl
    · rw [number_digits, ← hnumber, number_mod ds hds]
  have hsuffix : (digits h).dropWhile (· == 0) <:+ ds := by
    have hprefix := prefix_of_fourPlaces hdigits
    rwa [List.reverse_reverse, List.reverse_prefix] at hprefix
  unfold wholeDigits
  split
  · -- all digits are zeros, so the last digit of every spelling is one
    rename_i hnil
    obtain ⟨ds, d, rfl⟩ := (List.eq_nil_or_concat ds).resolve_left hne
    have hd : d ∈ digits h := by
      rw [← List.mem_reverse, hdigits]
      simp [fourPlaces, List.rightpad]
    have hzero := List.dropWhile_eq_nil_iff.1 hnil d hd
    rw [eq_of_beq hzero, List.concat_eq_append]
    exact List.suffix_append ds [0]
  · exact hsuffix

/-- Whether a text starts with a digit. -/
def startsWithDigit (s : List Char) : Bool := s.head?.any fun c => (digit? c).isSome

theorem startsWithDigit_chars (w : Word) : startsWithDigit (chars w) = true := by
  obtain ⟨d, ds, hds⟩ := List.exists_cons_of_ne_nil (wholeDigits_ne_nil w.whole)
  have hd : d < 16 := wholeDigits_lt (h := w.whole) (by simp [hds])
  rcases chars_eq w with ⟨-, h⟩ | h
  · simp [startsWithDigit, h, hds, digit?_digitChar d hd]
  · simp [startsWithDigit, h, hds, digit?_digitChar d hd]

theorem before_ne_nil {s : List Char} (h : startsWithDigit s = true) : before s ≠ [] := by
  cases s with
  | nil => cases h
  | cons c s =>
    obtain ⟨d, hd⟩ := Option.isSome_iff_exists.1 (show (digit? c).isSome = true from h)
    have hc : c ≠ '.' := by
      rintro rfl
      cases hd
    simp [before, digitsOf, hc, hd]

/-- A text that has as many digits as characters is made of them. -/
theorem map_digitsOf_of_length {s : List Char} (hs : ∀ c ∈ s, isLiteralChar c = true)
    (hlength : (digitsOf s).length = s.length) : (digitsOf s).map digitChar = s := by
  refine map_digitsOf hs fun hpoint => ?_
  have hsome := List.filterMap_length_eq_length.1 hlength '.' hpoint
  cases hsome

/-- **The written form of a word is its shortest spelling**, and the only one of that length. -/
theorem chars_shortest {s : List Char} (hs : ∀ c ∈ s, isLiteralChar c = true)
    (hdigit : startsWithDigit s = true) :
    (chars (value s)).length ≤ s.length ∧
      (s.length = (chars (value s)).length → s = chars (value s)) := by
  obtain ⟨hwhole, hfraction⟩ := value_halves hs
  have hsuffix : wholeDigits (value s).whole <:+ before s :=
    wholeDigits_suffix (fun _ => digitsOf_lt) (before_ne_nil hdigit) hwhole.symm
  have hprefix : fractionDigits (value s).fraction <+: after s :=
    fractionDigits_prefix (fun _ => digitsOf_lt) hfraction.symm
  have hsplit : s = (before s).map digitChar ++ s.dropWhile (· != '.') := by
    rw [map_before hs, List.takeWhile_append_dropWhile]
  have hlength := congrArg List.length hsplit
  rw [List.length_append, List.length_map] at hlength
  have hbefore := hsuffix.length_le
  unfold chars
  cases hds : fractionDigits (value s).fraction with
  | nil =>
    -- nothing is needed after the digits of the whole half
    simp only [List.map_nil, List.length_map]
    refine ⟨by omega, fun heq => ?_⟩
    have hrest : s.dropWhile (· != '.') = [] := List.eq_nil_of_length_eq_zero (by omega)
    rw [hsuffix.eq_of_length (by omega)]
    rw [hrest, List.append_nil] at hsplit
    exact hsplit
  | cons d ds =>
    -- a digit that is not zero stands after a point
    obtain ⟨u, hu⟩ : ∃ u, s.dropWhile (· != '.') = '.' :: u := by
      refine (point_cases s).2.resolve_left fun hnil => ?_
      rw [after, hnil, hds] at hprefix
      cases List.prefix_nil.1 hprefix
    have hafter : after s = digitsOf u := by
      rw [after, hu]
      rfl
    rw [hds, hafter] at hprefix
    have hdigits := hprefix.length_le
    have hle : (digitsOf u).length ≤ u.length := List.length_filterMap_le ..
    rw [hu, List.length_cons] at hlength
    simp only [List.map_cons, List.length_append, List.length_cons, List.length_map] at hdigits ⊢
    refine ⟨by omega, fun heq => ?_⟩
    have hu_lit : ∀ c ∈ u, isLiteralChar c = true := by
      intro c hc
      refine hs c ((List.dropWhile_suffix (· != '.')).mem ?_)
      rw [hu]
      exact List.mem_cons_of_mem _ hc
    have hmap := map_digitsOf_of_length hu_lit (by omega)
    have hsame : d :: ds = digitsOf u := hprefix.eq_of_length (by rw [List.length_cons]; omega)
    rw [← hsame, List.map_cons] at hmap
    rw [hsuffix.eq_of_length (by omega), hmap, ← hu]
    exact hsplit

/-- **Reading and printing literals.**  A text of literal characters denotes the word whose whole
half is the hexadecimal number before the first point, modulo `65536`, and whose fraction has the
first four digits after it, with zeros for those that are missing.  A word is printed in literal
characters, starts with a digit and is read back; every other spelling that starts with a digit is
longer. -/
theorem literals_are_shortest :
    (∀ s : List Char, (∀ c ∈ s, isLiteralChar c = true) →
      (value s).whole.toNat = number (before s) % 65536 ∧
        (value s).fraction.toNat = number (fourPlaces (after s))) ∧
    ∀ w : Word, text w ≠ "" ∧ (∀ c ∈ (text w).toList, isLiteralChar c = true) ∧
      startsWithDigit (text w).toList = true ∧ value (text w).toList = w ∧
      ∀ s : String, (∀ c ∈ s.toList, isLiteralChar c = true) → startsWithDigit s.toList = true →
        value s.toList = w →
        (text w).length ≤ s.length ∧ (s.length = (text w).length → s = text w) := by
  refine ⟨fun s hs => value_halves hs, fun w => ?_⟩
  have htext : (text w).toList = chars w := String.toList_ofList
  refine ⟨?_, ?_, ?_, ?_, ?_⟩
  · intro hempty
    rw [hempty] at htext
    exact chars_ne_nil w htext.symm
  · rw [htext]
    exact fun c hc => isLiteralChar_of_mem_chars hc
  · rw [htext]
    exact startsWithDigit_chars w
  · rw [htext]
    exact value_chars w
  · intro s hs hdigit hvalue
    have hshortest := chars_shortest hs hdigit
    rw [hvalue, ← htext, String.length_toList, String.length_toList] at hshortest
    exact ⟨hshortest.1, fun heq => String.toList_inj.1 (hshortest.2 heq)⟩

/-- A spelling with a digit too many before the point, one too many after it, and a second point.
It denotes a word that is written with fewer characters. -/
theorem overlong_spelling :
    (value "FACE1.8.00F9".toList).whole.toNat = 0xACE1 ∧
      (value "FACE1.8.00F9".toList).fraction.toNat = 0x800F ∧
      ∃ w, value "FACE1.8.00F9".toList = w ∧ text w = "ACE1.800F" ∧
        (text w).length ≤ "FACE1.8.00F9".length := by
  have hs : ∀ c ∈ "FACE1.8.00F9".toList, isLiteralChar c = true := List.all_eq_true.1 rfl
  obtain ⟨hread, hprint⟩ := literals_are_shortest
  obtain ⟨hwhole, hfraction⟩ := hread "FACE1.8.00F9".toList hs
  refine ⟨hwhole.trans rfl, hfraction.trans rfl, _, rfl, rfl, ?_⟩
  exact ((hprint _).2.2.2.2 "FACE1.8.00F9" hs rfl rfl).1

end Literal
end GlyphMachine
