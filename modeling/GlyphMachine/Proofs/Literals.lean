import GlyphMachine.Literal

/-!
# Literals read back

Reading a literal is a fold over its characters.  On a run of digits before the point the fold is
the value of the digits, on a run after the point each digit is put in its place.

* `foldl_next_whole`, `foldl_next_fraction` — reading a run of digits before and after the point.
* `placed_fractionDigits` — zeros at the end of a fraction may be left out.
* `value_chars` — the written form of a word denotes the word.
-/

namespace GlyphMachine

/-- A word is put together from its halves. -/
theorem Word.ofHalves_whole_fraction (w : Word) :
    Word.ofHalves w.whole.toUInt32 w.fraction.toUInt32 = w := by
  have hbits : (ofHalves w.whole.toUInt32 w.fraction.toUInt32).toBitVec =
      (((w.toBitVec >>> 16).setWidth 16).setWidth 32 <<< 16) |||
        ((w.toBitVec.setWidth 16).setWidth 32 &&& (BitVec.allOnes 16).setWidth 32) := rfl
  apply Int32.toBitVec_inj.1
  rw [hbits]
  apply BitVec.eq_of_getLsbD_eq
  intro i hi
  simp only [BitVec.getLsbD_or, BitVec.getLsbD_and, BitVec.getLsbD_shiftLeft,
    BitVec.getLsbD_setWidth, BitVec.getLsbD_ushiftRight, BitVec.getLsbD_allOnes]
  by_cases h : i < 16
  · simp [h, hi]
  · have h1 : i - 16 < 16 := by omega
    have h2 : i - 16 < 32 := by omega
    have h3 : 16 + (i - 16) = i := by omega
    simp [h, h1, h2, h3, hi]

namespace Literal

/-! ## Digits -/

theorem digit?_digitChar : ∀ d < 16, digit? (digitChar d) = some d := by decide

theorem digits_lt {h : UInt16} {d : Nat} (hd : d ∈ digits h) : d < 16 := by
  have hlt : h.toNat < 65536 := h.toNat_lt
  simp only [digits, List.mem_cons, List.not_mem_nil, or_false] at hd
  omega

theorem wholeDigits_lt {h : UInt16} {d : Nat} (hd : d ∈ wholeDigits h) : d < 16 := by
  unfold wholeDigits at hd
  split at hd
  · rw [List.mem_singleton] at hd
    omega
  · exact digits_lt ((List.dropWhile_suffix _).mem hd)

theorem fractionDigits_lt {h : UInt16} {d : Nat} (hd : d ∈ fractionDigits h) : d < 16 := by
  unfold fractionDigits at hd
  rw [List.mem_reverse] at hd
  exact digits_lt (List.mem_reverse.1 ((List.dropWhile_suffix _).mem hd))

theorem wholeDigits_ne_nil (h : UInt16) : wholeDigits h ≠ [] := by
  unfold wholeDigits
  split
  · simp
  · assumption

/-! ## Before the point -/

/-- The value of digits, most significant first, after what `k` stands for. -/
def shiftedIn (k : Nat) (ds : List Nat) : Nat := ds.foldl (fun k d => k * 16 + d) k

/-- Reading digits before the point shifts them in. -/
theorem foldl_next_whole {ds : List Nat} (hds : ∀ d ∈ ds, d < 16) (k : Nat) (r : Reading)
    (hplaces : r.places = none) (hwhole : r.whole = UInt16.ofNat k) :
    (ds.map digitChar).foldl Reading.next r =
      { r with whole := UInt16.ofNat (shiftedIn k ds) } := by
  induction ds generalizing k r with
  | nil =>
    obtain ⟨whole, fraction, places⟩ := r
    simp only at hwhole
    rw [hwhole]
    rfl
  | cons d ds ih =>
    have hnext : r.next (digitChar d) = { r with whole := UInt16.ofNat (k * 16 + d) } := by
      simp [Reading.next, digit?_digitChar d (hds d List.mem_cons_self), hplaces, hwhole]
    rw [List.map_cons, List.foldl_cons, hnext]
    exact ih (fun d' hd' => hds d' (List.mem_cons_of_mem d hd')) (k * 16 + d)
      { r with whole := UInt16.ofNat (k * 16 + d) } hplaces rfl

/-- Zeros in front change nothing. -/
theorem shiftedIn_dropWhile (ds : List Nat) :
    shiftedIn 0 (ds.dropWhile (· == 0)) = shiftedIn 0 ds := by
  induction ds with
  | nil => rfl
  | cons d ds ih =>
    rw [List.dropWhile_cons]
    split
    · rename_i hd
      rw [ih, eq_of_beq hd]
      rfl
    · rfl

theorem shiftedIn_wholeDigits (h : UInt16) : shiftedIn 0 (wholeDigits h) = h.toNat := by
  have hdigits : shiftedIn 0 (digits h) = h.toNat := by
    have hlt : h.toNat < 65536 := h.toNat_lt
    simp only [shiftedIn, digits, List.foldl_cons, List.foldl_nil]
    omega
  rw [← hdigits, ← shiftedIn_dropWhile (digits h), wholeDigits]
  split
  · rename_i hnil
    rw [hnil]
    rfl
  · rfl

/-! ## After the point -/

/-- The value of fraction digits when `n` places are left. -/
def placed : Nat → List Nat → Nat
  | 0, _ => 0
  | _ + 1, [] => 0
  | n + 1, d :: ds => d <<< (4 * n) + placed n ds

/-- Reading digits after the point puts each in its place. -/
theorem foldl_next_fraction {ds : List Nat} (hds : ∀ d ∈ ds, d < 16) {n : Nat} (r : Reading)
    (hplaces : r.places = some n) :
    ((ds.map digitChar).foldl Reading.next r).whole = r.whole ∧
      ((ds.map digitChar).foldl Reading.next r).fraction =
        r.fraction + UInt16.ofNat (placed n ds) := by
  induction ds generalizing n r with
  | nil => cases n <;> simp [placed]
  | cons d ds ih =>
    have hd := digit?_digitChar d (hds d List.mem_cons_self)
    have ih := fun {n} => ih (fun d' hd' => hds d' (List.mem_cons_of_mem d hd')) (n := n)
    rw [List.map_cons, List.foldl_cons]
    cases n with
    | zero =>
      have hnext : r.next (digitChar d) = r := by simp [Reading.next, hd, hplaces]
      rw [hnext]
      exact ih r hplaces
    | succ n =>
      have hnext : r.next (digitChar d) =
          { r with fraction := r.fraction + UInt16.ofNat (d <<< (4 * n)), places := some n } := by
        simp only [Reading.next, hd, hplaces]
      rw [hnext]
      obtain ⟨hwhole, hfraction⟩ := ih
        { r with fraction := r.fraction + UInt16.ofNat (d <<< (4 * n)), places := some n } rfl
      refine ⟨hwhole, hfraction.trans ?_⟩
      rw [placed, UInt16.ofNat_add, UInt16.add_assoc]

theorem placed_append (n : Nat) (ds es : List Nat) :
    placed n (ds ++ es) = placed n ds + placed (n - ds.length) es := by
  induction ds generalizing n with
  | nil => cases n <;> simp [placed]
  | cons d ds ih =>
    cases n with
    | zero => simp [placed]
    | succ n =>
      rw [List.cons_append, placed, placed, ih, List.length_cons, Nat.add_sub_add_right]
      omega

theorem placed_zeros {ds : List Nat} (hds : ∀ d ∈ ds, d = 0) (n : Nat) : placed n ds = 0 := by
  induction ds generalizing n with
  | nil => cases n <;> rfl
  | cons d ds ih =>
    cases n with
    | zero => rfl
    | succ n =>
      rw [placed, hds d List.mem_cons_self, ih fun d' hd' => hds d' (List.mem_cons_of_mem d hd')]
      simp

/-- Zeros at the end may be left out. -/
theorem placed_fractionDigits (h : UInt16) : placed 4 (fractionDigits h) = h.toNat := by
  have hdigits : placed 4 (digits h) = h.toNat := by
    have hlt : h.toNat < 65536 := h.toNat_lt
    simp only [digits, placed, Nat.shiftLeft_eq]
    omega
  have hsplit : digits h =
      fractionDigits h ++ ((digits h).reverse.takeWhile (· == 0)).reverse := by
    rw [fractionDigits, ← List.reverse_append, List.takeWhile_append_dropWhile,
      List.reverse_reverse]
  have hzeros : ∀ d ∈ ((digits h).reverse.takeWhile (· == 0)).reverse, d = 0 := by
    intro d hd
    rw [List.mem_reverse] at hd
    exact eq_of_beq (List.all_eq_true.1 List.all_takeWhile d hd)
  rw [← hdigits, hsplit, placed_append, placed_zeros hzeros, Nat.add_zero]

/-! ## Written words -/

theorem isLiteralChar_digitChar : ∀ d < 16, isLiteralChar (digitChar d) = true := by decide

/-- The characters of a word, with the point and the digits after it named. -/
theorem chars_eq (w : Word) :
    (fractionDigits w.fraction = [] ∧ chars w = (wholeDigits w.whole).map digitChar) ∨
      chars w = (wholeDigits w.whole).map digitChar ++
        '.' :: (fractionDigits w.fraction).map digitChar := by
  unfold chars
  cases fractionDigits w.fraction with
  | nil => exact .inl ⟨rfl, rfl⟩
  | cons d ds => exact .inr rfl

theorem chars_ne_nil (w : Word) : chars w ≠ [] := by
  have hwhole : (wholeDigits w.whole).map digitChar ≠ [] := by
    simpa using wholeDigits_ne_nil w.whole
  rcases chars_eq w with ⟨-, h⟩ | h
  · rwa [h]
  · simp [h]

/-- A word is written in literal characters. -/
theorem isLiteralChar_of_mem_chars {w : Word} {c : Char} (hc : c ∈ chars w) :
    isLiteralChar c = true := by
  have hdigits : ∀ ds : List Nat, (∀ d ∈ ds, d < 16) → c ∈ ds.map digitChar →
      isLiteralChar c = true := by
    intro ds hds hmem
    obtain ⟨d, hd, rfl⟩ := List.mem_map.1 hmem
    exact isLiteralChar_digitChar d (hds d hd)
  rcases chars_eq w with ⟨-, h⟩ | h
  · rw [h] at hc
    exact hdigits _ (fun _ => wholeDigits_lt) hc
  · rw [h, List.mem_append, List.mem_cons] at hc
    rcases hc with hc | rfl | hc
    · exact hdigits _ (fun _ => wholeDigits_lt) hc
    · rfl
    · exact hdigits _ (fun _ => fractionDigits_lt) hc

/-- **A written word denotes the word.** -/
theorem value_chars (w : Word) : value (chars w) = w := by
  -- The state of the reader when it has read the digits before the point.
  have hbefore : ((wholeDigits w.whole).map digitChar).foldl Reading.next {} =
      { whole := w.whole } := by
    rw [foldl_next_whole (fun _ => wholeDigits_lt) 0 {} rfl rfl, shiftedIn_wholeDigits,
      UInt16.ofNat_toNat]
  have hread : ((chars w).foldl Reading.next {}).whole = w.whole ∧
      ((chars w).foldl Reading.next {}).fraction = w.fraction := by
    rcases chars_eq w with ⟨hnil, h⟩ | h
    · have hzero : w.fraction = 0 := by
        apply UInt16.toNat_inj.1
        rw [← placed_fractionDigits, hnil]
        rfl
      rw [h, hbefore, hzero]
      exact ⟨rfl, rfl⟩
    · have hds : ∀ d ∈ fractionDigits w.fraction, d < 16 := fun _ => fractionDigits_lt
      obtain ⟨hwhole, hfraction⟩ :=
        foldl_next_fraction hds { whole := w.whole, places := some 4 } rfl
      rw [h, List.foldl_append, hbefore, List.foldl_cons]
      refine ⟨hwhole, hfraction.trans ?_⟩
      rw [placed_fractionDigits, UInt16.ofNat_toNat, UInt16.zero_add]
  rw [value, hread.1, hread.2, Word.ofHalves_whole_fraction]

end Literal
end GlyphMachine
