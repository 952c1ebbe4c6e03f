import Mathlib
import GlyphMachine.Proofs.CheckedStacks

/-!
# Fixed-point arithmetic

Products and quotients of words are computed in 64 bits, truncated toward zero and then wrapped.
Read as integers, they lose nothing before they wrap.

* `Within` — between zero and a number; truncated division cuts a number into two such parts.
* `Checked.times?`, `Checked.over?` — 64-bit arithmetic that gives nothing instead of overflowing.
* `product?_eq`, `quotient?_eq`, `remainder?_eq` — on words it always gives what is computed without
  checks.
* `toInt_product`, `toInt_quotient` — the exact results, wrapped.
* `eq_tmod_iff` — what singles out the remainder.
* `sub_quotient_mul` — dividing and multiplying again: what is lost twice has the sign of the
  dividend.
* `arithmetic_is_exact` — all of this about words.
-/

namespace GlyphMachine

/-! ## Truncated division -/

namespace Truncation

variable {a b c r : Int}

/-- The number lies between zero and `a`. -/
def Within (a r : Int) : Prop := 0 ≤ r ∧ r ≤ a ∨ a ≤ r ∧ r ≤ 0

theorem Within.trans (h : Within b c) (h' : Within a b) : Within a c := by
  unfold Within at *
  omega

/-- What is left of `a` lies there too. -/
theorem Within.compl (h : Within a r) : Within a (a - r) := by
  unfold Within at *
  omega

/-- Such a number is zero or has the sign of `a`. -/
theorem Within.sign (h : Within a r) : r = 0 ∨ r.sign = a.sign := by
  rcases Int.lt_trichotomy r 0 with hr | hr | hr
  · have ha : a < 0 := by unfold Within at h; omega
    exact .inr (by rw [Int.sign_eq_neg_one_of_neg hr, Int.sign_eq_neg_one_of_neg ha])
  · exact .inl hr
  · have ha : 0 < a := by unfold Within at h; omega
    exact .inr (by rw [Int.sign_eq_one_of_pos hr, Int.sign_eq_one_of_pos ha])

theorem within_tmod (a b : Int) : Within a (a.tmod b) := by
  have hle : (a.tmod b).natAbs ≤ a.natAbs := by
    rw [Int.natAbs_tmod]
    exact Nat.mod_le _ _
  unfold Within
  rcases Int.le_total 0 a with ha | ha
  · have := Int.tmod_nonneg b ha
    omega
  · have := Int.tmod_nonneg b (Int.neg_nonneg_of_nonpos ha)
    rw [Int.neg_tmod] at this
    omega

theorem within_mul_tdiv (a b : Int) : Within a (b * a.tdiv b) := by
  have hsplit := Int.tmod_add_mul_tdiv a b
  have hrest := within_tmod a b
  unfold Within at *
  omega

theorem natAbs_tmod_lt (a : Int) (hb : b ≠ 0) : (a.tmod b).natAbs < b.natAbs := by
  rw [Int.natAbs_tmod]
  exact Nat.mod_lt _ (Int.natAbs_pos.2 hb)

/-- **The remainder is the only number** below the divisor, of the sign of the dividend or zero,
that differs from the dividend by a multiple of the divisor. -/
theorem eq_tmod_iff (hb : b ≠ 0) :
    r = a.tmod b ↔ r.natAbs < b.natAbs ∧ (r = 0 ∨ r.sign = a.sign) ∧ b ∣ a - r := by
  have hdvd : b ∣ a - a.tmod b := ⟨a.tdiv b, by have := Int.tmod_add_mul_tdiv a b; omega⟩
  have hlt := natAbs_tmod_lt a hb
  constructor
  · rintro rfl
    exact ⟨hlt, (within_tmod a b).sign, hdvd⟩
  · rintro ⟨hr, hsign, hdvd'⟩
    have hdiff : b ∣ r - a.tmod b := by
      have := Int.dvd_sub hdvd hdvd'
      rwa [show a - a.tmod b - (a - r) = r - a.tmod b by ring] at this
    -- both lie on the same side of zero, so they are less than one divisor apart
    have hnear : (r - a.tmod b).natAbs < b.natAbs := by
      have hside : 0 ≤ a ∧ 0 ≤ r ∨ a ≤ 0 ∧ r ≤ 0 := by
        rcases hsign with rfl | hsign
        · omega
        · rcases Int.lt_trichotomy a 0 with ha | ha | ha
          · rw [Int.sign_eq_neg_one_of_neg ha, Int.sign_eq_neg_one_iff_neg] at hsign
            omega
          · rw [ha, Int.sign_zero, Int.sign_eq_zero_iff_zero] at hsign
            omega
          · rw [Int.sign_eq_one_of_pos ha, Int.sign_eq_one_iff_pos] at hsign
            omega
      have := within_tmod a b
      unfold Within at this
      omega
    have hzero := Int.eq_zero_of_dvd_of_natAbs_lt_natAbs hdiff hnear
    omega

/-- **What division and multiplication lose together.**  Both times something of the sign of `a` is
cut off: less than `b`, and less than the unit. -/
theorem sub_quotient_mul (a : Int) (hb : b ≠ 0) :
    Within a (((a * 65536).tdiv b * b).tdiv 65536) ∧
      (a - ((a * 65536).tdiv b * b).tdiv 65536).natAbs ≤ b.natAbs ⌈/⌉ 65536 := by
  have hquotient := within_mul_tdiv (a * 65536) b
  have hsplit := Int.tmod_add_mul_tdiv (a * 65536) b
  have hrest := within_tmod (a * 65536) b
  have hrest_lt := natAbs_tmod_lt (a * 65536) hb
  rw [Int.mul_comm b] at hquotient hsplit
  -- `n` is what the first cut leaves of `a * 65536`; the second is at the unit
  generalize (a * 65536).tdiv b * b = n at *
  have hproduct := within_mul_tdiv n 65536
  have hsplit' := Int.tmod_add_mul_tdiv n 65536
  have hrest' := (within_tmod n 65536).trans hquotient
  have hrest_lt' := natAbs_tmod_lt n (by decide : (65536 : Int) ≠ 0)
  rw [Nat.ceilDiv_eq_add_pred_div]
  unfold Within at *
  omega

end Truncation

/-! ## Arithmetic with checks -/

namespace Checked

/-- The number in 64 bits, if it fits. -/
def long? (n : Int) : Option Int64 := if IsSigned n then some (Int64.ofInt n) else none

/-- The product, if it fits. -/
def times? (m n : Int64) : Option Int64 := long? (m.toInt * n.toInt)

/-- The quotient, if there is one and it fits. -/
def over? (m n : Int64) : Option Int64 :=
  if n = 0 then none else long? (m.toInt.tdiv n.toInt)

/-- The remainder, if there is one. -/
def rest? (a b : Word) : Option Word :=
  if b = 0 then none else some (Int32.ofInt (a.toInt.tmod b.toInt))

/-- The product of words, if it can be computed. -/
def product? (a b : Word) : Option Word := do
  let n ← times? a.toInt64 b.toInt64
  let q ← over? n 65536
  some q.toInt32

/-- The quotient of words, if it can be computed. -/
def quotient? (a b : Word) : Option Word :=
  if b = 0 then some 0
  else do
    let n ← times? a.toInt64 65536
    let q ← over? n b.toInt64
    some q.toInt32

/-- The remainder of words, if it can be computed. -/
def remainder? (a b : Word) : Option Word := if b = 0 then some 0 else rest? a b

variable {m n : Int64} {a b : Word}

/-- The number has the size of a word. -/
def IsShort (n : Int64) : Prop := n.toInt.natAbs ≤ 2147483648

theorem isShort_toInt64 (a : Word) : IsShort a.toInt64 := by
  have hlow := Int32.le_toInt a
  have hhigh := Int32.toInt_lt a
  rw [IsShort, Int32.toInt_toInt64]
  omega

theorem isShort_unit : IsShort 65536 := by
  unfold IsShort
  decide

/-- The product of two short numbers needs 63 bits. -/
theorem natAbs_mul_le (hm : IsShort m) (hn : IsShort n) :
    (m.toInt * n.toInt).natAbs ≤ 4611686018427387904 := by
  rw [Int.natAbs_mul]
  exact Nat.mul_le_mul hm hn

theorem toInt_mul (hm : IsShort m) (hn : IsShort n) : (m * n).toInt = m.toInt * n.toInt := by
  have hle := natAbs_mul_le hm hn
  rw [Int64.toInt_mul]
  exact Int.bmod_eq_of_le (by omega) (by omega)

/-- Hence it is not the least number, which alone has no negative. -/
theorem mul_ne_minValue (hm : IsShort m) (hn : IsShort n) : m * n ≠ Int64.minValue := by
  intro h
  have hle := natAbs_mul_le hm hn
  rw [← toInt_mul hm hn, h] at hle
  exact absurd hle (by decide)

theorem times?_eq (hm : IsShort m) (hn : IsShort n) : times? m n = some (m * n) := by
  have hle := natAbs_mul_le hm hn
  have hfits : IsSigned (m.toInt * n.toInt) := by
    unfold IsSigned
    omega
  rw [times?, long?, if_pos hfits, Int64.ofInt_mul, Int64.ofInt_toInt, Int64.ofInt_toInt]

theorem over?_eq (hm : m ≠ Int64.minValue) (hn : n ≠ 0) : over? m n = some (m / n) := by
  -- only the least number over minus one would not fit
  have hdiv := Int64.toInt_div_of_ne_left m n hm
  have hfits : IsSigned (m / n).toInt := ⟨Int64.le_toInt _, Int64.toInt_lt _⟩
  rw [over?, if_neg hn, ← hdiv, long?, if_pos hfits, Int64.ofInt_toInt]

theorem toInt64_ne_zero (hb : b ≠ 0) : b.toInt64 ≠ 0 := by
  intro h
  have := congrArg Int64.toInt h
  rw [Int32.toInt_toInt64] at this
  exact hb (Int32.toInt_inj.1 this)

theorem product?_eq (a b : Word) : product? a b = some (a.product b) := by
  have ha := isShort_toInt64 a
  have hb := isShort_toInt64 b
  rw [product?, times?_eq ha hb]
  show (over? (a.toInt64 * b.toInt64) 65536).bind _ = _
  rw [over?_eq (mul_ne_minValue ha hb) (by decide)]
  rfl

theorem quotient?_eq (a b : Word) : quotient? a b = some (a.quotient b) := by
  by_cases hb : b = 0
  · rw [quotient?, Word.quotient, if_pos hb, if_pos hb]
  · have ha := isShort_toInt64 a
    rw [quotient?, Word.quotient, if_neg hb, if_neg hb, times?_eq ha isShort_unit]
    show (over? (a.toInt64 * 65536) b.toInt64).bind _ = _
    rw [over?_eq (mul_ne_minValue ha isShort_unit) (toInt64_ne_zero hb)]
    rfl

theorem remainder?_eq (a b : Word) : remainder? a b = some (a.remainder b) := by
  by_cases hb : b = 0
  · rw [remainder?, Word.remainder, if_pos hb, if_pos hb]
  · rw [remainder?, Word.remainder, rest?, if_neg hb, if_neg hb, if_neg hb, ← Int32.toInt_mod,
      Int32.ofInt_toInt]

end Checked

/-! ## Words -/

namespace Word

open Checked Truncation

variable {a b : Word}

theorem toInt_product (a b : Word) :
    (a.product b).toInt = ((a.toInt * b.toInt).tdiv 65536).bmod (2 ^ 32) := by
  have ha := isShort_toInt64 a
  have hb := isShort_toInt64 b
  rw [product, Int64.toInt_toInt32, Int64.toInt_div_of_ne_left _ _ (mul_ne_minValue ha hb),
    toInt_mul ha hb, Int32.toInt_toInt64, Int32.toInt_toInt64]
  rfl

theorem toInt_quotient (a : Word) (hb : b ≠ 0) :
    (a.quotient b).toInt = ((a.toInt * 65536).tdiv b.toInt).bmod (2 ^ 32) := by
  have ha := isShort_toInt64 a
  rw [quotient, if_neg hb, Int64.toInt_toInt32,
    Int64.toInt_div_of_ne_left _ _ (mul_ne_minValue ha isShort_unit), toInt_mul ha isShort_unit,
    Int32.toInt_toInt64, Int32.toInt_toInt64]
  rfl

theorem toInt_remainder (a : Word) (hb : b ≠ 0) :
    (a.remainder b).toInt = a.toInt.tmod b.toInt := by
  rw [remainder, if_neg hb, Int32.toInt_mod]

theorem toInt_ne_zero (hb : b ≠ 0) : b.toInt ≠ 0 := fun h => hb (Int32.toInt_inj.1 h)

/-- A number between zero and a word is a word. -/
theorem bmod_of_within {n : Int} (h : Within a.toInt n) : n.bmod (2 ^ 32) = n := by
  have hlow := Int32.le_toInt a
  have hhigh := Int32.toInt_lt a
  unfold Within at h
  exact Int.bmod_eq_of_le (by omega) (by omega)

/-- **Fixed-point arithmetic is exact, up to truncation and wrap.**  If every 64-bit result must fit
and every divisor must not be zero, then products, quotients and remainders of words are still
computed.  Products and quotients are the exact ones, truncated toward zero and wrapped, and the
remainder is the one number below the divisor, of the sign of the dividend or zero, that leaves a
multiple of the divisor.  If a quotient fits, then what is lost by multiplying it with the divisor
again is zero or of the sign of the dividend, and at most one unit in the last place for each
begun whole of the divisor. -/
theorem arithmetic_is_exact (a b : Word) :
    (product? a b = some (a.product b) ∧ quotient? a b = some (a.quotient b) ∧
      remainder? a b = some (a.remainder b)) ∧
    (a.product b).toInt = ((a.toInt * b.toInt).tdiv 65536).bmod (2 ^ 32) ∧
    (b ≠ 0 →
      (a.quotient b).toInt = ((a.toInt * 65536).tdiv b.toInt).bmod (2 ^ 32) ∧
      (∀ r : Int, r = (a.remainder b).toInt ↔
        r.natAbs < b.toInt.natAbs ∧ (r = 0 ∨ r.sign = a.toInt.sign) ∧ b.toInt ∣ a.toInt - r) ∧
      (-2 ^ 31 ≤ (a.toInt * 65536).tdiv b.toInt → (a.toInt * 65536).tdiv b.toInt < 2 ^ 31 →
        ∃ lost : Int, lost = a.toInt - ((a.quotient b).product b).toInt ∧
          (a - (a.quotient b).product b).toInt = lost ∧
          (lost = 0 ∨ lost.sign = a.toInt.sign) ∧ lost.natAbs ≤ b.toInt.natAbs ⌈/⌉ 65536)) := by
  refine ⟨⟨product?_eq a b, quotient?_eq a b, remainder?_eq a b⟩, toInt_product a b, fun hb => ?_⟩
  have hb' := toInt_ne_zero hb
  refine ⟨toInt_quotient a hb, fun r => ?_, fun hlow hhigh => ?_⟩
  · rw [toInt_remainder a hb]
    exact eq_tmod_iff hb'
  · obtain ⟨hwithin, hlost⟩ := sub_quotient_mul a.toInt hb'
    have hquotient : (a.quotient b).toInt = (a.toInt * 65536).tdiv b.toInt := by
      rw [toInt_quotient a hb]
      exact Int.bmod_eq_of_le (by omega) (by omega)
    have hproduct : ((a.quotient b).product b).toInt =
        ((a.toInt * 65536).tdiv b.toInt * b.toInt).tdiv 65536 := by
      rw [toInt_product, hquotient, bmod_of_within hwithin]
    rw [← hproduct] at hwithin hlost
    have hrest := hwithin.compl
    exact ⟨_, rfl, by rw [Int32.toInt_sub, bmod_of_within hrest], hrest.sign, hlost⟩

/-- The least word divided by minus one wraps to zero and leaves nothing over.  The greatest
negative word, divided by three times its size and multiplied again, is lost: just what may be
lost. -/
theorem least_word_and_lost_third :
    quotient? Int32.minValue (-1) = some 0 ∧ remainder? Int32.minValue (-1) = some 0 ∧
      (-1 : Word).quotient 3 = -21845 ∧ (-21845 : Word).product 3 = 0 ∧
      ((-1 : Word) - ((-1 : Word).quotient 3).product 3).toInt.natAbs ≤
        (3 : Word).toInt.natAbs ⌈/⌉ 65536 := by
  obtain ⟨-, hquotient, hremainder⟩ := (arithmetic_is_exact Int32.minValue (-1)).1
  obtain ⟨lost, -, hlost, -, hle⟩ :=
    ((arithmetic_is_exact (-1) 3).2.2 (by decide)).2.2 (by decide) (by decide)
  exact ⟨hquotient, hremainder, by decide, by decide, hlost ▸ hle⟩

end Word
end GlyphMachine
