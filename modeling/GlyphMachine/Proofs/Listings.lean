import GlyphMachine.Program.Printer
import GlyphMachine.Proofs.Literals

/-!
# Listings lose nothing

A listing is laid out in columns for the eye, but it can be read back: each line ends in a line
end, and the fields of a line are what stands between blanks.  Neither the width of a column nor
the blanks that are cut at the end of a line make a difference to the fields.

* `Text.lines_flatten`, `Text.fields_trimEnd`, `Text.fields_padRight` — lines and fields are found
  again.
* `Instruction.fields_listingLine` — the fields of a line: the address, the name of the operation,
  the literal if there is one, and the target behind an arrow if there is one.
* `Instruction.eq_of_fields` — the fields tell the instruction.
* `Program.listings_lose_nothing` — hence the listing tells the program.
-/

namespace GlyphMachine

/-! ## Lines and fields -/

namespace Text

/-- The lines of a text: what stands before each line end, and what is left after the last one. -/
def lines : List Char → List (List Char)
  | [] => []
  | c :: s =>
    if c = '\n' then [] :: lines s
    else match lines s with
      | [] => [[c]]
      | l :: ls => (c :: l) :: ls

/-- The fields of a line: what stands between blanks. -/
def fields (s : List Char) : List (List Char) := (s.splitOnP (· == ' ')).filter (!·.isEmpty)

/-- The number that a text starts with. -/
def leadingNumber (s : List Char) : Nat := Nat.ofDigitChars 10 (s.takeWhile Char.isDigit) 0

/-- A text without blanks and line ends. -/
def Solid (s : List Char) : Prop := ∀ c ∈ s, c ≠ ' ' ∧ c ≠ '\n'

variable {s t : List Char}

theorem lines_append (hs : '\n' ∉ s) (t : List Char) : lines (s ++ '\n' :: t) = s :: lines t := by
  induction s with
  | nil => simp [lines]
  | cons c s ih =>
    rw [List.mem_cons, not_or] at hs
    rw [List.cons_append, lines, if_neg (Ne.symm hs.1), ih hs.2]

/-- Lines that are put together are found again. -/
theorem lines_flatten {ls : List (List Char)} (hls : ∀ l ∈ ls, '\n' ∉ l) :
    lines (ls.map (· ++ ['\n'])).flatten = ls := by
  induction ls with
  | nil => rfl
  | cons l ls ih =>
    rw [List.map_cons, List.flatten_cons, List.append_assoc, List.singleton_append,
      lines_append (hls l List.mem_cons_self), ih fun l' hl' => hls l' (List.mem_cons_of_mem l hl')]

theorem fields_append_blank (s t : List Char) : fields (s ++ ' ' :: t) = fields s ++ fields t := by
  rw [fields, List.splitOnP_append_cons s t rfl, List.filter_append]
  rfl

theorem fields_blank (s : List Char) : fields (' ' :: s) = fields s := fields_append_blank [] s

theorem fields_append_blanks (s : List Char) (n : Nat) :
    fields (s ++ List.replicate n ' ') = fields s := by
  induction n with
  | zero => rw [List.replicate_zero, List.append_nil]
  | succ n ih =>
    rw [List.replicate_succ', ← List.append_assoc, fields_append_blank, ih]
    exact List.append_nil _

/-- A text without blanks is one field. -/
theorem fields_of_solid (hs : Solid s) (hne : s ≠ []) : fields s = [s] := by
  have hblank : ∀ c ∈ s, (c == ' ') = false := fun c hc => beq_false_of_ne (hs c hc).1
  rw [fields, List.splitOnP_eq_singleton hblank]
  simpa using hne

theorem fields_padRight (width : Nat) (s : List Char) : fields (padRight width s) = fields s :=
  fields_append_blanks s _

/-- A text is what is left when the blanks at its end are cut, and these blanks. -/
theorem eq_trimEnd_append (s : List Char) : ∃ n, s = trimEnd s ++ List.replicate n ' ' := by
  have hblanks : ∀ c ∈ s.reverse.takeWhile (· == ' '), c = ' ' := fun c hc =>
    eq_of_beq (List.all_eq_true.1 List.all_takeWhile c hc)
  refine ⟨(s.reverse.takeWhile (· == ' ')).length, ?_⟩
  calc s = (s.reverse.takeWhile (· == ' ') ++ s.reverse.dropWhile (· == ' ')).reverse := by
        rw [List.takeWhile_append_dropWhile, List.reverse_reverse]
    _ = trimEnd s ++ (s.reverse.takeWhile (· == ' ')).reverse := List.reverse_append
    _ = trimEnd s ++ List.replicate (s.reverse.takeWhile (· == ' ')).length ' ' := by
        rw [← List.reverse_replicate, ← List.eq_replicate_of_mem hblanks]

theorem fields_trimEnd (s : List Char) : fields (trimEnd s) = fields s := by
  obtain ⟨n, hn⟩ := eq_trimEnd_append s
  conv => rhs; rw [hn, fields_append_blanks]

theorem mem_of_mem_trimEnd {c : Char} (h : c ∈ trimEnd s) : c ∈ s := by
  obtain ⟨n, hn⟩ := eq_trimEnd_append s
  rw [hn]
  exact List.mem_append_left _ h

/-- Cutting blanks leaves the digits that a text starts with. -/
theorem takeWhile_trimEnd (s : List Char) :
    (trimEnd s).takeWhile Char.isDigit = s.takeWhile Char.isDigit := by
  obtain ⟨n, hn⟩ := eq_trimEnd_append s
  have hblanks : (List.replicate n ' ').takeWhile Char.isDigit = [] := by
    cases n <;> rfl
  conv => rhs; rw [hn, List.takeWhile_append, hblanks, List.append_nil]
  split
  · rename_i hlength
    exact (List.takeWhile_prefix _).eq_of_length hlength
  · rfl

/-! ## Numbers -/

theorem isDigit_of_mem_decimal {width n : Nat} {c : Char} (hc : c ∈ decimal width n) :
    c.isDigit = true := by
  rcases List.mem_append.1 hc with hc | hc
  · rw [List.eq_of_mem_replicate hc]
    rfl
  · exact Nat.isDigit_of_mem_toDigits (by omega) (by omega) hc

theorem decimal_ne_nil (width n : Nat) : decimal width n ≠ [] := by
  intro h
  have hdigits := (List.append_eq_nil_iff.1 h).2
  have hpos := Nat.length_toDigits_pos (b := 10) (n := n)
  rw [hdigits] at hpos
  cases hpos

theorem solid_decimal (width n : Nat) : Solid (decimal width n) := by
  intro c hc
  have hdigit := isDigit_of_mem_decimal hc
  constructor
  · rintro rfl
    cases hdigit
  · rintro rfl
    cases hdigit

/-- A number is read back. -/
theorem ofDigitChars_decimal (width n : Nat) : Nat.ofDigitChars 10 (decimal width n) 0 = n := by
  rw [decimal, padLeft, Nat.ofDigitChars_append, Nat.ofDigitChars_replicate_zero, Nat.mul_zero,
    Nat.ofDigitChars_toDigits (by omega) (by omega)]

theorem decimal_injective {width n k : Nat} (h : decimal width n = decimal width k) : n = k := by
  rw [← ofDigitChars_decimal width n, h, ofDigitChars_decimal]

end Text

/-! ## Names of operations -/

namespace Opcode

/-- All opcodes. -/
def all : List Opcode :=
  [add, sub, mul, div, mod, bitAnd, bitOr, bitXor, bitNot, shift, rotate, sine, root, angle,
    negativePart, positivePart, zeroTest, dup, pop, exchange, rotateUp, rotateDown, pick, bury,
    load, store, fromControl, toControl, index, outerIndex, begin, loopWhile, times, loop, branch,
    otherwise, endBranch, define, ret, call, jump, context, mediaSwitch, terminate]

theorem mem_all (code : Opcode) : code ∈ all := by cases code <;> decide

/-- The opcode with the given name in listings. -/
def ofMnemonic? (s : String) : Option Opcode := all.find? fun code => code.mnemonic = s

theorem ofMnemonic?_mnemonic (code : Opcode) : ofMnemonic? code.mnemonic = some code := by
  have hall : ∀ code ∈ all, ofMnemonic? code.mnemonic = some code := by decide +kernel
  exact hall code (mem_all code)

end Opcode

namespace Instruction

open Text

variable {i j : Instruction} {addr : Nat}

/-- The name in a listing tells the operation. -/
theorem ofMnemonic?_mnemonic (i : Instruction) : Opcode.ofMnemonic? i.mnemonic = i.opcode? := by
  unfold mnemonic
  split
  · rename_i code hcode
    rw [hcode, Opcode.ofMnemonic?_mnemonic]
  · rename_i hcode
    rw [hcode]
    decide +kernel

theorem solid_mnemonic (i : Instruction) : Solid i.mnemonic.toList ∧ i.mnemonic.toList ≠ [] := by
  cases i with
  | push w => simp [mnemonic, opcode?, Solid]
  | op code literal target =>
    cases code <;> simp [mnemonic, opcode?, Opcode.mnemonic, Solid]

theorem solid_chars (w : Word) : Solid (Literal.chars w) := by
  intro c hc
  have hlit := Literal.isLiteralChar_of_mem_chars hc
  constructor
  · rintro rfl
    cases hlit
  · rintro rfl
    cases hlit

/-! ## Lines of a listing -/

/-- **The fields of a line**: the address, the name, the literal and the target. -/
theorem fields_listingLine (addr : Nat) (i : Instruction) :
    fields (i.listingLine addr) =
      decimal 4 addr :: i.mnemonic.toList :: ((i.literal?.map Literal.chars).toList ++
        i.target?.elim [] fun target => [['-', '>'], decimal 4 target]) := by
  have hmnemonic := fields_of_solid (solid_mnemonic i).1 (solid_mnemonic i).2
  have hdecimal : ∀ n, fields (decimal 4 n) = [decimal 4 n] := fun n =>
    fields_of_solid (solid_decimal 4 n) (decimal_ne_nil 4 n)
  have hliteral : fields (i.literal?.elim [] Literal.chars) =
      (i.literal?.map Literal.chars).toList := by
    cases i.literal? with
    | none => rfl
    | some w => exact fields_of_solid (solid_chars w) (Literal.chars_ne_nil w)
  rw [listingLine, fields_trimEnd]
  cases i.target? with
  | none =>
    simp only [List.append_nil, List.append_assoc, List.cons_append, List.nil_append,
      fields_append_blank, fields_blank, fields_padRight, hdecimal, hmnemonic, hliteral,
      Option.elim_none]
  | some target =>
    have harrow : fields ('-' :: '>' :: ' ' :: decimal 4 target) =
        [['-', '>'], decimal 4 target] := by
      refine (fields_append_blank ['-', '>'] (decimal 4 target)).trans ?_
      rw [hdecimal]
      rfl
    simp only [List.append_assoc, List.cons_append, List.nil_append, fields_append_blank,
      fields_blank, fields_padRight, hdecimal, hmnemonic, hliteral, harrow, Option.elim_some]

theorem eq_of_parts (hcode : i.opcode? = j.opcode?) (hliteral : i.literal? = j.literal?)
    (htarget : i.target? = j.target?) : i = j := by
  cases i with
  | push w =>
    cases j with
    | push w' => rw [Option.some.inj hliteral]
    | op code' literal' target' => cases hcode
  | op code literal target =>
    cases j with
    | push w' => cases hcode
    | op code' literal' target' =>
      cases hcode
      cases hliteral
      cases htarget
      rfl

/-- **The fields of a line tell the instruction.** -/
theorem eq_of_fields (h : fields (i.listingLine addr) = fields (j.listingLine addr)) : i = j := by
  rw [fields_listingLine, fields_listingLine] at h
  obtain ⟨hname, hrest⟩ := List.cons.inj (List.cons.inj h).2
  have hcode : i.opcode? = j.opcode? := by
    rw [← ofMnemonic?_mnemonic, ← ofMnemonic?_mnemonic, String.toList_inj.1 hname]
  have hword : ∀ {v w : Word}, Literal.chars v = Literal.chars w → v = w := by
    intro v w hvw
    rw [← Literal.value_chars v, hvw, Literal.value_chars]
  -- a literal is one field and a target two, so their number tells which of them are there
  have hparts : i.literal? = j.literal? ∧ i.target? = j.target? := by
    cases hl : i.literal? <;> cases hl' : j.literal? <;> cases ht : i.target? <;>
      cases ht' : j.target? <;> simp [hl, hl', ht, ht'] at hrest ⊢
    · exact decimal_injective hrest
    · exact hword hrest
    · exact ⟨hword hrest.1, decimal_injective hrest.2⟩
  exact eq_of_parts hcode hparts.1 hparts.2

theorem newline_not_mem_listingLine (addr : Nat) (i : Instruction) :
    '\n' ∉ i.listingLine addr := by
  have hsolid : ∀ {s : List Char}, Solid s → '\n' ∉ s := fun hs hmem => (hs _ hmem).2 rfl
  have hpad : ∀ width (s : List Char), Solid s → '\n' ∉ padRight width s := by
    intro width s hs hmem
    rcases List.mem_append.1 hmem with hmem | hmem
    · exact hsolid hs hmem
    · cases List.eq_of_mem_replicate hmem
  have hliteral : Solid (i.literal?.elim [] Literal.chars) := by
    cases i.literal? with
    | none => exact fun c hc => absurd hc List.not_mem_nil
    | some w => exact solid_chars w
  intro hmem
  rw [listingLine] at hmem
  replace hmem := mem_of_mem_trimEnd hmem
  cases ht : i.target? <;>
    simp [ht, hsolid (solid_decimal 4 _), hpad 12 _ (solid_mnemonic i).1, hpad 9 _ hliteral] at hmem

/-- A line starts with its address. -/
theorem takeWhile_listingLine (addr : Nat) (i : Instruction) :
    (i.listingLine addr).takeWhile Char.isDigit = decimal 4 addr := by
  rw [listingLine, takeWhile_trimEnd]
  simp only [List.append_assoc, List.cons_append]
  rw [List.takeWhile_append_of_pos fun c hc => isDigit_of_mem_decimal hc,
    List.takeWhile_cons_of_neg (by decide), List.append_nil]

end Instruction

namespace Program

open Text

theorem lines_listing (p : Program) :
    lines p.listing.toList = p.mapIdx fun addr i => i.listingLine addr := by
  have hlisting : p.listing.toList =
      ((p.mapIdx fun addr i => i.listingLine addr).map (· ++ ['\n'])).flatten := by
    rw [listing, String.toList_ofList]
    congr 1
    exact List.ext_getElem (by simp) (by simp)
  rw [hlisting, lines_flatten]
  intro l hl
  obtain ⟨k, hk, rfl⟩ := List.mem_mapIdx.1 hl
  exact Instruction.newline_not_mem_listingLine k _

/-- **Listings lose nothing.**  Two programs with the same listing are the same, whatever their
instructions are; and a listing has one line for each instruction, which starts with the address
of that instruction. -/
theorem listings_lose_nothing (p : Program) :
    (∀ q : Program, p.listing = q.listing ↔ p = q) ∧
      (lines p.listing.toList).length = p.length ∧
      (lines p.listing.toList).map (·.takeWhile Char.isDigit) =
        (List.range p.length).map (decimal 4) ∧
      (lines p.listing.toList).map leadingNumber = List.range p.length := by
  have haddresses : (lines p.listing.toList).map (·.takeWhile Char.isDigit) =
      (List.range p.length).map (decimal 4) := by
    rw [lines_listing]
    apply List.ext_getElem
    · simp
    · intro k hk hk'
      simp [Instruction.takeWhile_listingLine]
  refine ⟨fun q => ⟨fun h => ?_, fun h => congrArg listing h⟩, ?_, haddresses, ?_⟩
  · have hlines : (p.mapIdx fun addr i => i.listingLine addr) =
        q.mapIdx fun addr i => i.listingLine addr := by
      rw [← lines_listing, ← lines_listing, h]
    have hlength : p.length = q.length := by simpa using congrArg List.length hlines
    apply List.ext_getElem hlength
    intro k hk hk'
    have hline := congrArg (·[k]?) hlines
    simp only [List.getElem?_mapIdx, List.getElem?_eq_getElem hk, List.getElem?_eq_getElem hk',
      Option.map_some] at hline
    exact Instruction.eq_of_fields (congrArg fields (Option.some.inj hline))
  · rw [lines_listing, List.length_mapIdx]
  · have hread := congrArg (List.map fun ds => Nat.ofDigitChars 10 ds 0) haddresses
    rw [List.map_map, List.map_map] at hread
    refine hread.trans ?_
    simp [Function.comp_def, ofDigitChars_decimal]

end Program
end GlyphMachine
