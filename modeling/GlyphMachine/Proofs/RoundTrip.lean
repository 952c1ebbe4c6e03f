import GlyphMachine.Program.Parse
import GlyphMachine.Program.Printer
import GlyphMachine.Proofs.Links
import GlyphMachine.Proofs.Literals

/-!
# Written programs read back

A program is written with one blank between instructions.  The blank keeps the tokens of two
instructions apart, and inside an instruction tokens touch exactly where they must, so reading
finds the instructions again.

* `Instruction.isWritable` — the instructions that a text can denote before targets are set.
* `Instruction.ofTokens_source` — reading one written instruction, whatever is written after it.
* `unresolved_source` — reading a written list of instructions gives the list.
* `writing_inverts_reading` — which programs can be read, and that each is read back from its text.
-/

namespace GlyphMachine

/-! ## Scanning -/

namespace Token

/-- Literal characters join the run. -/
theorem scanFrom_literalChars {cs : List Char}
    (hcs : ∀ c ∈ cs, Literal.isLiteralChar c = true) (pos : Nat) (run rest : List Char) :
    scanFrom pos run (cs ++ rest) = scanFrom (pos + cs.length) (cs.reverse ++ run) rest := by
  induction cs generalizing pos run with
  | nil => rfl
  | cons c cs ih =>
    rw [List.cons_append, scanFrom, if_pos (hcs c List.mem_cons_self),
      ih fun c' hc' => hcs c' (List.mem_cons_of_mem c hc')]
    simp [Nat.add_comm, Nat.add_left_comm]

/-- Any other character ends the run. -/
theorem scanFrom_endRun {rest : List Char}
    (hrest : ∀ c ∈ rest.head?, Literal.isLiteralChar c = false) (pos : Nat) (run : List Char) :
    scanFrom pos run rest = ofRun pos run ++ scanFrom pos [] rest := by
  cases rest with
  | nil => exact (List.append_nil _).symm
  | cons c rest =>
    have hc : ¬ Literal.isLiteralChar c = true := by simp [hrest c rfl]
    rw [scanFrom, scanFrom, if_neg hc, if_neg hc]
    cases Opcode.ofChar? c <;> rfl

/-- A run of literal characters is one token, unless it goes on. -/
theorem scanFrom_run {run rest : List Char} (hne : run ≠ [])
    (hrun : ∀ c ∈ run, Literal.isLiteralChar c = true)
    (hrest : ∀ c ∈ rest.head?, Literal.isLiteralChar c = false) (pos : Nat) :
    scanFrom pos [] (run ++ rest) =
      ⟨.literal (Literal.value run), pos, pos + run.length⟩ ::
        scanFrom (pos + run.length) [] rest := by
  rw [scanFrom_literalChars hrun, scanFrom_endRun hrest]
  simp [ofRun, hne]

/-- A written word is one token, unless it is written on. -/
theorem scanFrom_chars (w : Word) {rest : List Char}
    (hrest : ∀ c ∈ rest.head?, Literal.isLiteralChar c = false) (pos : Nat) :
    scanFrom pos [] (Literal.chars w ++ rest) =
      ⟨.literal w, pos, pos + (Literal.chars w).length⟩ ::
        scanFrom (pos + (Literal.chars w).length) [] rest := by
  have hscan := scanFrom_run (Literal.chars_ne_nil w) (fun _ => Literal.isLiteralChar_of_mem_chars)
    hrest pos
  rwa [Literal.value_chars] at hscan

/-- An opcode is a token, whatever stands after it. -/
theorem scanFrom_opcode {c : Char} {code : Opcode} (hc : Opcode.ofChar? c = some code) (pos : Nat)
    (rest : List Char) :
    scanFrom pos [] (c :: rest) = ⟨.op code, pos, pos + 1⟩ :: scanFrom (pos + 1) [] rest := by
  rw [scanFrom, if_neg (by simp [Opcode.isLiteralChar_eq_false hc]), hc]
  rfl

/-- A written word and the opcode that touches it. -/
theorem scanFrom_touching (w : Word) {c : Char} {code : Opcode} (hc : Opcode.ofChar? c = some code)
    (pos : Nat) (rest : List Char) :
    scanFrom pos [] (Literal.chars w ++ [c] ++ rest) =
      ⟨.literal w, pos, pos + (Literal.chars w).length⟩ ::
        ⟨.op code, pos + (Literal.chars w).length, pos + (Literal.chars w ++ [c]).length⟩ ::
          scanFrom (pos + (Literal.chars w ++ [c]).length) [] rest := by
  have hnext : ∀ c' ∈ (c :: rest).head?, Literal.isLiteralChar c' = false := by
    intro c' hc'
    cases hc'
    exact Opcode.isLiteralChar_eq_false hc
  rw [List.append_assoc, List.singleton_append, scanFrom_chars w hnext, scanFrom_opcode hc,
    List.length_append, List.length_singleton, Nat.add_assoc]

/-- Whether a character belongs to no token. -/
def isSkipped (c : Char) : Bool := !Literal.isLiteralChar c && (Opcode.ofChar? c).isNone

theorem isLiteralChar_of_isSkipped {c : Char} (hc : isSkipped c = true) :
    Literal.isLiteralChar c = false := by
  simp only [isSkipped, Bool.and_eq_true, Bool.not_eq_true'] at hc
  exact hc.1

/-- A skipped character ends the run, and is no token. -/
theorem scanFrom_skipped {c : Char} (hc : isSkipped c = true) (pos : Nat) (run rest : List Char) :
    scanFrom pos run (c :: rest) = ofRun pos run ++ scanFrom (pos + 1) [] rest := by
  have hcode : Opcode.ofChar? c = none := by
    simp only [isSkipped, Bool.and_eq_true, Option.isNone_iff_eq_none] at hc
    exact hc.2
  rw [scanFrom, if_neg (by simp [isLiteralChar_of_isSkipped hc]), hcode]

theorem bounds_of_mem_ofRun {pos : Nat} {run : List Char} {t : Token} (ht : t ∈ ofRun pos run) :
    t.start = pos - run.length ∧ t.stop = pos := by
  unfold ofRun at ht
  split at ht
  · cases ht
  · cases List.mem_singleton.1 ht
    exact ⟨rfl, rfl⟩

/-- Tokens start no earlier than the run that is being read, and stop inside the text. -/
theorem bounds_of_mem_scanFrom {pos : Nat} {run cs : List Char} {t : Token}
    (ht : t ∈ scanFrom pos run cs) : pos - run.length ≤ t.start ∧ t.stop ≤ pos + cs.length := by
  induction cs generalizing pos run with
  | nil =>
    obtain ⟨hstart, hstop⟩ := bounds_of_mem_ofRun ht
    exact ⟨Nat.le_of_eq hstart.symm, Nat.le_of_eq hstop⟩
  | cons c cs ih =>
    have hbefore : t ∈ ofRun pos run →
        pos - run.length ≤ t.start ∧ t.stop ≤ pos + (cs.length + 1) := by
      intro h
      have := bounds_of_mem_ofRun h
      omega
    have hlater : t ∈ scanFrom (pos + 1) [] cs →
        pos - run.length ≤ t.start ∧ t.stop ≤ pos + (cs.length + 1) := by
      intro h
      have := ih h
      rw [List.length_nil] at this
      omega
    rw [scanFrom] at ht
    rw [List.length_cons]
    split at ht
    · have := ih ht
      rw [List.length_cons] at this
      omega
    · split at ht <;> rcases List.mem_append.1 ht with ht | ht
      · exact hbefore ht
      · rcases List.mem_cons.1 ht with rfl | ht
        · exact ⟨Nat.sub_le _ _, Nat.add_le_add_left (Nat.le_add_left _ _) _⟩
        · exact hlater ht
      · exact hbefore ht
      · exact hlater ht

/-- A skipped character keeps the tokens after it from touching what stands before it. -/
theorem lt_start_of_skipped {pos : Nat} {rest : List Char}
    (hrest : ∀ c ∈ rest.head?, isSkipped c = true) {t : Token}
    (ht : t ∈ scanFrom pos [] rest) : pos < t.start := by
  cases rest with
  | nil => cases ht
  | cons c rest =>
    rw [scanFrom_skipped (hrest c rfl)] at ht
    exact (bounds_of_mem_scanFrom (show t ∈ scanFrom (pos + 1) [] rest from ht)).1

end Token

/-! ## Writable instructions -/

/-- Whether a literal before the opcode is computed with when the text is read. -/
def Opcode.foldsLiteral : Opcode → Bool
  | sine | root | bitNot => true
  | _ => false

/-- Every opcode but the reversed rotation is one character. -/
theorem Opcode.symbol_toList {code : Opcode} (h : code ≠ .rotateDown) :
    ∃ c, code.symbol.toList = [c] ∧ ofChar? c = some code := by
  cases code with
  | rotateDown => exact absurd rfl h
  | _ => exact ⟨_, rfl, rfl⟩

namespace Instruction

/-- Whether a text can denote the instruction before targets are set: a push, a bare operation,
or an operation fused with a literal that it takes and does not compute with. -/
def isWritable : Instruction → Bool
  | push _ => true
  | op _ none none => true
  | op code (some _) none => code.takesLiteral && !code.foldsLiteral
  | op _ _ (some _) => false

theorem fuse_eq_fused {code : Opcode} (h : code.foldsLiteral = false) (w : Word) :
    fuse code w = fused code w := by
  unfold fuse
  split
  · cases h
  · cases h
  · cases h
  · rfl

theorem isWritable_fuse {code : Opcode} (h : code.takesLiteral = true) (w : Word) :
    (fuse code w).isWritable = true := by
  cases hfold : code.foldsLiteral with
  | false =>
    rw [fuse_eq_fused hfold]
    simp [isWritable, h, hfold]
  | true =>
    unfold Opcode.foldsLiteral at hfold
    split at hfold
    · rfl
    · rfl
    · rfl
    · cases hfold

theorem isWritable_ofToken (t : Token) : (ofToken t).isWritable = true := by
  unfold ofToken
  split <;> rfl

theorem isWritable_of_ofPair? {t next : Token} {i : Instruction} (h : ofPair? t next = some i) :
    i.isWritable = true := by
  unfold ofPair? at h
  split at h
  · split at h
    · split at h
      · rename_i htakes
        cases h
        exact isWritable_fuse htakes _
      · cases h
    · cases h
      rfl
    · cases h
  · cases h

/-- Tokens only ever give writable instructions. -/
theorem isWritable_of_mem_ofTokens {ts : List Token} {i : Instruction} (hi : i ∈ ofTokens ts) :
    i.isWritable = true := by
  fun_induction ofTokens ts with
  | case1 => cases hi
  | case2 t =>
    rw [List.mem_singleton.1 hi]
    exact isWritable_ofToken t
  | case3 t next rest j hpair ih =>
    rcases List.mem_cons.1 hi with rfl | hi
    · exact isWritable_of_ofPair? hpair
    · exact ih hi
  | case4 t next rest hpair ih =>
    rcases List.mem_cons.1 hi with rfl | hi
    · exact isWritable_ofToken t
    · exact ih hi

/-! ## Reading instructions back -/

/-- A token that forms no pair with the one after it is an instruction of its own. -/
theorem ofTokens_alone {t : Token} {ts : List Token}
    (h : ∀ next ∈ ts.head?, ofPair? t next = none) :
    ofTokens (t :: ts) = ofToken t :: ofTokens ts := by
  cases ts with
  | nil => rfl
  | cons next ts => rw [ofTokens, h next rfl]

/-- A token that touches nothing after it is an instruction of its own. -/
theorem ofTokens_apart {t : Token} {ts : List Token} (h : ∀ next ∈ ts, t.stop < next.start) :
    ofTokens (t :: ts) = ofToken t :: ofTokens ts := by
  refine ofTokens_alone fun next hnext => ?_
  have hstop : t.touches next = false :=
    beq_false_of_ne (Nat.ne_of_lt (h next (List.mem_of_mem_head? hnext)))
  rw [ofPair?, hstop]
  rfl

theorem ofTokens_pair {t next : Token} {i : Instruction} (h : ofPair? t next = some i)
    (ts : List Token) : ofTokens (t :: next :: ts) = i :: ofTokens ts := by
  rw [ofTokens, h]

/-- A literal and an opcode that takes it, written together, are one instruction. -/
theorem ofPair?_literal {code : Opcode} (h : code.takesLiteral = true) (w : Word)
    (start middle stop : Nat) :
    ofPair? ⟨.literal w, start, middle⟩ ⟨.op code, middle, stop⟩ = some (fuse code w) := by
  simp [ofPair?, Token.touches, h]

/-- Two rotations written together are one instruction. -/
theorem ofPair?_rotateUp (start middle stop : Nat) :
    ofPair? ⟨.op .rotateUp, start, middle⟩ ⟨.op .rotateUp, middle, stop⟩ =
      some (plain .rotateDown) := by
  simp [ofPair?, Token.touches]

section Apart

variable {rest : List Char} (hrest : ∀ c ∈ rest.head?, Token.isSkipped c = true) (pos : Nat)

include hrest

theorem ofTokens_push (w : Word) :
    ofTokens (Token.scanFrom pos [] ((push w).source ++ rest)) =
      push w :: ofTokens (Token.scanFrom (pos + (push w).source.length) [] rest) := by
  have hnext : ∀ c ∈ rest.head?, Literal.isLiteralChar c = false := by
    intro c hc
    exact Token.isLiteralChar_of_isSkipped (hrest c hc)
  rw [source, Token.scanFrom_chars w hnext]
  exact ofTokens_apart fun next hmem => Token.lt_start_of_skipped hrest hmem

theorem ofTokens_plain (code : Opcode) :
    ofTokens (Token.scanFrom pos [] ((plain code).source ++ rest)) =
      plain code :: ofTokens (Token.scanFrom (pos + (plain code).source.length) [] rest) := by
  by_cases hcode : code = .rotateDown
  · subst hcode
    show ofTokens (⟨.op .rotateUp, pos, pos + 1⟩ :: ⟨.op .rotateUp, pos + 1, pos + 1 + 1⟩ ::
      Token.scanFrom (pos + 1 + 1) [] rest) = _
    exact ofTokens_pair (ofPair?_rotateUp _ _ _) _
  · obtain ⟨c, hsymbol, hc⟩ := Opcode.symbol_toList hcode
    have hsource : (plain code).source = [c] := hsymbol
    rw [hsource, List.singleton_append, Token.scanFrom_opcode hc]
    exact ofTokens_apart fun next hmem => Token.lt_start_of_skipped hrest hmem

omit hrest in
/-- An operation with its literal is read whatever stands after it. -/
theorem ofTokens_fused {code : Opcode} (htakes : code.takesLiteral = true)
    (hfolds : code.foldsLiteral = false) (w : Word) :
    ofTokens (Token.scanFrom pos [] ((fused code w).source ++ rest)) =
      fused code w :: ofTokens (Token.scanFrom (pos + (fused code w).source.length) [] rest) := by
  have hcode : code ≠ .rotateDown := by
    rintro rfl
    cases htakes
  obtain ⟨c, hsymbol, hc⟩ := Opcode.symbol_toList hcode
  have hsource : (fused code w).source = Literal.chars w ++ [c] :=
    congrArg (Literal.chars w ++ ·) hsymbol
  rw [hsource, Token.scanFrom_touching w hc, ofTokens_pair (ofPair?_literal htakes w _ _ _),
    fuse_eq_fused hfolds]

/-- Reading one written instruction, when nothing or a skipped character is written after it. -/
theorem ofTokens_source {i : Instruction} (hi : i.isWritable = true) :
    ofTokens (Token.scanFrom pos [] (i.source ++ rest)) =
      i :: ofTokens (Token.scanFrom (pos + i.source.length) [] rest) := by
  match i, hi with
  | push w, _ => exact ofTokens_push hrest pos w
  | op code none none, _ => exact ofTokens_plain hrest pos code
  | op code (some w) none, hi =>
    obtain ⟨htakes, hfolds⟩ : code.takesLiteral = true ∧ code.foldsLiteral = false := by
      simpa [isWritable] using hi
    exact ofTokens_fused pos htakes hfolds w

end Apart

end Instruction

namespace Program

/-- A written list of writable instructions is read back. -/
theorem ofTokens_intercalate {l : Program} (hl : ∀ i ∈ l, i.isWritable = true) (pos : Nat) :
    Instruction.ofTokens (Token.scanFrom pos [] ([' '].intercalate (l.map Instruction.source))) =
      l := by
  induction l generalizing pos with
  | nil => rfl
  | cons i l ih =>
    have hi := hl i List.mem_cons_self
    have hl := fun j hj => hl j (List.mem_cons_of_mem i hj)
    cases l with
    | nil =>
      have hread := Instruction.ofTokens_source (fun c (hc : c ∈ [].head?) => nomatch hc) pos hi
      have hsource : [' '].intercalate ([i].map Instruction.source) = i.source := by
        simp [List.intercalate]
      rw [List.append_nil] at hread
      rw [hsource]
      exact hread
    | cons j l =>
      have hsplit : [' '].intercalate ((i :: j :: l).map Instruction.source) =
          i.source ++ ' ' :: [' '].intercalate ((j :: l).map Instruction.source) := by
        simp [List.intercalate]
      have hblank : ∀ c ∈ (' ' :: [' '].intercalate ((j :: l).map Instruction.source)).head?,
          Token.isSkipped c = true := by
        intro c hc
        cases hc
        rfl
      rw [hsplit, Instruction.ofTokens_source hblank pos hi, Token.scanFrom_skipped rfl]
      exact congrArg (i :: ·) (ih hl _)

/-- The text of a program does not show its targets. -/
theorem source_resolve (l : Program) : source (resolve l) = source l := by
  have hlinked : ∀ (i : Instruction) (closer : Option Nat),
      (i.linkedTo closer).source = i.source := by
    intro i closer
    cases closer with
    | none => rfl
    | some closer => cases i <;> rfl
  have hmap : ∀ (links : List Link) (base : Nat),
      (linkAll links base l).map Instruction.source = l.map Instruction.source := by
    intro links base
    induction l generalizing base with
    | nil => rfl
    | cons i l ih => rw [linkAll_cons, List.map_cons, List.map_cons, hlinked, ih]
  rw [source, source, resolve_eq_linkAll, hmap]

theorem unresolved_source {l : Program} (hl : ∀ i ∈ l, i.isWritable = true) :
    unresolved (source l).toList = l := by
  rw [source, String.toList_ofList]
  exact ofTokens_intercalate hl 0

theorem parse_source_resolve {l : Program} (hl : ∀ i ∈ l, i.isWritable = true) :
    parse (source (resolve l)) = resolve l := by
  rw [parse, source_resolve, unresolved_source hl]

theorem isWritable_unresolved (text : List Char) :
    ∀ i ∈ unresolved text, i.isWritable = true :=
  fun _ => Instruction.isWritable_of_mem_ofTokens

/-- A text sets no targets. -/
theorem target?_of_mem_unresolved {text : List Char} {i : Instruction} (hi : i ∈ unresolved text) :
    i.target? = none := by
  have hwritable := isWritable_unresolved text i hi
  cases i with
  | push w => rfl
  | op code literal target =>
    cases target with
    | none => rfl
    | some last => cases literal <;> cases hwritable

/-- **Writing is a right inverse of reading on exactly the programs that can be read.**  Reading
the text of a program that was read gives the program again; the programs that can be read are the
resolved lists of writable instructions; and each of these is read back from its text. -/
theorem writing_inverts_reading :
    (∀ text : String, parse (source (parse text)) = parse text) ∧
      (∀ p : Program, (∃ text, parse text = p) ↔
        ∃ l : Program, (∀ i ∈ l, i.isWritable = true) ∧ resolve l = p) ∧
      ∀ l : Program, (∀ i ∈ l, i.isWritable = true) →
        parse (source (resolve l)) = resolve l := by
  refine ⟨?_, ?_, fun l hl => parse_source_resolve hl⟩
  · intro text
    exact parse_source_resolve (isWritable_unresolved text.toList)
  · intro p
    constructor
    · rintro ⟨text, rfl⟩
      exact ⟨unresolved text.toList, isWritable_unresolved text.toList, rfl⟩
    · rintro ⟨l, hl, rfl⟩
      exact ⟨source (resolve l), parse_source_resolve hl⟩

/-- Three rotations in a row, of which two are written together, and a counted loop. -/
theorem rotations_in_loop_read_back :
    (∀ i ∈ [.fused .times 196608, .plain .rotateUp, .plain .rotateDown, .push 98304, .plain .loop],
      Instruction.isWritable i = true) ∧
    parse (source (resolve [.fused .times 196608, .plain .rotateUp, .plain .rotateDown,
      .push 98304, .plain .loop])) =
      resolve [.fused .times 196608, .plain .rotateUp, .plain .rotateDown, .push 98304,
        .plain .loop] :=
  ⟨by decide, writing_inverts_reading.2.2 _ (by decide)⟩

end Program
end GlyphMachine
