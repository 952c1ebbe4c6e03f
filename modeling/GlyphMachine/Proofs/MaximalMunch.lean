import GlyphMachine.Proofs.RoundTrip

/-!
# Reading in one pass

A text is read in two stages: it is cut into tokens that keep the spans of characters they cover,
and tokens whose spans touch are put together.  Here is the same reading in one pass over the
characters, with no spans: `Program.munch` takes at every character as much as belongs together.

* `Token.text_cases`, `Token.text_induction` — a text is runs of literal characters, opcodes and
  skipped characters.
* `Token.head_of_touching` — a token that starts where a text starts is that of its first character.
* `ofTokens_scanFrom` — hence tokens touch exactly where characters stand next to each other.
* `reading_is_maximal_munch` — the two readings agree, and what the spans of tokens are.
-/

namespace GlyphMachine

/-! ## Texts -/

namespace Token

/-- Whether the token covers the character at `i`. -/
def Covers (t : Token) (i : Nat) : Prop := t.start ≤ i ∧ i < t.stop

/-- A character is literal, an opcode or skipped. -/
theorem char_cases (c : Char) : Literal.isLiteralChar c = true ∨
    (∃ code, Opcode.ofChar? c = some code) ∨ isSkipped c = true := by
  cases hliteral : Literal.isLiteralChar c with
  | true => exact .inl rfl
  | false =>
    cases hcode : Opcode.ofChar? c with
    | some code => exact .inr (.inl ⟨code, rfl⟩)
    | none => exact .inr (.inr (by simp [isSkipped, hliteral, hcode]))

theorem isSkipped_eq_false_of_literal {c : Char} (h : Literal.isLiteralChar c = true) :
    isSkipped c = false := by
  simp [isSkipped, h]

theorem isSkipped_eq_false_of_opcode {c : Char} {code : Opcode} (h : Opcode.ofChar? c = some code) :
    isSkipped c = false := by
  simp [isSkipped, h]

/-- What stands after the longest run of literal characters does not go on with it. -/
theorem head_dropWhile (cs : List Char) :
    ∀ c ∈ (cs.dropWhile Literal.isLiteralChar).head?, Literal.isLiteralChar c = false := by
  intro c hc
  have h := List.head?_dropWhile_not Literal.isLiteralChar cs
  rw [hc] at h
  simpa using h

theorem length_le_of_dropWhile {cs rest : List Char}
    (h : cs.dropWhile Literal.isLiteralChar = rest) : rest.length ≤ cs.length := by
  rw [← h]
  exact (List.dropWhile_suffix Literal.isLiteralChar).length_le

theorem isLiteralChar_of_mem_run {c : Char} (hc : Literal.isLiteralChar c = true) (cs : List Char) :
    ∀ d ∈ c :: cs.takeWhile Literal.isLiteralChar, Literal.isLiteralChar d = true := by
  intro d hd
  rcases List.mem_cons.1 hd with rfl | hd
  · exact hc
  · exact List.all_eq_true.1 List.all_takeWhile d hd

theorem run_append_rest (c : Char) (cs : List Char) :
    (c :: cs.takeWhile Literal.isLiteralChar) ++ cs.dropWhile Literal.isLiteralChar = c :: cs := by
  rw [List.cons_append, List.takeWhile_append_dropWhile]

/-- A text is empty, or begins with the longest run of literal characters that stands there, with an
opcode or with a skipped character. -/
theorem text_cases (text : List Char) : text = [] ∨
    (∃ run rest, text = run ++ rest ∧ run ≠ [] ∧ (∀ c ∈ run, Literal.isLiteralChar c = true) ∧
      ∀ c ∈ rest.head?, Literal.isLiteralChar c = false) ∨
    (∃ c code rest, text = c :: rest ∧ Opcode.ofChar? c = some code) ∨
    ∃ c rest, text = c :: rest ∧ isSkipped c = true := by
  cases text with
  | nil => exact .inl rfl
  | cons c cs =>
    rcases char_cases c with hc | ⟨code, hc⟩ | hc
    · exact .inr (.inl ⟨_, _, (run_append_rest c cs).symm, List.cons_ne_nil _ _,
        isLiteralChar_of_mem_run hc cs, head_dropWhile cs⟩)
    · exact .inr (.inr (.inl ⟨c, code, cs, rfl, hc⟩))
    · exact .inr (.inr (.inr ⟨c, cs, rfl, hc⟩))

/-- **Induction on texts**, from what a text begins with to what stands behind. -/
theorem text_induction {motive : List Char → Prop} (nil : motive [])
    (literal : ∀ run rest, run ≠ [] → (∀ c ∈ run, Literal.isLiteralChar c = true) →
      (∀ c ∈ rest.head?, Literal.isLiteralChar c = false) → motive rest → motive (run ++ rest))
    (opcode : ∀ c code rest, Opcode.ofChar? c = some code → motive rest → motive (c :: rest))
    (skipped : ∀ c rest, isSkipped c = true → motive rest → motive (c :: rest))
    (text : List Char) : motive text := by
  induction hn : text.length using Nat.strongRecOn generalizing text with
  | ind n ih =>
    subst hn
    rcases text_cases text with rfl | ⟨run, rest, rfl, hne, hrun, hrest⟩ |
      ⟨c, code, rest, rfl, hc⟩ | ⟨c, rest, rfl, hc⟩
    · exact nil
    · have hshorter : rest.length < (run ++ rest).length := by
        rw [List.length_append]
        exact Nat.lt_add_of_pos_left (List.length_pos_iff.2 hne)
      exact literal run rest hne hrun hrest (ih _ hshorter rest rfl)
    · exact opcode c code rest hc (ih _ (Nat.lt_succ_self _) rest rfl)
    · exact skipped c rest hc (ih _ (Nat.lt_succ_self _) rest rfl)

/-- The first token of a text that begins with a literal character. -/
theorem scanFrom_literal {c : Char} (hc : Literal.isLiteralChar c = true) (cs : List Char)
    (pos : Nat) :
    ∃ middle, scanFrom pos [] (c :: cs) =
      ⟨.literal (Literal.value (c :: cs.takeWhile Literal.isLiteralChar)), pos, middle⟩ ::
        scanFrom middle [] (cs.dropWhile Literal.isLiteralChar) := by
  have hscan := scanFrom_run (List.cons_ne_nil _ _) (isLiteralChar_of_mem_run hc cs)
    (head_dropWhile cs) pos
  rw [run_append_rest] at hscan
  exact ⟨_, hscan⟩

/-- A token that starts where a text starts is that of its first character. -/
theorem head_of_touching {pos : Nat} {text : List Char} {t : Token}
    (ht : t ∈ (scanFrom pos [] text).head?) (hstart : pos = t.start) :
    ∃ c rest, text = c :: rest ∧
      ((Literal.isLiteralChar c = true ∧ ∃ w, t.lexeme = .literal w) ∨
        ∃ code, Opcode.ofChar? c = some code ∧ t.lexeme = .op code) := by
  rcases text_cases text with rfl | ⟨run, rest, rfl, hne, hrun, hrest⟩ |
    ⟨c, code, rest, rfl, hc⟩ | ⟨c, rest, rfl, hc⟩
  · cases ht
  · rw [scanFrom_run hne hrun hrest] at ht
    cases ht
    obtain ⟨c, run, rfl⟩ := List.exists_cons_of_ne_nil hne
    exact ⟨c, run ++ rest, rfl, .inl ⟨hrun c List.mem_cons_self, _, rfl⟩⟩
  · rw [scanFrom_opcode hc] at ht
    cases ht
    exact ⟨c, rest, rfl, .inr ⟨code, hc, rfl⟩⟩
  · -- behind a skipped character tokens start later
    have hhead : ∀ d ∈ (c :: rest).head?, isSkipped d = true := by
      intro d hd
      cases hd
      exact hc
    have hlt := lt_start_of_skipped hhead (List.mem_of_mem_head? ht)
    omega

/-! ## Spans -/

/-- **Tokens stand one after the other.** -/
theorem pairwise_scanFrom (text : List Char) (pos : Nat) :
    (scanFrom pos [] text).Pairwise fun t u => t.stop ≤ u.start := by
  have hlater : ∀ (pos : Nat) (rest : List Char), ∀ u ∈ scanFrom pos [] rest, pos ≤ u.start := by
    intro pos rest u hu
    exact (bounds_of_mem_scanFrom hu).1
  induction text using text_induction generalizing pos with
  | nil => exact .nil
  | literal run rest hne hrun hrest ih =>
    rw [scanFrom_run hne hrun hrest]
    exact .cons (hlater _ _) (ih _)
  | opcode c code rest hc ih =>
    rw [scanFrom_opcode hc]
    exact .cons (hlater _ _) (ih _)
  | skipped c rest hc ih =>
    rw [scanFrom_skipped hc]
    exact ih _

/-- Every token covers some character. -/
theorem start_lt_stop {text : List Char} {pos : Nat} {t : Token} (ht : t ∈ scanFrom pos [] text) :
    t.start < t.stop := by
  induction text using text_induction generalizing pos with
  | nil => cases ht
  | literal run rest hne hrun hrest ih =>
    rw [scanFrom_run hne hrun hrest] at ht
    rcases List.mem_cons.1 ht with rfl | ht
    · exact Nat.lt_add_of_pos_right (List.length_pos_iff.2 hne)
    · exact ih ht
  | opcode c code rest hc ih =>
    rw [scanFrom_opcode hc] at ht
    rcases List.mem_cons.1 ht with rfl | ht
    · exact Nat.lt_succ_self _
    · exact ih ht
  | skipped c rest hc ih =>
    rw [scanFrom_skipped hc] at ht
    exact ih ht

/-- A text has no more tokens than characters. -/
theorem length_scanFrom_le (text : List Char) (pos : Nat) :
    (scanFrom pos [] text).length ≤ text.length := by
  induction text using text_induction generalizing pos with
  | nil => exact Nat.le_refl _
  | literal run rest hne hrun hrest ih =>
    have hpos := List.length_pos_iff.2 hne
    have := ih (pos + run.length)
    rw [scanFrom_run hne hrun hrest, List.length_cons, List.length_append]
    omega
  | opcode c code rest hc ih =>
    rw [scanFrom_opcode hc]
    exact Nat.succ_le_succ (ih _)
  | skipped c rest hc ih =>
    rw [scanFrom_skipped hc]
    exact Nat.le_succ_of_le (ih _)

/-- **A character is covered by a token exactly when it is not skipped.** -/
theorem covered_iff {text : List Char} {i : Nat} {c : Char} (hc : text[i]? = some c) (pos : Nat) :
    (∃ t ∈ scanFrom pos [] text, t.Covers (pos + i)) ↔ isSkipped c = false := by
  induction text using text_induction generalizing pos i with
  | nil => cases hc
  | literal run rest hne hrun hrest ih =>
    rw [scanFrom_run hne hrun hrest]
    by_cases hi : i < run.length
    · -- inside the run
      rw [List.getElem?_append_left hi] at hc
      have hskip := isSkipped_eq_false_of_literal (hrun c (List.mem_of_getElem? hc))
      refine iff_of_true ⟨_, List.mem_cons_self, ?_⟩ hskip
      simp only [Covers]
      omega
    · obtain ⟨j, rfl⟩ : ∃ j, i = run.length + j := ⟨i - run.length, by omega⟩
      rw [List.getElem?_append_right (by omega), Nat.add_sub_cancel_left] at hc
      have hfirst : ¬ Covers ⟨.literal (Literal.value run), pos, pos + run.length⟩
          (pos + (run.length + j)) := by
        simp only [Covers]
        omega
      rw [← ih hc (pos + run.length), Nat.add_assoc]
      simp [hfirst]
  | opcode d code rest hd ih =>
    rw [scanFrom_opcode hd]
    cases i with
    | zero =>
      cases hc
      refine iff_of_true ⟨_, List.mem_cons_self, ?_⟩ (isSkipped_eq_false_of_opcode hd)
      simp only [Covers]
      omega
    | succ j =>
      have hfirst : ¬ Covers ⟨.op code, pos, pos + 1⟩ (pos + (j + 1)) := by
        simp only [Covers]
        omega
      have hplace : pos + (j + 1) = pos + 1 + j := by omega
      rw [← ih hc (pos + 1), ← hplace]
      simp [hfirst]
  | skipped d rest hd ih =>
    rw [scanFrom_skipped hd]
    cases i with
    | zero =>
      cases hc
      refine iff_of_false ?_ (by simp [hd])
      rintro ⟨t, ht, hcovers⟩
      have hstart := (bounds_of_mem_scanFrom (show t ∈ scanFrom (pos + 1) [] rest from ht)).1
      simp only [Covers, List.length_nil] at hcovers hstart
      omega
    | succ j =>
      have hplace : pos + (j + 1) = pos + 1 + j := by omega
      rw [hplace]
      exact ih hc (pos + 1)

end Token

/-! ## Pairs of tokens -/

theorem Opcode.eq_v_of_ofChar? {c : Char} (h : ofChar? c = some .rotateUp) : c = 'v' := by
  unfold ofChar? at h
  split at h <;> cases h
  rfl

namespace Instruction

/-- Two tokens form one instruction if they touch, and are a literal and an opcode that takes it or
two rotations. -/
theorem ofPair?_cases {t next : Token} {i : Instruction} (h : ofPair? t next = some i) :
    t.stop = next.start ∧
      ((∃ w code, t.lexeme = .literal w ∧ next.lexeme = .op code ∧ code.takesLiteral = true) ∨
        (t.lexeme = .op .rotateUp ∧ next.lexeme = .op .rotateUp)) := by
  unfold ofPair? at h
  split at h
  · rename_i htouches
    refine ⟨by simpa [Token.touches] using htouches, ?_⟩
    split at h
    · rename_i w code hliteral hop
      split at h
      · rename_i htakes
        exact .inl ⟨w, code, hliteral, hop, htakes⟩
      · cases h
    · rename_i hfirst hsecond
      exact .inr ⟨hfirst, hsecond⟩
    · cases h
  · cases h

/-- A token stands alone when the character after it does not go with it. -/
theorem ofTokens_before {t : Token} {text : List Char}
    (hliteral : ∀ w, t.lexeme = .literal w →
      ∀ c ∈ text.head?, (Opcode.ofChar? c).filter Opcode.takesLiteral = none)
    (hrotate : t.lexeme = .op .rotateUp → text.head? ≠ some 'v') :
    ofTokens (t :: Token.scanFrom t.stop [] text) =
      ofToken t :: ofTokens (Token.scanFrom t.stop [] text) := by
  refine ofTokens_alone fun next hnext => ?_
  rw [Option.eq_none_iff_forall_ne_some]
  intro i hi
  obtain ⟨hstop, ⟨w, code, hw, hop, htakes⟩ | ⟨hfirst, hsecond⟩⟩ := ofPair?_cases hi
  · obtain ⟨c, rest, rfl, ⟨-, v, hv⟩ | ⟨code', hcode', hop'⟩⟩ := Token.head_of_touching hnext hstop
    · cases hv.symm.trans hop
    · cases hop'.symm.trans hop
      have hnone := hliteral w hw c rfl
      simp [hcode', htakes] at hnone
  · obtain ⟨c, rest, rfl, ⟨-, v, hv⟩ | ⟨code, hcode, hop⟩⟩ := Token.head_of_touching hnext hstop
    · cases hv.symm.trans hsecond
    · cases hop.symm.trans hsecond
      exact hrotate hfirst (congrArg some (Opcode.eq_v_of_ofChar? hcode))

/-- Tokens are at least as many as instructions. -/
theorem length_ofTokens_le (ts : List Token) : (ofTokens ts).length ≤ ts.length := by
  fun_induction ofTokens ts with
  | case1 => exact Nat.le_refl _
  | case2 t => exact Nat.le_refl _
  | case3 t next rest i hpair ih =>
    simp only [List.length_cons]
    omega
  | case4 t next rest hpair ih =>
    simp only [List.length_cons] at ih ⊢
    omega

end Instruction

/-! ## One pass -/

namespace Program

open Instruction (push plain fused fuse ofTokens ofTokens_before ofTokens_pair ofPair?_literal
  ofPair?_rotateUp)

/-- The instructions of a text, read in one pass.  At a literal character the longest run is taken,
together with the next character if that is an opcode that takes a literal, and sine, root and
complement of the literal are worked out; two `v` next to each other are taken together; any other
opcode stands alone, and everything else is skipped. -/
def munch : List Char → Program
  | [] => []
  | 'v' :: 'v' :: rest => plain .rotateDown :: munch rest
  | c :: cs =>
    if Literal.isLiteralChar c then
      let w := Literal.value (c :: cs.takeWhile Literal.isLiteralChar)
      match h : cs.dropWhile Literal.isLiteralChar with
      | [] => [push w]
      | next :: rest =>
        have : rest.length + 1 ≤ cs.length := Token.length_le_of_dropWhile h
        match (Opcode.ofChar? next).filter Opcode.takesLiteral with
        | some code =>
          (if code = .sine then push w.sine
            else if code = .root then push w.root
            else if code = .bitNot then push (~~~w)
            else fused code w) :: munch rest
        | none => push w :: munch (next :: rest)
    else
      match Opcode.ofChar? c with
      | some code => plain code :: munch cs
      | none => munch cs
termination_by text => text.length

theorem fuse_eq_ite (code : Opcode) (w : Word) :
    fuse code w = if code = .sine then push w.sine else if code = .root then push w.root
      else if code = .bitNot then push (~~~w) else fused code w := by
  cases code <;> rfl

/-- **Tokens touch where characters stand next to each other**: putting tokens together is reading
in one pass. -/
theorem ofTokens_scanFrom (text : List Char) (pos : Nat) :
    ofTokens (Token.scanFrom pos [] text) = munch text := by
  fun_induction munch text generalizing pos with
  | case1 => rfl
  | case2 rest ih =>
    rw [Token.scanFrom_opcode (c := 'v') rfl, Token.scanFrom_opcode (c := 'v') rfl,
      ofTokens_pair (ofPair?_rotateUp _ _ _), ih]
  | case3 c cs hvv hc w h =>
    obtain ⟨middle, hscan⟩ := Token.scanFrom_literal hc cs pos
    rw [hscan, h]
    rfl
  | case4 c cs hvv hc w next rest h _ code hcode ih =>
    obtain ⟨hnext, htakes⟩ := Option.filter_eq_some_iff.1 hcode
    obtain ⟨middle, hscan⟩ := Token.scanFrom_literal hc cs pos
    rw [hscan, h, Token.scanFrom_opcode hnext, ofTokens_pair (ofPair?_literal htakes _ _ _ _), ih,
      fuse_eq_ite]
  | case5 c cs hvv hc w next rest h _ hcode ih =>
    obtain ⟨middle, hscan⟩ := Token.scanFrom_literal hc cs pos
    rw [hscan, h, ofTokens_before, ih]
    · rfl
    · rintro v - d hd
      cases hd
      exact hcode
    · intro hop
      cases hop
  | case6 c cs hvv hc code hcode ih =>
    rw [Token.scanFrom_opcode hcode, ofTokens_before (t := ⟨.op code, pos, pos + 1⟩), ih]
    · rfl
    · intro v hv
      cases hv
    · intro hop hhead
      cases hop
      cases cs with
      | nil => cases hhead
      | cons d ds =>
        cases hhead
        exact hvv ds (Opcode.eq_v_of_ofChar? hcode) rfl
  | case7 c cs hvv hc hcode ih =>
    have hskip : Token.isSkipped c = true := by simp [Token.isSkipped, hc, hcode]
    rw [Token.scanFrom_skipped hskip]
    exact ih _

/-- **Reading is a maximal munch.**  Cutting any text into tokens and putting those together that
touch gives the instructions that one pass over the characters gives.  The spans of the tokens
follow one another inside the text and do not overlap, none is empty, and the characters that no
token covers are those that are neither literal nor opcodes; and there are no more instructions
than characters. -/
theorem reading_is_maximal_munch (text : List Char) :
    ofTokens (Token.scan text) = munch text ∧
      (Token.scan text).Pairwise (fun t u => t.stop ≤ u.start) ∧
      (∀ t ∈ Token.scan text, t.start < t.stop ∧ t.stop ≤ text.length) ∧
      (∀ i c, text[i]? = some c →
        ((∃ t ∈ Token.scan text, t.Covers i) ↔ Token.isSkipped c = false)) ∧
      (ofTokens (Token.scan text)).length ≤ text.length := by
  refine ⟨ofTokens_scanFrom text 0, Token.pairwise_scanFrom text 0, ?_, ?_, ?_⟩
  · intro t ht
    have hbounds := (Token.bounds_of_mem_scanFrom ht).2
    rw [Nat.zero_add] at hbounds
    exact ⟨Token.start_lt_stop ht, hbounds⟩
  · intro i c hc
    have hcovered := Token.covered_iff hc 0
    rwa [Nat.zero_add] at hcovered
  · exact Nat.le_trans (Instruction.length_ofTokens_le _) (Token.length_scanFrom_le text 0)

/-- A literal that two opcodes touch, three rotations in a row, a literal before a rotation and a
character of two bytes that keeps a literal and its opcode apart. -/
theorem greedy_text_is_read :
    ofTokens (Token.scan "3++vvv1v2é+".toList) = munch "3++vvv1v2é+".toList ∧
      (⟨.literal 0x20000, 8, 9⟩ ∈ Token.scan "3++vvv1v2é+".toList ∧ 9 ≤ 11) ∧
      ("3++vvv1v2é+".toList[9]? = some 'é' ∧
        ¬ ∃ t ∈ Token.scan "3++vvv1v2é+".toList, t.Covers 9) := by
  obtain ⟨hmunch, -, hspans, hcovers, -⟩ := reading_is_maximal_munch "3++vvv1v2é+".toList
  have hmem : ⟨.literal 0x20000, 8, 9⟩ ∈ Token.scan "3++vvv1v2é+".toList := by decide
  have hchar : "3++vvv1v2é+".toList[9]? = some 'é' := by decide
  refine ⟨hmunch, ⟨hmem, (hspans _ hmem).2⟩, hchar, ?_⟩
  rw [hcovers 9 'é' hchar]
  decide

end Program
end GlyphMachine
