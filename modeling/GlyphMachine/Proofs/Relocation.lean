import GlyphMachine.Proofs.NearestOpeners
import GlyphMachine.Proofs.RoundTrip

/-!
# Texts are read part by part

A skipped character keeps two texts apart: the text written with it in between denotes the
instructions of the one and then those of the other.  Targets are addresses, so those of the second
part move by the length of the first, as long as the first leaves no opener open.

* `Token.scanFrom_append_skipped`, `Instruction.ofTokens_append` — tokens are found part by part,
  and those of different parts never become one instruction.
* `Token.scanFrom_add`, `Instruction.ofTokens_moved` — nor does it matter where a part stands.
* `Pairing.moved` — the pass over a program that stands further on: `next_moved` is the step and
  `run_moved` the run.
* `resolve_append` — hence programs are resolved part by part.
* `reading_is_compositional` — and texts are read part by part.
-/

namespace GlyphMachine

/-! ## Tokens -/

namespace Token

/-- The token, `d` characters further on. -/
def moved (d : Nat) (t : Token) : Token := ⟨t.lexeme, t.start + d, t.stop + d⟩

theorem touches_moved (d : Nat) (t next : Token) :
    (t.moved d).touches (next.moved d) = t.touches next := by
  rw [Bool.eq_iff_iff]
  simp [touches, moved]

theorem ofRun_add (d : Nat) {pos : Nat} {run : List Char} (hrun : run.length ≤ pos) :
    ofRun (pos + d) run = (ofRun pos run).map (moved d) := by
  unfold ofRun
  split
  · rfl
  · have hstart : pos + d - run.length = pos - run.length + d := by omega
    simp [moved, hstart]

/-- The tokens of a text that stands further on stand further on. -/
theorem scanFrom_add (d : Nat) {pos : Nat} {run : List Char} (hrun : run.length ≤ pos)
    (cs : List Char) : scanFrom (pos + d) run cs = (scanFrom pos run cs).map (moved d) := by
  induction cs generalizing pos run with
  | nil => exact ofRun_add d hrun
  | cons c cs ih =>
    have hnext : pos + d + 1 = pos + 1 + d := by omega
    simp only [scanFrom, hnext]
    split
    · exact ih (by simp; omega)
    · rw [ih (by simp), ofRun_add d hrun]
      split
      · simp [moved]
      · simp

/-- A skipped character parts the tokens before it from those after it. -/
theorem scanFrom_append_skipped {c : Char} (hc : isSkipped c = true) (pos : Nat)
    (run as bs : List Char) :
    scanFrom pos run (as ++ c :: bs) =
      scanFrom pos run as ++ scanFrom (pos + as.length + 1) [] bs := by
  induction as generalizing pos run with
  | nil => exact scanFrom_skipped hc pos run bs
  | cons a as ih =>
    have hlength : pos + (a :: as).length + 1 = pos + 1 + as.length + 1 := by
      rw [List.length_cons]
      omega
    simp only [List.cons_append, scanFrom, hlength]
    split
    · exact ih _ _
    · rw [ih]
      split <;> simp

end Token

namespace Instruction

theorem ofTokens_moved (d : Nat) (ts : List Token) :
    ofTokens (ts.map (Token.moved d)) = ofTokens ts := by
  have hpair : ∀ t next : Token, ofPair? (t.moved d) (next.moved d) = ofPair? t next := by
    intro t next
    unfold ofPair?
    rw [Token.touches_moved]
    rfl
  fun_induction ofTokens ts with
  | case1 => rfl
  | case2 t => rfl
  | case3 t next rest i h ih =>
    rw [List.map_cons, List.map_cons, ofTokens, hpair, h, ih]
  | case4 t next rest h ih =>
    rw [List.map_cons, List.map_cons, ofTokens, hpair, h, ← List.map_cons, ih]
    rfl

/-- Tokens that lie apart never become one instruction. -/
theorem ofTokens_append {ts us : List Token} (h : ∀ t ∈ ts, ∀ u ∈ us, t.stop < u.start) :
    ofTokens (ts ++ us) = ofTokens ts ++ ofTokens us := by
  fun_induction ofTokens ts with
  | case1 => rfl
  | case2 t => exact ofTokens_apart (h t List.mem_cons_self)
  | case3 t next rest i hpair ih =>
    have hrest := ih fun t' ht' => h t' (List.mem_cons_of_mem _ (List.mem_cons_of_mem _ ht'))
    rw [List.cons_append, List.cons_append, ofTokens_pair hpair, hrest]
    rfl
  | case4 t next rest hpair ih =>
    have hrest := ih fun t' ht' => h t' (List.mem_cons_of_mem _ ht')
    rw [List.cons_append, List.cons_append, ofTokens, hpair, ← List.cons_append, hrest]
    rfl

/-- The instruction with its target `d` addresses further on. -/
def relocated (d : Nat) : Instruction → Instruction
  | push w => push w
  | op code literal target => op code literal (target.map (· + d))

theorem relocated_linkedTo {i : Instruction} (hi : i.target? = none) (d : Nat)
    (closer : Option Nat) :
    (i.linkedTo closer).relocated d = i.linkedTo (closer.map (· + d)) := by
  cases i with
  | push w => cases closer <;> rfl
  | op code literal target =>
    have htarget : target = none := hi
    subst htarget
    cases closer <;> rfl

end Instruction

namespace Program

/-! ## Texts before targets are set -/

section Skipped

variable {c : Char} (hc : Token.isSkipped c = true)
include hc

/-- **A skipped character keeps two texts apart.** -/
theorem unresolved_append_skipped (as bs : List Char) :
    unresolved (as ++ c :: bs) = unresolved as ++ unresolved bs := by
  have hmoved : Token.scanFrom (0 + as.length + 1) [] bs =
      (Token.scan bs).map (Token.moved (as.length + 1)) := by
    rw [Nat.add_assoc]
    exact Token.scanFrom_add _ (Nat.le_refl 0) bs
  unfold unresolved Token.scan
  rw [Token.scanFrom_append_skipped hc, Instruction.ofTokens_append, hmoved,
    Instruction.ofTokens_moved]
  · rfl
  · intro t ht u hu
    have hstop := (Token.bounds_of_mem_scanFrom ht).2
    have hstart := (Token.bounds_of_mem_scanFrom hu).1
    rw [List.length_nil] at hstart
    omega

theorem unresolved_cons_skipped (bs : List Char) : unresolved (c :: bs) = unresolved bs :=
  unresolved_append_skipped hc [] bs

end Skipped

section SkippedRun

variable {gap : List Char} (hgap : ∀ c ∈ gap, Token.isSkipped c = true)
include hgap

/-- Skipped characters in front change nothing. -/
theorem unresolved_skip (bs : List Char) : unresolved (gap ++ bs) = unresolved bs := by
  induction gap with
  | nil => rfl
  | cons c gap ih =>
    rw [List.cons_append, unresolved_cons_skipped (hgap c List.mem_cons_self)]
    exact ih fun c' hc' => hgap c' (List.mem_cons_of_mem c hc')

/-- Skipped characters keep two texts apart, however many there are. -/
theorem unresolved_append_run (hne : gap ≠ []) (as bs : List Char) :
    unresolved (as ++ gap ++ bs) = unresolved as ++ unresolved bs := by
  cases gap with
  | nil => exact absurd rfl hne
  | cons c gap =>
    rw [List.append_assoc, List.cons_append,
      unresolved_append_skipped (hgap c List.mem_cons_self),
      unresolved_skip fun c' hc' => hgap c' (List.mem_cons_of_mem c hc')]

/-- Skipped characters at the end change nothing. -/
theorem unresolved_append_skip (as : List Char) : unresolved (as ++ gap) = unresolved as := by
  by_cases hne : gap = []
  · rw [hne, List.append_nil]
  · have h := unresolved_append_run hgap hne as []
    rw [List.append_nil] at h
    rw [h]
    exact List.append_nil _

end SkippedRun

/-! ## The pass over a part that stands further on -/

/-- The half of a conditional, `d` addresses further on. -/
def Waiting.moved (d : Nat) : Waiting → Waiting
  | branch a => branch (a + d)
  | otherwise a => otherwise (a + d)

/-- The link, `d` addresses further on. -/
def Link.moved (d : Nat) (l : Link) : Link := ⟨l.opener + d, l.closer + d⟩

namespace Pairing

variable {p : Program} {s : Pairing} {addr k : Nat}

/-- The state of the pass, `d` addresses further on and with older links. -/
def moved (d : Nat) (older : List Link) (s : Pairing) : Pairing where
  conditionals := s.conditionals.map (Waiting.moved d)
  loops := s.loops.map (· + d)
  counted := s.counted.map (· + d)
  definitions := s.definitions.map (· + d)
  links := s.links.map (Link.moved d) ++ older

theorem address_moved (d : Nat) (half : Waiting) : (half.moved d).address = half.address + d := by
  cases half <;> rfl

theorem isBranch_moved (d : Nat) : Waiting.isBranch ∘ Waiting.moved d = Waiting.isBranch := by
  funext half
  cases half <;> rfl

/-- A step of the pass does not depend on where the program stands. -/
theorem next_moved (d : Nat) (older : List Link) (s : Pairing) (addr : Nat) (i : Instruction) :
    (s.moved d older).next (addr + d) i = (s.next addr i).moved d older := by
  obtain ⟨conditionals, loops, counted, definitions, links⟩ := s
  cases i with
  | push w => rfl
  | op code literal target =>
    cases code with
    | otherwise =>
      simp only [next, Instruction.opcode?, closeBranch, moved, List.find?_map, isBranch_moved]
      cases conditionals.find? Waiting.isBranch with
      | none => rfl
      | some o =>
        simp only [Option.map_some, link, address_moved, List.eraseP_map, isBranch_moved]
        rfl
    | endBranch =>
      cases conditionals with
      | nil => rfl
      | cons o rest =>
        simp only [next, Instruction.opcode?, closeConditional, moved, List.map_cons, link,
          address_moved]
        rfl
    | loopWhile => cases loops <;> rfl
    | loop => cases counted <;> rfl
    | ret => cases definitions <;> rfl
    | _ => rfl

theorem run_moved (d : Nat) (older : List Link) (s : Pairing) (base : Nat) (p : Program) :
    (s.moved d older).run (base + d) p = (s.run base p).moved d older := by
  induction p generalizing s base with
  | nil => rfl
  | cons i p ih =>
    have hbase : base + d + 1 = base + 1 + d := by omega
    rw [run_cons, run_cons, next_moved, hbase, ih]

end Pairing

/-! ## Resolving part by part -/

variable {p q : Program}

/-- Whether every opener of the program has a target. -/
def AllClosed (p : Program) : Prop :=
  ∀ i ∈ p, i.opcode?.any Opcode.isOpener = true → i.target?.isSome = true

instance (p : Program) : Decidable p.AllClosed :=
  inferInstanceAs (Decidable (∀ i ∈ p, i.opcode?.any Opcode.isOpener = true →
    i.target?.isSome = true))

/-- When every opener has found its closer, none waits at the end of the pass. -/
theorem waitingFor_pairing (hp : ∀ i ∈ p, i.target? = none) (hclosed : (resolve p).AllClosed)
    (closer : Opcode) : (pairing p).waitingFor closer = [] := by
  refine List.eq_nil_iff_forall_not_mem.2 fun k hk => ?_
  rw [← pairingUpTo_length] at hk
  obtain ⟨-, ⟨opener, hopener, hcloses, -⟩, hfree⟩ :=
    ((tracks_pairingUpTo (Nat.le_refl _)).mem closer k).1 hk
  rw [← opcodeAt?_resolve] at hopener
  obtain ⟨i, hi, hcode⟩ := Option.bind_eq_some_iff.1 hopener
  have hisOpener : opener.isOpener = true := by
    refine Classical.byContradiction fun hnot => ?_
    rw [Opcode.closes_eq_false (Bool.eq_false_iff.2 hnot)] at hcloses
    cases hcloses
  obtain ⟨t, ht⟩ := Option.isSome_iff_exists.1
    (hclosed i (List.mem_of_getElem? hi) (by simp [hcode, hisOpener]))
  have hlink : ⟨k, t⟩ ∈ (pairing p).links := (targetAt?_resolve hp).1 (by simp [targetAt?, hi, ht])
  rw [← pairingUpTo_length] at hlink
  exact hfree _ hlink rfl

/-- A pass in which nothing waits is one that has not begun, but for its links. -/
theorem eq_moved_empty {s : Pairing} (h : ∀ closer, s.waitingFor closer = []) (d : Nat) :
    s = Pairing.moved d s.links {} := by
  obtain ⟨conditionals, loops, counted, definitions, links⟩ := s
  obtain rfl : conditionals = [] := List.map_eq_nil_iff.1 (h .endBranch)
  obtain rfl : loops = [] := h .loopWhile
  obtain rfl : counted = [] := h .loop
  obtain rfl : definitions = [] := h .ret
  rfl

theorem closerOf?_moved (d : Nat) (links : List Link) (k : Nat) :
    closerOf? (links.map (Link.moved d)) (k + d) = (closerOf? links k).map (· + d) := by
  induction links with
  | nil => rfl
  | cons l links ih =>
    rw [List.map_cons, closerOf?_cons, closerOf?_cons, ih]
    simp only [Link.moved, Nat.add_right_cancel_iff]
    split <;> rfl

/-- **Programs are resolved part by part**, when the first part leaves no opener open. -/
theorem resolve_append (hp : ∀ i ∈ p, i.target? = none) (hq : ∀ i ∈ q, i.target? = none)
    (hclosed : (resolve p).AllClosed) :
    resolve (p ++ q) = resolve p ++ (resolve q).map (Instruction.relocated p.length) := by
  have hlinks : (pairing (p ++ q)).links =
      (pairing q).links.map (Link.moved p.length) ++ (pairing p).links := by
    have hstart := eq_moved_empty (waitingFor_pairing hp hclosed) p.length
    rw [pairing_eq_run] at hstart
    rw [pairing_eq_run (p ++ q), Pairing.run_append, hstart, Pairing.run_moved]
    rfl
  have hopeners : ∀ l ∈ (pairing p).links, l.opener < p.length := by
    intro l hl
    have hbefore := ((Pairing.before_empty 0).run p).links l hl
    omega
  rw [resolve_eq_linkAll, linkAll_append, Nat.zero_add, hlinks]
  congr 1
  · -- links of the second part start behind the first
    apply List.ext_getElem?
    intro k
    rw [getElem?_linkAll, getElem?_resolve, Nat.zero_add]
    cases hk : p[k]? with
    | none => rfl
    | some i =>
      obtain ⟨hlt, -⟩ := List.getElem?_eq_some_iff.1 hk
      have hnone : closerOf? ((pairing q).links.map (Link.moved p.length)) k = none := by
        refine closerOf?_eq_none fun l hl => ?_
        obtain ⟨l₀, -, rfl⟩ := List.mem_map.1 hl
        show l₀.opener + p.length ≠ k
        omega
      rw [closerOf?_append, hnone, Option.none_or]
  · -- and links of the first part start in it
    apply List.ext_getElem?
    intro k
    rw [getElem?_linkAll, List.getElem?_map, getElem?_resolve, Nat.add_comm]
    cases hk : q[k]? with
    | none => rfl
    | some i =>
      have hnone : closerOf? (pairing p).links (k + p.length) = none := by
        refine closerOf?_eq_none fun l hl => ?_
        have := hopeners l hl
        omega
      rw [closerOf?_append, hnone, Option.or_none, closerOf?_moved]
      exact congrArg some
        (Instruction.relocated_linkedTo (hq i (List.mem_of_getElem? hk)) _ _).symm

/-! ## Reading part by part -/

/-- **Reading is compositional up to relocation.**  A skipped character keeps two texts apart: their
instructions, before targets are set, are those of the one and then those of the other.  If every
opener of the first has a target, so are the resolved programs, with the targets of the second
moved by the length of the first.  Hence a run of skipped characters may be replaced by any other,
and skipped characters at either end mean nothing. -/
theorem reading_is_compositional :
    (∀ (a b : String) (c : Char), Token.isSkipped c = true →
      unresolved (a ++ String.singleton c ++ b).toList =
        unresolved a.toList ++ unresolved b.toList) ∧
    (∀ (a b : String) (c : Char), Token.isSkipped c = true → (parse a).AllClosed →
      parse (a ++ String.singleton c ++ b) =
        parse a ++ (parse b).map (Instruction.relocated (parse a).length)) ∧
    (∀ a b gap gap' : String, gap ≠ "" → gap' ≠ "" →
      (∀ c ∈ gap.toList, Token.isSkipped c = true) →
      (∀ c ∈ gap'.toList, Token.isSkipped c = true) →
      parse (a ++ gap ++ b) = parse (a ++ gap' ++ b)) ∧
    (∀ a gap gap' : String, (∀ c ∈ gap.toList, Token.isSkipped c = true) →
      (∀ c ∈ gap'.toList, Token.isSkipped c = true) → parse (gap ++ a ++ gap') = parse a) := by
  have hparts : ∀ (a b : String) (c : Char), Token.isSkipped c = true →
      unresolved (a ++ String.singleton c ++ b).toList =
        unresolved a.toList ++ unresolved b.toList := by
    intro a b c hc
    have hlist : (a ++ String.singleton c ++ b).toList = a.toList ++ c :: b.toList := by simp
    rw [hlist, unresolved_append_skipped hc]
  refine ⟨hparts, ?_, ?_, ?_⟩
  · intro a b c hc hclosed
    have hlength : (parse a).length = (unresolved a.toList).length := length_resolve _
    rw [hlength, parse, hparts a b c hc]
    exact resolve_append (fun _ => target?_of_mem_unresolved) (fun _ => target?_of_mem_unresolved)
      hclosed
  · intro a b gap gap' hne hne' hgap hgap'
    have hrun : ∀ gap : String, gap ≠ "" → (∀ c ∈ gap.toList, Token.isSkipped c = true) →
        parse (a ++ gap ++ b) = resolve (unresolved a.toList ++ unresolved b.toList) := by
      intro gap hne hgap
      rw [parse, String.toList_append, String.toList_append,
        unresolved_append_run hgap (by simpa using hne)]
    rw [hrun gap hne hgap, hrun gap' hne' hgap']
  · intro a gap gap' hgap hgap'
    rw [parse, String.toList_append, String.toList_append, unresolved_append_skip hgap',
      unresolved_skip hgap]
    rfl

/-- A counted loop and, behind a skipped character, a conditional with a stray closer: the targets
of the conditional move by the four instructions of the loop. -/
theorem conditional_behind_loop :
    Token.isSkipped '#' = true ∧ (parse "2X1 3L").AllClosed ∧
      parse ("2X1 3L" ++ String.singleton '#' ++ "?5:6;]") =
        parse "2X1 3L" ++ (parse "?5:6;]").map (Instruction.relocated 4) := by
  have hclosed : (parse "2X1 3L").AllClosed := by decide
  have hlength : (parse "2X1 3L").length = 4 := by decide
  refine ⟨by decide, hclosed, ?_⟩
  rw [← hlength]
  exact reading_is_compositional.2.1 "2X1 3L" "?5:6;]" '#' (by decide) hclosed

end Program
end GlyphMachine
