import GlyphMachine.Proofs.Blocks
import GlyphMachine.Proofs.Relocation
import GlyphMachine.Proofs.Stacks
import GlyphMachine.Proofs.VisibleState

/-!
# Arithmetic expressions

An expression is written operands first.  One tree has many texts, and they are read as different
programs: a literal that touches its operator becomes part of it, or is computed with at once.
None of this shows in the sample.

* `Expr.value` — what an expression denotes, said in the functions on words.
* `Expr.Written`, `Expr.WrittenAs` — the texts of an expression.
* `Reads` — characters that are read as the same instructions wherever they stand.
* `Expr.ReadAs` — the programs of an expression; `parse_of_writtenAs` finds one for every text.
* `Expr.ReadAs.run` — each of them pushes the value, if the operands fit on the stack.
* `expressions_evaluate` — hence every player of such a text shows the value.
-/

namespace GlyphMachine

/-! ## Operators -/

namespace UnaryOp

/-- The written form. -/
def symbol : UnaryOp → Char
  | bitNot => '~'
  | sine => 's'
  | root => 'q'
  | negativePart => '<'
  | positivePart => '>'
  | zeroTest => '='

/-- The opcode that performs the operation. -/
def code : UnaryOp → Opcode
  | bitNot => .bitNot
  | sine => .sine
  | root => .root
  | negativePart => .negativePart
  | positivePart => .positivePart
  | zeroTest => .zeroTest

theorem ofChar?_symbol (f : UnaryOp) : Opcode.ofChar? f.symbol = some f.code := by
  cases f <;> rfl

theorem code_ne_rotateUp (f : UnaryOp) : f.code ≠ .rotateUp := by
  cases f <;> simp [code]

/-- An operator that takes a literal is computed when the text is read. -/
theorem fuse_code {f : UnaryOp} (h : f.code.takesLiteral = true) (w : Word) :
    Instruction.fuse f.code w = .push (f.apply w) := by
  cases f with
  | bitNot | sine | root => rfl
  | negativePart | positivePart | zeroTest => cases h

end UnaryOp

namespace BinaryOp

/-- The written form. -/
def symbol : BinaryOp → Char
  | add => '+'
  | sub => '-'
  | mul => '*'
  | div => '/'
  | mod => '%'
  | bitAnd => '&'
  | bitOr => '|'
  | bitXor => '^'
  | shift => 'l'
  | rotate => 'r'
  | angle => 'a'

/-- The opcode that performs the operation. -/
def code : BinaryOp → Opcode
  | add => .add
  | sub => .sub
  | mul => .mul
  | div => .div
  | mod => .mod
  | bitAnd => .bitAnd
  | bitOr => .bitOr
  | bitXor => .bitXor
  | shift => .shift
  | rotate => .rotate
  | angle => .angle

theorem ofChar?_symbol (f : BinaryOp) : Opcode.ofChar? f.symbol = some f.code := by
  cases f <;> rfl

theorem code_ne_rotateUp (f : BinaryOp) : f.code ≠ .rotateUp := by
  cases f <;> simp [code]

theorem takesLiteral_code (f : BinaryOp) : f.code.takesLiteral = true := by
  cases f <;> rfl

theorem fuse_code (f : BinaryOp) (w : Word) :
    Instruction.fuse f.code w = .fused f.code w := by
  cases f <;> rfl

end BinaryOp

/-! ## Expressions and their texts -/

/-- An arithmetic expression. -/
inductive Expr where
  | literal (w : Word)
  | unary (f : UnaryOp) (e : Expr)
  | binary (f : BinaryOp) (left right : Expr)
deriving DecidableEq

namespace Expr

/-- What an expression denotes.  The angle is that of a vector whose height is the right operand. -/
def value : Expr → Word
  | literal w => w
  | unary .bitNot e => ~~~e.value
  | unary .sine e => Word.sine e.value
  | unary .root e => Word.root e.value
  | unary .negativePart e => Word.negativePart e.value
  | unary .positivePart e => Word.positivePart e.value
  | unary .zeroTest e => Word.zeroTest e.value
  | binary .add l r => l.value + r.value
  | binary .sub l r => l.value - r.value
  | binary .mul l r => Word.product l.value r.value
  | binary .div l r => Word.quotient l.value r.value
  | binary .mod l r => Word.remainder l.value r.value
  | binary .bitAnd l r => l.value &&& r.value
  | binary .bitOr l r => l.value ||| r.value
  | binary .bitXor l r => l.value ^^^ r.value
  | binary .shift l r => Word.shift l.value r.value
  | binary .rotate l r => Word.rotate l.value r.value
  | binary .angle l r => Word.angle r.value l.value

/-- The number of operands that wait at once while an expression is computed. -/
def depth : Expr → Nat
  | literal _ => 1
  | unary _ e => e.depth
  | binary _ l r => max l.depth (r.depth + 1)

/-- Whether the expression is a literal. -/
def isLiteral : Expr → Bool
  | literal _ => true
  | _ => false

/-- The texts of an expression: operands first, with any number of skipped characters before an
operator or an operand, and at least one between two literals. -/
inductive Written : Expr → List Char → Prop where
  | literal (w : Word) : Written (literal w) (Literal.chars w)
  | unary {f : UnaryOp} {e : Expr} {cs gap : List Char} (operand : Written e cs)
      (skipped : ∀ c ∈ gap, Token.isSkipped c = true) :
      Written (unary f e) (cs ++ gap ++ [f.symbol])
  | binary {f : BinaryOp} {l r : Expr} {cs ds gap gap' : List Char} (left : Written l cs)
      (skipped : ∀ c ∈ gap, Token.isSkipped c = true) (apart : l.isLiteral = true → gap ≠ [])
      (right : Written r ds) (skipped' : ∀ c ∈ gap', Token.isSkipped c = true) :
      Written (binary f l r) (cs ++ gap ++ (ds ++ gap' ++ [f.symbol]))

/-- The text is one of the expression, with skipped characters around it. -/
def WrittenAs (e : Expr) (text : String) : Prop :=
  ∃ lead cs trail, text.toList = lead ++ cs ++ trail ∧ e.Written cs ∧
    (∀ c ∈ lead, Token.isSkipped c = true) ∧ ∀ c ∈ trail, Token.isSkipped c = true

variable {e : Expr}

theorem value_unary (f : UnaryOp) (e : Expr) : (unary f e).value = f.apply e.value := by
  cases f <;> rfl

theorem value_binary (f : BinaryOp) (l r : Expr) :
    (binary f l r).value = f.apply l.value r.value := by
  cases f <;> rfl

theorem depth_pos (e : Expr) : 0 < e.depth := by
  induction e with
  | literal w => exact Nat.one_pos
  | unary f e ih => exact ih
  | binary f l r hl hr =>
    unfold depth
    omega

theorem eq_literal (h : e.isLiteral = true) : ∃ w, e = literal w := by
  cases e with
  | literal w => exact ⟨w, rfl⟩
  | unary | binary => cases h

end Expr

/-! ## Reading -/

/-- Only a literal and a rotation look at the token after them. -/
theorem Instruction.ofPair?_operator {code : Opcode} (hcode : code ≠ .rotateUp) (start stop : Nat)
    (next : Token) : ofPair? ⟨.op code, start, stop⟩ next = none := by
  unfold ofPair?
  split
  · simp only
    split
    · rename_i heq _
      cases heq
    · rename_i heq _
      cases heq
      exact absurd rfl hcode
    · rfl
  · rfl

/-- The characters are read as the instructions of `p`, wherever they stand and whatever is written
after them. -/
def Reads (cs : List Char) (p : Program) : Prop :=
  ∀ pos rest, Instruction.ofTokens (Token.scanFrom pos [] (cs ++ rest)) =
    p ++ Instruction.ofTokens (Token.scanFrom (pos + cs.length) [] rest)

namespace Reads

variable {cs ds gap : List Char} {p q : Program} {c : Char} {code : Opcode}

theorem append (hp : Reads cs p) (hq : Reads ds q) : Reads (cs ++ ds) (p ++ q) := by
  intro pos rest
  rw [List.append_assoc, hp, hq, List.append_assoc, List.length_append, Nat.add_assoc]

theorem skip (hgap : ∀ c ∈ gap, Token.isSkipped c = true) : Reads gap [] := by
  induction gap with
  | nil => exact fun pos rest => rfl
  | cons c gap ih =>
    intro pos rest
    have hrest := ih (fun c' hc' => hgap c' (List.mem_cons_of_mem c hc')) (pos + 1) rest
    rw [List.cons_append, Token.scanFrom_skipped (hgap c List.mem_cons_self), List.length_cons,
      Nat.add_comm gap.length, ← Nat.add_assoc]
    exact hrest

theorem operator (hc : Opcode.ofChar? c = some code) (hcode : code ≠ .rotateUp) :
    Reads [c] [.plain code] := by
  intro pos rest
  rw [List.singleton_append, Token.scanFrom_opcode hc]
  cases Token.scanFrom (pos + 1) [] rest with
  | nil => rfl
  | cons next ts =>
    rw [Instruction.ofTokens, Instruction.ofPair?_operator hcode]
    rfl

/-- A literal is a push when skipped characters are written after it. -/
theorem literal_apart (w : Word) (hgap : ∀ c ∈ gap, Token.isSkipped c = true) (hne : gap ≠ []) :
    Reads (Literal.chars w ++ gap) [.push w] := by
  intro pos rest
  have hhead : ∀ c ∈ (gap ++ rest).head?, Token.isSkipped c = true := by
    intro c hc
    cases gap with
    | nil => exact absurd rfl hne
    | cons =>
      cases hc
      exact hgap c List.mem_cons_self
  have hpush := Instruction.ofTokens_push hhead pos w
  rw [skip hgap, List.nil_append, Nat.add_assoc, Instruction.source] at hpush
  rw [List.append_assoc, hpush, List.length_append]
  rfl

section Touching

variable (w : Word) (hc : Opcode.ofChar? c = some code)
include hc

theorem fuse (htakes : code.takesLiteral = true) :
    Reads (Literal.chars w ++ [c]) [Instruction.fuse code w] := by
  intro pos rest
  rw [Token.scanFrom_touching w hc,
    Instruction.ofTokens_pair (Instruction.ofPair?_literal htakes ..)]
  rfl

/-- An operator that takes no literal leaves it alone, even if they touch. -/
theorem push_operator (htakes : code.takesLiteral = false) (hcode : code ≠ .rotateUp) :
    Reads (Literal.chars w ++ [c]) [.push w, .plain code] := by
  intro pos rest
  have hoperator := operator hc hcode (pos + (Literal.chars w).length) rest
  rw [List.singleton_append, Token.scanFrom_opcode hc, List.length_singleton, Nat.add_assoc]
    at hoperator
  rw [Token.scanFrom_touching w hc, Instruction.ofTokens, List.length_append, List.length_singleton]
  simp only [Instruction.ofPair?, htakes, Bool.false_eq_true, if_false, ite_self]
  exact congrArg (Instruction.push w :: ·) hoperator

end Touching

end Reads

/-! ## The programs of an expression -/

namespace Expr

/-- What an instruction of an expression does. -/
inductive Step where
  | push (w : Word)
  | unary (f : UnaryOp)
  | binary (f : BinaryOp)
  | binaryWith (f : BinaryOp) (w : Word)

namespace Step

/-- The instruction that takes the step. -/
def instruction : Step → Instruction
  | push w => .push w
  | unary f => .plain f.code
  | binary f => .plain f.code
  | binaryWith f w => .fused f.code w

/-- The operation that the instruction is lowered to. -/
def op : Step → Op
  | push w => .push w
  | unary f => .unary f
  | binary f => .binary f
  | binaryWith f w => .binaryWith f w

/-- What the step does to the data stack. -/
def run (s : Stack) : Step → Stack
  | push w => s.push w
  | unary f => s.unary f.apply
  | binary f => s.binary f.apply
  | binaryWith f w => s.unary fun v => f.apply v w

theorem lower_instruction (step : Step) (a : Addressing) (addr : Nat) :
    step.instruction.lower a addr = .straight step.op := by
  cases step with
  | push w => rfl
  | unary f => cases f <;> rfl
  | binary f => cases f <;> rfl
  | binaryWith f w => cases f <;> rfl

/-- A step neither opens nor closes anything. -/
theorem next_instruction (step : Step) (s : Program.Pairing) (addr : Nat) :
    s.next addr step.instruction = s := by
  cases step with
  | push w => rfl
  | unary f => cases f <;> rfl
  | binary f => cases f <;> rfl
  | binaryWith f w => cases f <;> rfl

theorem step_op (step : Step) (m : Machine) :
    m.step step.op = { m with data := step.run m.data } := by
  cases step <;> rfl

end Step

/-- The programs that the texts of an expression are read as.  A literal is pushed, unless it
touches an operator that takes it. -/
inductive ReadAs : Expr → List Step → Prop where
  | literal (w : Word) : ReadAs (literal w) [.push w]
  | folded (f : UnaryOp) (w : Word) : ReadAs (unary f (.literal w)) [.push (f.apply w)]
  | unary {f : UnaryOp} {e : Expr} {steps : List Step} (operand : ReadAs e steps) :
      ReadAs (unary f e) (steps ++ [.unary f])
  | fused {f : BinaryOp} {l : Expr} {steps : List Step} (left : ReadAs l steps) (w : Word) :
      ReadAs (binary f l (.literal w)) (steps ++ [.binaryWith f w])
  | binary {f : BinaryOp} {l r : Expr} {steps steps' : List Step} (left : ReadAs l steps)
      (right : ReadAs r steps') : ReadAs (binary f l r) (steps ++ (steps' ++ [.binary f]))

/-- The instructions of a list of steps. -/
def instructions (steps : List Step) : Program := steps.map Step.instruction

variable {e : Expr} {cs gap : List Char}

theorem instructions_append (steps steps' : List Step) :
    instructions (steps ++ steps') = instructions steps ++ instructions steps' :=
  List.map_append

/-- An operand that its operator does not touch, or that is not a literal, stands for itself. -/
theorem exists_readAs_operand
    (hoperator : e.isLiteral = false → ∃ steps, ReadAs e steps ∧ Reads cs (instructions steps))
    (hwritten : Written e cs) (hgap : ∀ c ∈ gap, Token.isSkipped c = true)
    (hapart : e.isLiteral = true → gap ≠ []) :
    ∃ steps, ReadAs e steps ∧ Reads (cs ++ gap) (instructions steps) := by
  cases hliteral : e.isLiteral with
  | false =>
    obtain ⟨steps, hread, hreads⟩ := hoperator hliteral
    refine ⟨steps, hread, ?_⟩
    have h := hreads.append (Reads.skip hgap)
    rwa [List.append_nil] at h
  | true =>
    obtain ⟨w, rfl⟩ := eq_literal hliteral
    cases hwritten
    exact ⟨[.push w], .literal w, Reads.literal_apart w hgap (hapart hliteral)⟩

/-- An operator that touches a literal is computed at once, or follows its push. -/
theorem exists_readAs_touching (f : UnaryOp) (w : Word) :
    ∃ steps, ReadAs (unary f (.literal w)) steps ∧
      Reads (Literal.chars w ++ [f.symbol]) (instructions steps) := by
  cases htakes : f.code.takesLiteral with
  | true =>
    have hfuse := Reads.fuse w f.ofChar?_symbol htakes
    rw [UnaryOp.fuse_code htakes] at hfuse
    exact ⟨_, .folded f w, hfuse⟩
  | false =>
    exact ⟨_, .unary (.literal w),
      Reads.push_operator w f.ofChar?_symbol htakes f.code_ne_rotateUp⟩

/-- **What a text of an expression is read as**, wherever it stands.  A literal by itself may be
written on, so it is left out here. -/
theorem Written.exists_readAs (h : Written e cs) :
    e.isLiteral = false → ∃ steps, ReadAs e steps ∧ Reads cs (instructions steps) := by
  induction h with
  | literal w =>
    intro hliteral
    cases hliteral
  | @unary f e cs gap operand skipped ih =>
    intro _
    by_cases htouch : e.isLiteral = true ∧ gap = []
    · -- the operator touches a literal
      obtain ⟨hliteral, rfl⟩ := htouch
      obtain ⟨w, rfl⟩ := eq_literal hliteral
      cases operand
      rw [List.append_nil]
      exact exists_readAs_touching f w
    · obtain ⟨steps, hread, hreads⟩ := exists_readAs_operand ih operand skipped
        fun hliteral hnil => htouch ⟨hliteral, hnil⟩
      refine ⟨_, .unary hread, ?_⟩
      rw [instructions_append]
      exact hreads.append (Reads.operator f.ofChar?_symbol f.code_ne_rotateUp)
  | @binary f l r cs ds gap gap' left skipped apart right skipped' ihl ihr =>
    intro _
    obtain ⟨steps, hread, hreads⟩ := exists_readAs_operand ihl left skipped apart
    by_cases htouch : r.isLiteral = true ∧ gap' = []
    · -- the literal becomes part of the operator
      obtain ⟨hliteral, rfl⟩ := htouch
      obtain ⟨w, rfl⟩ := eq_literal hliteral
      cases right
      refine ⟨_, .fused hread w, ?_⟩
      rw [instructions_append, List.append_nil]
      have hfuse := Reads.fuse w f.ofChar?_symbol f.takesLiteral_code
      rw [BinaryOp.fuse_code] at hfuse
      exact hreads.append hfuse
    · obtain ⟨steps', hread', hreads'⟩ := exists_readAs_operand ihr right skipped'
        fun hliteral hnil => htouch ⟨hliteral, hnil⟩
      refine ⟨_, .binary hread hread', ?_⟩
      rw [instructions_append, instructions_append]
      exact hreads.append (hreads'.append (Reads.operator f.ofChar?_symbol f.code_ne_rotateUp))

theorem run_instructions (steps : List Step) (s : Program.Pairing) (base : Nat) :
    s.run base (instructions steps) = s := by
  induction steps generalizing base with
  | nil => rfl
  | cons step steps ih =>
    show (s.next base step.instruction).run (base + 1) (instructions steps) = s
    rw [Step.next_instruction, ih]

/-- Nothing in an expression is paired. -/
theorem resolve_instructions (steps : List Step) :
    Program.resolve (instructions steps) = instructions steps := by
  rw [Program.resolve_eq_linkAll, Program.pairing_eq_run, run_instructions]
  exact Program.linkAll_nil_links 0 _

/-- **Every text of an expression denotes one of its programs.** -/
theorem parse_of_writtenAs {text : String} (h : e.WrittenAs text) :
    ∃ steps, ReadAs e steps ∧ Program.parse text = instructions steps := by
  obtain ⟨lead, cs, trail, htext, hwritten, hlead, htrail⟩ := h
  have hcs : Program.unresolved text.toList = Program.unresolved cs := by
    rw [htext, Program.unresolved_append_skip htrail, Program.unresolved_skip hlead]
  have hread : ∃ steps, ReadAs e steps ∧ Program.unresolved cs = instructions steps := by
    cases hliteral : e.isLiteral with
    | false =>
      obtain ⟨steps, hread, hreads⟩ := hwritten.exists_readAs hliteral
      refine ⟨steps, hread, ?_⟩
      have hall := hreads 0 []
      rw [List.append_nil] at hall
      exact hall.trans (List.append_nil _)
    | true =>
      obtain ⟨w, rfl⟩ := eq_literal hliteral
      cases hwritten
      refine ⟨_, .literal w, ?_⟩
      have hall := Instruction.ofTokens_push (fun c (hc : c ∈ [].head?) => nomatch hc) 0 w
      rw [List.append_nil] at hall
      exact hall
  obtain ⟨steps, hread, hsteps⟩ := hread
  refine ⟨steps, hread, ?_⟩
  rw [Program.parse, hcs, hsteps, resolve_instructions]

/-! ## Running -/

/-- **The programs of an expression push its value**, however they came about, if there is room for
the operands. -/
theorem ReadAs.run {steps : List Step} (h : ReadAs e steps) {s : Stack}
    (hroom : s.size + e.depth ≤ s.capacity) : steps.foldl Step.run s = s.push e.value := by
  induction h generalizing s with
  | literal w => rfl
  | folded f w =>
    rw [value_unary]
    rfl
  | @unary f e steps operand ih =>
    have hdepth := e.depth_pos
    unfold depth at hroom
    rw [List.foldl_append, ih hroom, value_unary]
    exact Stack.unary_push (by omega) _
  | @fused f l steps left w ih =>
    have hdepth := l.depth_pos
    unfold depth at hroom
    have hlt : s.size < s.capacity := by omega
    rw [List.foldl_append, ih (by omega), value_binary]
    exact Stack.unary_push hlt fun v => f.apply v w
  | @binary f l r steps steps' left right ihl ihr =>
    -- the left operand waits while the right one is computed
    have hdepth := r.depth_pos
    unfold depth at hroom
    have hroom' : (s.push l.value).size + r.depth ≤ (s.push l.value).capacity := by
      rw [Stack.size_push_of_lt (by omega), Stack.capacity_push]
      omega
    rw [List.foldl_append, ihl (by omega), List.foldl_append, ihr hroom', value_binary]
    exact Stack.binary_push_push (by omega) _

theorem lowered_instructions (steps : List Step) (a : Addressing) :
    (instructions steps).lowered a = steps.map fun step => .straight step.op := by
  apply List.ext_getElem?
  intro k
  unfold Program.lowered instructions
  rw [List.getElem?_mapIdx, List.getElem?_map, List.getElem?_map, Option.map_map]
  cases steps[k]? with
  | none => rfl
  | some step => exact congrArg some (step.lower_instruction a k)

/-- Steps in a row are one block. -/
theorem blockFrom_straight (size : Nat) (steps : List Step) :
    Lowered.blockFrom size (steps.map fun step => .straight step.op) =
      ⟨steps.map Step.op, .goto size⟩ := by
  induction steps with
  | nil => rfl
  | cons step steps ih =>
    rw [List.map_cons, Lowered.blockFrom, ih]
    rfl

theorem steps_op (steps : List Step) (m : Machine) :
    m.steps (steps.map Step.op) = { m with data := steps.foldl Step.run m.data } := by
  induction steps generalizing m with
  | nil => rfl
  | cons step steps ih =>
    show (m.step step.op).steps (steps.map Step.op) = _
    rw [ih, Step.step_op]
    rfl

/-- The program of an expression takes its steps and runs off its end. -/
theorem dispatch_instructions (steps : List Step) (a : Addressing) {fuel : Nat} (hfuel : 2 ≤ fuel)
    (m : Machine) :
    Machine.dispatch ((instructions steps).compile a) fuel 0 m =
      some (.halted .endOfProgram, { m with data := steps.foldl Step.run m.data }) := by
  obtain ⟨fuel, rfl⟩ : ∃ k, fuel = k + 1 + 1 := ⟨fuel - 2, by omega⟩
  have hend : ∀ m, Machine.dispatch ((instructions steps).compile a) (fuel + 1)
      (instructions steps).length m = some (.halted .endOfProgram, m) := by
    intro m
    rw [Machine.dispatch_of_outside (.inr (Int.le_refl _)), Machine.leaveAt, if_pos rfl]
  by_cases hpos : 0 < (instructions steps).length
  · have hblock := Machine.dispatch_of_inside (a := a) hpos (fuel + 1) m
    rw [List.drop_zero, lowered_instructions, blockFrom_straight, Machine.runBlock, steps_op]
      at hblock
    exact hblock.trans (hend _)
  · have hnil : steps = [] := by simpa [instructions] using hpos
    subst hnil
    exact Machine.dispatch_of_outside (.inr (Int.le_refl _)) _ m

end Expr

/-! ## Playing -/

/-- In the packed layout a video pass starts with one word. -/
theorem Machine.exists_data_passStart {m : Machine} (hlayout : m.layout = some .packed)
    (maySwitch : Bool) (x y : UInt8) :
    ∃ w, (m.passStart .video maySwitch x y).data = m.data.clear.push w := by
  simp only [passStart, pushContext, reset, Context.words, hlayout, List.foldl_cons, List.foldl_nil]
  exact ⟨_, rfl⟩

namespace Player

open GlyphMachine.Expr (ReadAs Step instructions dispatch_instructions)

variable {e : Expr} {steps : List Step} {fuel : Nat} {p : Player}

/-- The video word of a sample whose video pass halts, if an audio pass would end too. -/
theorem exists_sample_of_halted {x y : UInt8} {fault : Fault} {m : Machine}
    (hvideo : p.machine.runPass p.code fuel 0 .video p.config.audio x y = some (.halted fault, m))
    (haudio : ∀ m : Machine, ∃ r, m.runPass p.code fuel 0 .audio false x y = some r) :
    ∃ s p', p.sample fuel x y = some (s, p') ∧ s.video = m.data.top := by
  obtain ⟨config, source, program, code, machine, layout, lastFault⟩ := p
  obtain ⟨⟨finish, m₂⟩, hsecond⟩ := haudio { m with data := m.data.drop }
  simp only at hvideo hsecond
  simp only [sample, hvideo, Stack.pop, hsecond, Option.bind_eq_bind, Option.bind_some]
  split
  · exact ⟨_, _, rfl, rfl⟩
  · split
    · exact ⟨_, _, rfl, rfl⟩
    · exact ⟨_, _, rfl, rfl⟩

section Expressions

variable (hread : ReadAs e steps) (hdepth : e.depth ≤ dataCapacity - 3)
include hread hdepth

/-- An expression leaves a fourth word on the three zeros of the dry pass. -/
theorem calibrates_packed {text : String} (hparse : Program.parse text = instructions steps)
    (a : Addressing) : Calibrates text a .packed := by
  have hsize : (Machine.fresh a).dryStart.data.size = 3 := rfl
  have hcapacity : (Machine.fresh a).dryStart.data.capacity = dataCapacity := rfl
  have hpos := e.depth_pos
  have hlt : (Machine.fresh a).dryStart.data.size < (Machine.fresh a).dryStart.data.capacity := by
    omega
  have hdry := Machine.dryRun_eq ((Program.parse text).compile a) 2 (.fresh a)
  rw [hparse, dispatch_instructions steps a (Nat.le_refl 2), hread.run (by omega), ← hparse] at hdry
  refine ⟨2, _, hdry, if_pos ?_⟩
  show 1 < ((Machine.fresh a).dryStart.data.push e.value).size
  rw [Stack.size_push_of_lt hlt, hsize]
  decide

/-- A player of an expression computes its value for every place. -/
theorem exists_sample_of_readAs (hp : p.Consistent) (hpacked : p.layout = .packed)
    (hparse : Program.parse p.source = instructions steps) (hfuel : 2 ≤ fuel) (x y : UInt8) :
    ∃ s p', p.sample fuel x y = some (s, p') ∧ s.video = e.value := by
  have hcode : p.code = (instructions steps).compile p.config.addressing := by
    rw [hp.code_eq, hp.program_eq, hparse]
  obtain ⟨w, hw⟩ := Machine.exists_data_passStart (hp.layout_eq.trans (congrArg some hpacked))
    p.config.audio x y
  have hcapacity : p.machine.data.clear.capacity = dataCapacity := hp.built.data
  have hsize : p.machine.data.clear.size = 0 := rfl
  have hpos := e.depth_pos
  have hroom : (p.machine.data.clear.push w).size + e.depth ≤
      (p.machine.data.clear.push w).capacity := by
    rw [Stack.size_push_of_lt (by omega), Stack.capacity_push]
    omega
  have hvideo := dispatch_instructions steps p.config.addressing hfuel
    (p.machine.passStart .video p.config.audio x y)
  rw [← hcode, hw, hread.run hroom] at hvideo
  have haudio : ∀ m : Machine, ∃ r, m.runPass p.code fuel 0 .audio false x y = some r := by
    intro m
    rw [hcode]
    exact ⟨_, dispatch_instructions steps _ hfuel _⟩
  obtain ⟨s, p', hsample, hs⟩ := exists_sample_of_halted hvideo haudio
  exact ⟨s, p', hsample, hs.trans (Stack.top_push (by omega))⟩

end Expressions

/-- Any player can load the text of an expression. -/
theorem exists_reload (steps : List Step) (hparse : Program.parse p.source = instructions steps)
    (hfuel : 2 ≤ fuel) :
    ∃ q, p.reload fuel = some q ∧ q.source = p.source ∧ q.config = p.config := by
  have hload := reload_eq fuel p
  rw [hparse, dispatch_instructions steps _ hfuel] at hload
  exact ⟨_, hload, rfl, rfl⟩

/-- **Expressions evaluate.**  Take any text of an arithmetic expression whose operands fit on the
data stack beside the three words of a dry pass.  New players and players with any past can load
it.  Whatever a player of the text was set to and used for, it has the packed layout, and at every
time and place the video word of its sample is the value of the expression. -/
theorem expressions_evaluate {e : Expr} {text : String} (hwritten : e.WrittenAs text)
    (hdepth : e.depth ≤ dataCapacity - 3) {fuel : Nat} (hfuel : 2 ≤ fuel) :
    (∀ config, ∃ p, ofSource fuel text config = some p ∧ p.source = text ∧ p.config = config) ∧
    (∀ p : Player, p.Reachable →
      ∃ q, p.load fuel text = some q ∧ q.source = text ∧ q.config = p.config) ∧
    ∀ p : Player, p.Reachable → p.source = text → p.layout = .packed ∧
      ∀ t x y, ∃ s q, (p.setTime t).sample fuel x y = some (s, q) ∧ s.video = e.value := by
  obtain ⟨steps, hread, hparse⟩ := Expr.parse_of_writtenAs hwritten
  have hload : ∀ p : Player,
      ∃ q, p.load fuel text = some q ∧ q.source = text ∧ q.config = p.config :=
    fun p => exists_reload (p := { p with source := text }) steps hparse hfuel
  refine ⟨?_, fun p _ => hload p, ?_⟩
  · intro config
    -- a new player has loaded the empty text before
    obtain ⟨q, hnew, -, hconfig⟩ := exists_reload (p := blank config) [] rfl hfuel
    obtain ⟨p, hp, hsource, hconfig'⟩ := hload q
    exact ⟨p, Option.bind_eq_some_iff.2 ⟨q, hnew, hp⟩, hsource, hconfig'.trans hconfig⟩
  · rintro p hp rfl
    have hpacked : p.layout = .packed :=
      hp.consistent.calibrated.unique (calibrates_packed hread hdepth hparse _)
    refine ⟨hpacked, fun t x y => ?_⟩
    exact exists_sample_of_readAs hread hdepth (setTime_consistent hp.consistent t) hpacked hparse
      hfuel x y

/-- The complement of a sum, of which one operand is fused, less the negative part of a literal that
touches its operator and is not fused.  The new player has sound on and computes a second pass. -/
theorem complement_less_negative_part :
    ∃ p s q, ofSource 2 " 1 2+~ 3.8<,- " { audio := true, recalcAudio := true } = some p ∧
      p.layout = .packed ∧ (p.setTime 77).sample 2 7 8 = some (s, q) ∧ s.video = -196609 := by
  have hnone : ∀ c ∈ ([] : List Char), Token.isSkipped c = true := List.forall_mem_nil _
  have hblank : ∀ c ∈ [' '], Token.isSkipped c = true := List.forall_mem_singleton.2 rfl
  have hcomma : ∀ c ∈ [','], Token.isSkipped c = true := List.forall_mem_singleton.2 rfl
  have hsum : (Expr.binary .add (.literal 0x10000) (.literal 0x20000)).Written "1 2+".toList :=
    .binary (.literal _) hblank (by decide) (.literal _) hnone
  have hpart : (Expr.unary .negativePart (.literal 0x38000)).Written "3.8<".toList :=
    .unary (.literal _) hnone
  have hwritten : (Expr.binary .sub (.unary .bitNot (.binary .add (.literal 0x10000)
      (.literal 0x20000))) (.unary .negativePart (.literal 0x38000))).WrittenAs " 1 2+~ 3.8<,- " :=
    ⟨[' '], "1 2+~ 3.8<,-".toList, [' '], by rfl,
      .binary (.unary hsum hnone) hblank (by decide) hpart hcomma, hblank, hblank⟩
  obtain ⟨hsource, -, hplays⟩ := expressions_evaluate hwritten (by decide) (Nat.le_refl 2)
  obtain ⟨p, hp, htext, -⟩ := hsource { audio := true, recalcAudio := true }
  obtain ⟨hpacked, hsample⟩ := hplays p (.ofSource hp) htext
  obtain ⟨s, q, hs, hvideo⟩ := hsample 77 7 8
  exact ⟨p, s, q, hp, hpacked, hs, hvideo⟩

end Player
end GlyphMachine
