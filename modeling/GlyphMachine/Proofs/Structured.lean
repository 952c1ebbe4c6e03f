import GlyphMachine.Code.Lower
import GlyphMachine.Machine.Dispatch
import GlyphMachine.Proofs.Links

/-!
# Structured programs

Programs that are trees: straight-line leaves, put in sequence, branched on and looped over.  A
tree has a meaning of its own, which knows neither addresses nor the control stack, and it can be
written out as a program.

* `Structured` — the trees; `Structured.instructions` — the program that a tree is written as.
* `Structured.Eval` — big-step evaluation on the data stack and the memory alone.
* `resolve_instructions` — resolving the written program gives every opener of the tree the
  address of its own closer.
-/

namespace GlyphMachine

/-- Whether an instruction is straight-line and leaves the control stack alone, also through the
windows of the address space. -/
def Instruction.isLeaf (a : Addressing) : Instruction → Bool
  | push _ => true
  | op code literal _ =>
    match code with
    | .add | .sub | .mul | .div | .mod | .bitAnd | .bitOr | .bitXor | .bitNot | .shift | .rotate
    | .sine | .root | .angle | .negativePart | .positivePart | .zeroTest | .dup | .pop
    | .exchange | .rotateUp | .rotateDown | .pick | .bury | .context => true
    | .load | .store => a = .simple || literal.any fun w => w.address < windowStart
    | _ => false

/-- A straight-line instruction that leaves the control stack alone. -/
structure Leaf (a : Addressing) where
  instruction : Instruction
  isLeaf : instruction.isLeaf a = true

/-- A structured program. -/
inductive Structured (a : Addressing) where
  /-- The empty sequence. -/
  | skip
  | leaf (l : Leaf a)
  | seq (s t : Structured a)
  /-- `? s ;` -/
  | when (s : Structured a)
  /-- `? s : t ;` -/
  | ifElse (s t : Structured a)
  /-- `[ s ]` -/
  | doWhile (s : Structured a)
  /-- `X s L`; the count is popped if it is not given. -/
  | times (count : Option Word) (s : Structured a)

namespace Structured

variable {a : Addressing}

/-- The tree written as a program, without targets. -/
def instructions : Structured a → Program
  | skip => []
  | leaf l => [l.instruction]
  | seq s t => s.instructions ++ t.instructions
  | when s => .plain .branch :: (s.instructions ++ [.plain .endBranch])
  | ifElse s t =>
    .plain .branch ::
      (s.instructions ++ .plain .otherwise :: (t.instructions ++ [.plain .endBranch]))
  | doWhile s => .plain .begin :: (s.instructions ++ [.plain .loopWhile])
  | times count s => .op .times count none :: (s.instructions ++ [.plain .loop])

/-- The number of instructions. -/
def size : Structured a → Nat
  | skip => 0
  | leaf _ => 1
  | seq s t => s.size + t.size
  | when s => s.size + 2
  | ifElse s t => s.size + t.size + 3
  | doWhile s => s.size + 2
  | times _ s => s.size + 2

@[simp]
theorem length_instructions (t : Structured a) : t.instructions.length = t.size := by
  induction t with
  | skip | leaf => rfl
  | seq s t hs ht => simp [instructions, size, hs, ht]
  | when s hs => simp [instructions, size, hs]
  | ifElse s t hs ht => simp [instructions, size, hs, ht]; omega
  | doWhile s hs => simp [instructions, size, hs]
  | times count s hs => simp [instructions, size, hs]

/-- How deeply loops are nested. -/
def loopDepth : Structured a → Nat
  | skip => 0
  | leaf _ => 0
  | seq s t => max s.loopDepth t.loopDepth
  | when s => s.loopDepth
  | ifElse s t => max s.loopDepth t.loopDepth
  | doWhile s => s.loopDepth + 1
  | times _ s => s.loopDepth + 1

end Structured

/-! ## Evaluation -/

/-- What a structured program works on. -/
structure Store where
  data : Stack
  memory : Memory

/-- The store without the top word of its data stack. -/
def Store.dropTop (st : Store) : Store := { st with data := st.data.drop }

/-- The store of a machine. -/
def Machine.store (m : Machine) : Store := ⟨m.data, m.memory⟩

/-- The machine with another store. -/
def Machine.withStore (m : Machine) (st : Store) : Machine :=
  { m with data := st.data, memory := st.memory }

/-- What a leaf does to a store: its operation, on a machine without a control stack. -/
def Leaf.run {a : Addressing} (l : Leaf a) (c : Context) (st : Store) : Store :=
  let m : Machine := { c with data := st.data, control := .empty 0, memory := st.memory }
  (m.steps (l.instruction.lower a 0).op.toList).store

/-- Runs of a body that end when the word it leaves on top, which is popped, is zero. -/
inductive DoWhile (body : Store → Store → Prop) : Store → Store → Prop where
  | leave {st mid : Store} : body st mid → mid.data.top = 0 → DoWhile body st mid.dropTop
  | again {st mid st' : Store} : body st mid → mid.data.top ≠ 0 →
      DoWhile body mid.dropTop st' → DoWhile body st st'

/-- Runs of a body that end when the counter, one less after each, is zero. -/
inductive CountDown (body : Store → Store → Prop) : Word → Store → Store → Prop where
  | leave {count : Word} {st st' : Store} : body st st' → count - Word.one = 0 →
      CountDown body count st st'
  | again {count : Word} {st mid st' : Store} : body st mid → count - Word.one ≠ 0 →
      CountDown body (count - Word.one) mid st' → CountDown body count st st'

/-- `t.Eval c st st'`: the evaluation of `t` in the context `c` takes the store `st` to `st'`. -/
def Structured.Eval {a : Addressing} (c : Context) : Structured a → Store → Store → Prop
  | skip, st, st' => st' = st
  | leaf l, st, st' => st' = l.run c st
  | seq s t, st, st' => ∃ mid, s.Eval c st mid ∧ t.Eval c mid st'
  | when s, st, st' =>
    if st.data.top = 0 then st' = st.dropTop else s.Eval c st.dropTop st'
  | ifElse s t, st, st' =>
    if st.data.top = 0 then t.Eval c st.dropTop st' else s.Eval c st.dropTop st'
  | doWhile s, st, st' => DoWhile (s.Eval c) st st'
  | times none s, st, st' => CountDown (s.Eval c) st.data.top st.dropTop st'
  | times (some count) s, st, st' => CountDown (s.Eval c) count st st'

/-! ## Targets -/

namespace Structured

open Program (Link Pairing linkAll closerOf? linkAll_cons linkAll_append
  closerOf?_cons closerOf?_append closerOf?_eq_none)

variable {a : Addressing}

/-- The tree as a program whose first instruction stands at `base`, with every opener carrying
the address of its own closer. -/
def linked (base : Nat) : Structured a → Program
  | skip => []
  | leaf l => [l.instruction]
  | seq s t => s.linked base ++ t.linked (base + s.size)
  | when s =>
    .op .branch none (some (base + 1 + s.size)) ::
      (s.linked (base + 1) ++ [.plain .endBranch])
  | ifElse s t =>
    .op .branch none (some (base + 1 + s.size)) ::
      (s.linked (base + 1) ++ .op .otherwise none (some (base + 1 + s.size + 1 + t.size)) ::
        (t.linked (base + 1 + s.size + 1) ++ [.plain .endBranch]))
  | doWhile s =>
    .op .begin none (some (base + 1 + s.size)) :: (s.linked (base + 1) ++ [.plain .loopWhile])
  | times count s =>
    .op .times count (some (base + 1 + s.size)) :: (s.linked (base + 1) ++ [.plain .loop])

/-- The links of a tree written at `base`, last found first. -/
def links (base : Nat) : Structured a → List Link
  | skip => []
  | leaf _ => []
  | seq s t => t.links (base + s.size) ++ s.links base
  | ifElse s t =>
    ⟨base + 1 + s.size, base + 1 + s.size + 1 + t.size⟩ ::
      (t.links (base + 1 + s.size + 1) ++ ⟨base, base + 1 + s.size⟩ :: s.links (base + 1))
  | when s | doWhile s | times _ s => ⟨base, base + 1 + s.size⟩ :: s.links (base + 1)

/-- A leaf is neither an opener nor a closer. -/
theorem next_of_isLeaf {i : Instruction} (h : i.isLeaf a = true) (s : Pairing) (addr : Nat) :
    s.next addr i = s := by
  cases i with
  | push w => rfl
  | op code literal target =>
    cases code with
    | branch | begin | times | define | otherwise | endBranch | loopWhile | loop | ret => cases h
    | _ => rfl

/-- The pass over a tree finds the links of the tree and leaves what waited before it waiting. -/
theorem run_instructions (t : Structured a) (s : Pairing) (base : Nat) :
    s.run base t.instructions = { s with links := t.links base ++ s.links } := by
  induction t generalizing s base with
  | skip => rfl
  | leaf l => exact next_of_isLeaf l.isLeaf s base
  | seq t u ht hu =>
    simp only [instructions, Pairing.run_append, ht, hu, length_instructions, links,
      List.append_assoc]
  | when t ht =>
    simp only [instructions, Pairing.run_cons, Pairing.run_append, ht, length_instructions]
    rfl
  | ifElse t u ht hu =>
    simp only [instructions, Pairing.run_cons, Pairing.run_append, ht, length_instructions]
    -- the `?` of this tree is the innermost one waiting when its `:` comes
    simp only [Pairing.next, Instruction.opcode?, Pairing.closeBranch, Program.Waiting.isBranch,
      List.find?_cons, List.eraseP_cons, cond_true, hu, Pairing.link, Pairing.run_nil,
      Pairing.closeConditional, Program.Waiting.address, links, List.cons_append,
      List.append_assoc]
  | doWhile t ht =>
    simp only [instructions, Pairing.run_cons, Pairing.run_append, ht, length_instructions]
    rfl
  | times count t ht =>
    simp only [instructions, Pairing.run_cons, Pairing.run_append, ht, length_instructions]
    rfl

/-- The openers of a tree stand inside it. -/
theorem opener_of_mem_links {t : Structured a} {base : Nat} {l : Link} (h : l ∈ t.links base) :
    base ≤ l.opener ∧ l.opener < base + t.size := by
  induction t generalizing base with
  | skip | leaf => cases h
  | seq t u ht hu =>
    simp only [size]
    rcases List.mem_append.1 h with h | h
    · have := hu h
      omega
    · have := ht h
      omega
  | when t ht | doWhile t ht | times _ t ht =>
    simp only [size]
    rcases List.mem_cons.1 h with rfl | h
    · simp only
      omega
    · have := ht h
      omega
  | ifElse t u ht hu =>
    simp only [size]
    rcases List.mem_cons.1 h with rfl | h
    · simp only
      omega
    · rcases List.mem_append.1 h with h | h
      · have := hu h
        omega
      · rcases List.mem_cons.1 h with rfl | h
        · simp only
          omega
        · have := ht h
          omega

theorem closerOf?_links_of_outside {t : Structured a} {base addr : Nat}
    (h : addr < base ∨ base + t.size ≤ addr) : closerOf? (t.links base) addr = none := by
  refine closerOf?_eq_none fun l hl heq => ?_
  have := opener_of_mem_links hl
  omega

/-- `L` and `links` give the same closers to the `size` addresses from `base` on. -/
def AgreesOn (L links : List Link) (base size : Nat) : Prop :=
  ∀ addr, base ≤ addr → addr < base + size → closerOf? L addr = closerOf? links addr

/-- Linking a bracketed tree: the opener gets the address of the closer, the closer gets nothing,
and inside the links of the tree count. -/
theorem linkAll_bracket {L : List Link} {t : Structured a} {base : Nat}
    (opener closer : Instruction)
    (h : AgreesOn L (⟨base, base + 1 + t.size⟩ :: t.links (base + 1)) base (t.size + 2)) :
    linkAll L base (opener :: (t.instructions ++ [closer])) =
        opener.withTarget (base + 1 + t.size) ::
          (linkAll L (base + 1) t.instructions ++ [closer]) ∧
      AgreesOn L (t.links (base + 1)) (base + 1) t.size := by
  have hopener : closerOf? L base = some (base + 1 + t.size) := by
    rw [h base (by omega) (by omega), closerOf?_cons, if_pos rfl]
  have hcloser : closerOf? L (base + 1 + t.size) = none := by
    rw [h _ (by omega) (by omega), closerOf?_cons, if_neg (by simp only; omega)]
    exact closerOf?_links_of_outside (by omega)
  constructor
  · rw [linkAll_cons, linkAll_append, linkAll_cons, hopener, length_instructions, hcloser]
    rfl
  · intro addr h₁ h₂
    rw [h addr (by omega) (by omega), closerOf?_cons, if_neg (by simp only; omega)]

/-- Linking a tree by its own links, or by links that agree with them on it. -/
theorem linkAll_instructions {L : List Link} {t : Structured a} {base : Nat}
    (h : AgreesOn L (t.links base) base t.size) :
    linkAll L base t.instructions = t.linked base := by
  induction t generalizing base with
  | skip => rfl
  | leaf l =>
    have hnone : closerOf? L base = none := h base (by omega) (by simp [size])
    rw [instructions, linkAll_cons, hnone]
    rfl
  | seq t u ht hu =>
    have hleft : AgreesOn L (t.links base) base t.size := by
      intro addr h₁ h₂
      rw [h addr h₁ (by simp only [size]; omega), links, closerOf?_append,
        closerOf?_links_of_outside (by omega), Option.none_or]
    have hright : AgreesOn L (u.links (base + t.size)) (base + t.size) u.size := by
      intro addr h₁ h₂
      rw [h addr (by omega) (by simp only [size]; omega), links, closerOf?_append,
        closerOf?_links_of_outside (t := t) (by omega), Option.or_none]
    rw [instructions, linkAll_append, length_instructions, ht hleft, hu hright, linked]
  | when t ht =>
    obtain ⟨hbracket, hinside⟩ := linkAll_bracket (.plain .branch) (.plain .endBranch) h
    rw [instructions, hbracket, ht hinside]
    rfl
  | doWhile t ht =>
    obtain ⟨hbracket, hinside⟩ := linkAll_bracket (.plain .begin) (.plain .loopWhile) h
    rw [instructions, hbracket, ht hinside]
    rfl
  | times count t ht =>
    obtain ⟨hbracket, hinside⟩ := linkAll_bracket (.op .times count none) (.plain .loop) h
    rw [instructions, hbracket, ht hinside]
    rfl
  | ifElse t u ht hu =>
    -- where the `:` stands
    obtain ⟨mid, hmid⟩ : ∃ mid, mid = base + 1 + t.size := ⟨_, rfl⟩
    have hlinks : ∀ addr, base ≤ addr → addr < base + (t.size + u.size + 3) →
        closerOf? L addr = if mid = addr then some (mid + 1 + u.size)
          else (closerOf? (u.links (mid + 1)) addr).or
            (if base = addr then some mid else closerOf? (t.links (base + 1)) addr) := by
      intro addr h₁ h₂
      rw [h addr h₁ h₂, links, ← hmid, closerOf?_cons, closerOf?_append, closerOf?_cons]
    have hopener : closerOf? L base = some mid := by
      rw [hlinks base (by omega) (by omega), if_neg (by omega),
        closerOf?_links_of_outside (by omega), Option.none_or, if_pos rfl]
    have hotherwise : closerOf? L mid = some (mid + 1 + u.size) := by
      rw [hlinks mid (by omega) (by omega), if_pos rfl]
    have hcloser : closerOf? L (mid + 1 + u.size) = none := by
      rw [hlinks _ (by omega) (by omega), if_neg (by omega),
        closerOf?_links_of_outside (by omega), Option.none_or, if_neg (by omega)]
      exact closerOf?_links_of_outside (by omega)
    have hleft : AgreesOn L (t.links (base + 1)) (base + 1) t.size := by
      intro addr h₁ h₂
      rw [hlinks addr (by omega) (by omega), if_neg (by omega),
        closerOf?_links_of_outside (by omega), Option.none_or, if_neg (by omega)]
    have hright : AgreesOn L (u.links (mid + 1)) (mid + 1) u.size := by
      intro addr h₁ h₂
      rw [hlinks addr (by omega) (by omega), if_neg (by omega), if_neg (by omega),
        closerOf?_links_of_outside (t := t) (by omega), Option.or_none]
    rw [instructions, linkAll_cons, linkAll_append, linkAll_cons, linkAll_append, linkAll_cons,
      hopener, ht hleft, length_instructions, length_instructions, ← hmid, hotherwise, hu hright,
      hcloser, hmid]
    rfl

/-- **Every opener of a tree is resolved to its own closer.** -/
theorem resolve_instructions (t : Structured a) :
    Program.resolve t.instructions = t.linked 0 := by
  have hlinks : (Program.pairing t.instructions).links = t.links 0 := by
    rw [Program.pairing_eq_run, run_instructions]
    exact List.append_nil _
  rw [Program.resolve_eq_linkAll, hlinks]
  exact linkAll_instructions fun _ _ _ => rfl

theorem length_linked (t : Structured a) (base : Nat) : (t.linked base).length = t.size := by
  rw [← linkAll_instructions (L := t.links base) fun _ _ _ => rfl]
  simp [linkAll]

end Structured
end GlyphMachine
