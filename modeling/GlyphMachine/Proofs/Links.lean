import GlyphMachine.Program.Parse

/-!
# The pairing pass in parts

The pass that pairs openers with closers is a fold over addressed instructions.  Here it can be
started anywhere, so that a program is taken apart at any point, and the resolved program is read
off its links.

* `Pairing.run` — the pass over a stretch of program that starts at a given address.
* `linkAll` — a stretch of program with the targets that a list of links gives it.
* `resolve_eq_linkAll` — resolving is pairing, then linking.
* `Pairing.Takes` — what one instruction may do to the pass.
* `Pairing.Before` — what holds at every address: `Before.next` is the step, `Before.run` the run.
* `forward_resolve` — hence every target lies behind its opener and inside the program.
-/

namespace GlyphMachine

/-- The instruction with the target of its closer, if it has one. -/
def Instruction.linkedTo (i : Instruction) : Option Nat → Instruction
  | some closer => i.withTarget closer
  | none => i

namespace Program

/-! ## The pass -/

namespace Pairing

/-- The pass over `p`, whose first instruction stands at `base`. -/
def run (s : Pairing) (base : Nat) (p : Program) : Pairing :=
  (p.zipIdx base).foldl (fun s (i, addr) => s.next addr i) s

variable (s : Pairing) (base : Nat)

@[simp]
theorem run_nil : s.run base [] = s := rfl

@[simp]
theorem run_cons (i : Instruction) (p : Program) :
    s.run base (i :: p) = (s.next base i).run (base + 1) p := rfl

theorem run_append (p q : Program) :
    s.run base (p ++ q) = (s.run base p).run (base + p.length) q := by
  simp [run, List.zipIdx_append]

end Pairing

theorem pairing_eq_run (p : Program) : pairing p = Pairing.run {} 0 p := rfl

/-! ## Links -/

theorem closerOf?_cons (l : Link) (links : List Link) (addr : Nat) :
    closerOf? (l :: links) addr =
      if l.opener = addr then some l.closer else closerOf? links addr := by
  unfold closerOf?
  rw [List.find?_cons]
  by_cases h : l.opener = addr
  · simp [h]
  · rw [if_neg h, beq_false_of_ne h]

theorem closerOf?_append (links more : List Link) (addr : Nat) :
    closerOf? (links ++ more) addr = (closerOf? links addr).or (closerOf? more addr) := by
  induction links with
  | nil => rfl
  | cons l links ih =>
    rw [List.cons_append, closerOf?_cons, closerOf?_cons]
    split
    · rfl
    · exact ih

theorem closerOf?_eq_none {links : List Link} {addr : Nat} (h : ∀ l ∈ links, l.opener ≠ addr) :
    closerOf? links addr = none := by
  induction links with
  | nil => rfl
  | cons l links ih =>
    rw [closerOf?_cons, if_neg (h l List.mem_cons_self)]
    exact ih fun l' hl' => h l' (List.mem_cons_of_mem _ hl')

/-- The instructions of `p`, the first at `base`, with the targets that `links` gives them. -/
def linkAll (links : List Link) (base : Nat) (p : Program) : Program :=
  (p.zipIdx base).map fun (i, addr) => i.linkedTo (closerOf? links addr)

theorem linkAll_cons (links : List Link) (base : Nat) (i : Instruction) (p : Program) :
    linkAll links base (i :: p) =
      i.linkedTo (closerOf? links base) :: linkAll links (base + 1) p := rfl

/-- Without links no target is set. -/
theorem linkAll_nil_links (base : Nat) (p : Program) : linkAll [] base p = p := by
  induction p generalizing base with
  | nil => rfl
  | cons i p ih =>
    rw [linkAll_cons, ih]
    rfl

theorem linkAll_append (links : List Link) (base : Nat) (p q : Program) :
    linkAll links base (p ++ q) =
      linkAll links base p ++ linkAll links (base + p.length) q := by
  simp [linkAll, List.zipIdx_append]

theorem getElem?_linkAll (links : List Link) (base : Nat) (p : Program) (k : Nat) :
    (linkAll links base p)[k]? = p[k]?.map (·.linkedTo (closerOf? links (base + k))) := by
  simp only [linkAll, List.getElem?_map, List.getElem?_zipIdx, Option.map_map]
  rfl

/-- Resolving is pairing, then linking. -/
theorem resolve_eq_linkAll (p : Program) : resolve p = linkAll (pairing p).links 0 p := by
  apply List.ext_getElem?
  intro k
  simp only [resolve, linkAll, List.getElem?_mapIdx, List.getElem?_map, List.getElem?_zipIdx,
    Nat.zero_add]
  by_cases hk : k < p.length
  · rw [List.getElem?_eq_getElem hk, Option.map_some, Option.map_some, Option.map_some,
      getD_closers hk]
    cases closerOf? (pairing p).links k <;> rfl
  · rw [List.getElem?_eq_none (by omega)]
    rfl

/-! ## Targets point forward -/

namespace Pairing

variable {s : Pairing} {addr base : Nat}

/-- The openers that wait, of whatever kind. -/
def waiting (s : Pairing) : List Nat :=
  s.conditionals.map Waiting.address ++ s.loops ++ s.counted ++ s.definitions

theorem mem_waiting {w : Nat} : w ∈ s.waiting ↔
    (∃ half ∈ s.conditionals, half.address = w) ∨ w ∈ s.loops ∨ w ∈ s.counted ∨
      w ∈ s.definitions := by
  simp [waiting]

/-- What an instruction at `addr` may do to the pass: wait in its turn, and close one opener that
waits. -/
structure Takes (addr : Nat) (s s' : Pairing) : Prop where
  waiting : ∀ w ∈ s'.waiting, w = addr ∨ w ∈ s.waiting
  links : s'.links = s.links ∨ ∃ opener ∈ s.waiting, s'.links = ⟨opener, addr⟩ :: s.links

theorem takes_refl (addr : Nat) (s : Pairing) : Takes addr s s := ⟨fun _ h => .inr h, .inl rfl⟩

/-- The `?` that a `:` closes need not be the innermost opener that waits. -/
theorem takes_closeBranch (addr : Nat) (s : Pairing) : Takes addr s (s.closeBranch addr) := by
  unfold closeBranch
  split
  · exact takes_refl addr s
  · rename_i opener hfind
    refine ⟨fun w hw => ?_, .inr ⟨opener.address, ?_, rfl⟩⟩
    · have herased : ∀ half ∈ s.conditionals.eraseP Waiting.isBranch, half ∈ s.conditionals :=
        fun half => List.mem_of_mem_eraseP
      simp only [link, mem_waiting, List.mem_cons] at hw ⊢
      grind [Waiting.address]
    · exact mem_waiting.2 (.inl ⟨opener, List.mem_of_find?_eq_some hfind, rfl⟩)

theorem takes_next (addr : Nat) (s : Pairing) (i : Instruction) : Takes addr s (s.next addr i) := by
  obtain ⟨conditionals, loops, counted, definitions, links⟩ := s
  cases i with
  | push w => exact takes_refl addr _
  | op code literal target =>
    cases code with
    | branch | begin | times | define =>
      refine ⟨fun w hw => ?_, .inl rfl⟩
      simp only [next, Instruction.opcode?, mem_waiting, List.mem_cons] at hw ⊢
      grind [Waiting.address]
    | otherwise => exact takes_closeBranch addr _
    | endBranch =>
      cases conditionals with
      | nil => exact takes_refl addr _
      | cons opener rest =>
        refine ⟨fun w hw => ?_, .inr ⟨opener.address, by simp [mem_waiting], rfl⟩⟩
        simp only [next, Instruction.opcode?, closeConditional, link, mem_waiting] at hw ⊢
        grind
    | loopWhile =>
      cases loops with
      | nil => exact takes_refl addr _
      | cons opener rest =>
        refine ⟨fun w hw => ?_, .inr ⟨opener, by simp [mem_waiting], rfl⟩⟩
        simp only [next, Instruction.opcode?, closeLoop, link, mem_waiting] at hw ⊢
        grind
    | loop =>
      cases counted with
      | nil => exact takes_refl addr _
      | cons opener rest =>
        refine ⟨fun w hw => ?_, .inr ⟨opener, by simp [mem_waiting], rfl⟩⟩
        simp only [next, Instruction.opcode?, closeCounted, link, mem_waiting] at hw ⊢
        grind
    | ret =>
      cases definitions with
      | nil => exact takes_refl addr _
      | cons opener rest =>
        refine ⟨fun w hw => ?_, .inr ⟨opener, by simp [mem_waiting], rfl⟩⟩
        simp only [next, Instruction.opcode?, closeDefinition, link, mem_waiting] at hw ⊢
        grind
    | _ => exact takes_refl addr _

/-- What holds of the pass before it reaches `addr`: every opener that waits stands before `addr`,
and so does every closer that was found, which stands behind its opener. -/
structure Before (s : Pairing) (addr : Nat) : Prop where
  waiting : ∀ opener ∈ s.waiting, opener < addr
  links : ∀ l ∈ s.links, l.opener < l.closer ∧ l.closer < addr

theorem before_empty (addr : Nat) : Before {} addr := ⟨by simp [mem_waiting], by simp⟩

theorem Before.next (h : s.Before addr) (i : Instruction) : (s.next addr i).Before (addr + 1) := by
  obtain ⟨hwaiting, hlinks⟩ := takes_next addr s i
  have hold : ∀ l ∈ s.links, l.opener < l.closer ∧ l.closer < addr + 1 :=
    fun l hl => ⟨(h.links l hl).1, Nat.lt_succ_of_lt (h.links l hl).2⟩
  constructor
  · intro opener hopener
    rcases hwaiting opener hopener with rfl | hopener
    · exact Nat.lt_succ_self _
    · exact Nat.lt_succ_of_lt (h.waiting opener hopener)
  · rcases hlinks with hsame | ⟨opener, hopener, hnew⟩
    · rw [hsame]
      exact hold
    · rw [hnew, List.forall_mem_cons]
      exact ⟨⟨h.waiting opener hopener, Nat.lt_succ_self _⟩, hold⟩

theorem Before.run (h : s.Before base) (p : Program) : (s.run base p).Before (base + p.length) := by
  induction p generalizing s base with
  | nil => exact h
  | cons i p ih =>
    rw [run_cons, List.length_cons, Nat.add_comm p.length, ← Nat.add_assoc]
    exact ih (h.next i)

end Pairing

theorem mem_of_closerOf? {links : List Link} {addr closer : Nat}
    (h : closerOf? links addr = some closer) : ⟨addr, closer⟩ ∈ links := by
  obtain ⟨l, hfind, rfl⟩ := Option.map_eq_some_iff.1 h
  have hopener : l.opener = addr := by simpa using List.find?_some hfind
  rw [← hopener]
  exact List.mem_of_find?_eq_some hfind

/-- Every target lies behind its opener and inside the program. -/
def Forward (p : Program) : Prop :=
  ∀ k i last, p[k]? = some i → i.target? = some last → k < last ∧ last < p.length

@[simp]
theorem length_resolve (p : Program) : (resolve p).length = p.length := by simp [resolve]

/-- **Resolving sets targets that point forward**, however the openers and closers are nested. -/
theorem forward_resolve {p : Program} (hp : ∀ i ∈ p, i.target? = none) : (resolve p).Forward := by
  have hlinks := ((Pairing.before_empty 0).run p).links
  rw [← pairing_eq_run, Nat.zero_add] at hlinks
  intro k i last hi hlast
  rw [resolve_eq_linkAll, getElem?_linkAll, Nat.zero_add] at hi
  obtain ⟨i₀, hi₀, rfl⟩ := Option.map_eq_some_iff.1 hi
  rw [length_resolve]
  cases hcloser : closerOf? (pairing p).links k with
  | none =>
    rw [hcloser] at hlast
    exact absurd ((hp i₀ (List.mem_of_getElem? hi₀)).symm.trans hlast) (by simp)
  | some closer =>
    rw [hcloser] at hlast
    cases i₀ with
    | push w => cases hlast
    | op code literal target =>
      cases hlast
      exact hlinks _ (mem_of_closerOf? hcloser)

end Program
end GlyphMachine
