import GlyphMachine.Token

/-!
# Reading programs

Every text is a program: what is neither a literal nor an opcode is skipped.  One pass over the
instructions then pairs every closer with the nearest opener that still waits for it:

* `?` with `:` or `;`, and the `:` of such a pair with `;`;
* `[` with `]`, `X` with `L`, and the two braces of a subroutine with each other.

A `:` looks past other waiting `:` for its `?`, and waits itself only if it found one.  Closers
that find nothing, and openers that are never found, keep no target.
-/

namespace GlyphMachine.Program

/-! ## Pairing openers with closers -/

/-- An opener and the closer that was paired with it. -/
structure Link where
  opener : Nat
  closer : Nat
deriving DecidableEq

/-- A waiting half of a conditional. -/
inductive Waiting where
  /-- A `?` that has found neither `:` nor `;`. -/
  | branch (address : Nat)
  /-- A `:` that has found no `;`. -/
  | otherwise (address : Nat)
deriving DecidableEq

/-- Where the waiting instruction stands. -/
def Waiting.address : Waiting → Nat
  | branch a => a
  | otherwise a => a

/-- Whether a `?` is waiting. -/
def Waiting.isBranch : Waiting → Bool
  | branch _ => true
  | otherwise _ => false

/-- The openers that wait at some point of the pass, innermost first, and the links found, last
first. -/
structure Pairing where
  conditionals : List Waiting := []
  loops : List Nat := []
  counted : List Nat := []
  definitions : List Nat := []
  links : List Link := []
deriving DecidableEq

namespace Pairing

/-- Adds the link from `opener` to `closer`. -/
def link (s : Pairing) (opener closer : Nat) : Pairing :=
  { s with links := ⟨opener, closer⟩ :: s.links }

/-- A `:` at `addr`: it closes the nearest waiting `?` and waits in its turn. -/
def closeBranch (s : Pairing) (addr : Nat) : Pairing :=
  match s.conditionals.find? Waiting.isBranch with
  | none => s
  | some opener =>
    { s with conditionals := .otherwise addr :: s.conditionals.eraseP Waiting.isBranch }.link
      opener.address addr

/-- A `;` at `addr`: it closes the innermost waiting half of a conditional. -/
def closeConditional (s : Pairing) (addr : Nat) : Pairing :=
  match s.conditionals with
  | [] => s
  | opener :: rest => { s with conditionals := rest }.link opener.address addr

/-- A `]` at `addr`. -/
def closeLoop (s : Pairing) (addr : Nat) : Pairing :=
  match s.loops with
  | [] => s
  | opener :: rest => { s with loops := rest }.link opener addr

/-- An `L` at `addr`. -/
def closeCounted (s : Pairing) (addr : Nat) : Pairing :=
  match s.counted with
  | [] => s
  | opener :: rest => { s with counted := rest }.link opener addr

/-- The end of a subroutine at `addr`. -/
def closeDefinition (s : Pairing) (addr : Nat) : Pairing :=
  match s.definitions with
  | [] => s
  | opener :: rest => { s with definitions := rest }.link opener addr

/-- Takes the instruction at `addr` into account. -/
def next (s : Pairing) (addr : Nat) (i : Instruction) : Pairing :=
  match i.opcode? with
  | some .branch => { s with conditionals := .branch addr :: s.conditionals }
  | some .begin => { s with loops := addr :: s.loops }
  | some .times => { s with counted := addr :: s.counted }
  | some .define => { s with definitions := addr :: s.definitions }
  | some .otherwise => s.closeBranch addr
  | some .endBranch => s.closeConditional addr
  | some .loopWhile => s.closeLoop addr
  | some .loop => s.closeCounted addr
  | some .ret => s.closeDefinition addr
  | _ => s

end Pairing

/-- The outcome of the pass over a whole program. -/
def pairing (p : Program) : Pairing :=
  p.zipIdx.foldl (fun s (i, addr) => s.next addr i) {}

/-- The closer paired with the opener at `addr`. -/
def closerOf? (links : List Link) (addr : Nat) : Option Nat :=
  (links.find? (·.opener == addr)).map (·.closer)

/-- The closers of all addresses below `size`. -/
def closers (size : Nat) (links : List Link) : Array (Option Nat) :=
  links.foldr (fun l table => table.setIfInBounds l.opener (some l.closer))
    (Array.replicate size none)

theorem size_closers (size : Nat) (links : List Link) : (closers size links).size = size := by
  induction links with
  | nil => simp [closers]
  | cons l links ih => simpa [closers] using ih

/-- The table holds the closer of every address below its size. -/
theorem getD_closers {size addr : Nat} (h : addr < size) (links : List Link) :
    (closers size links).getD addr none = closerOf? links addr := by
  rw [Array.getD_eq_getD_getElem?]
  induction links with
  | nil => simp [closers, closerOf?, h]
  | cons l links ih =>
    have hs := size_closers size links
    simp only [closers, List.foldr_cons, closerOf?, List.find?_cons] at ih hs ⊢
    rw [Array.getElem?_setIfInBounds]
    by_cases e : l.opener = addr
    · simp [e, hs, h]
    · rw [if_neg e, ih, beq_false_of_ne e]

/-- The program with every paired opener carrying the address of its closer. -/
def resolve (p : Program) : Program :=
  let table := closers p.length (pairing p).links
  p.mapIdx fun addr i =>
    match table.getD addr none with
    | some closer => i.withTarget closer
    | none => i

/-! ## Reading -/

/-- The instructions of a text, in order, with no targets set. -/
def unresolved (text : List Char) : Program := Instruction.ofTokens (Token.scan text)

/-- The program that a text denotes. -/
def parse (text : String) : Program := resolve (unresolved text.toList)

end GlyphMachine.Program
