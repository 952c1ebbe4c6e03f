import Mathlib
import GlyphMachine.Proofs.Blocks
import GlyphMachine.Proofs.Passes
import GlyphMachine.Proofs.Stacks
import GlyphMachine.Proofs.Structured

/-!
# Structured programs run as written

A structured program, resolved and compiled, does on a machine what its evaluation says: it ends
exactly when the evaluation ends, in the store that the evaluation gives, with the control stack
as it was.

* `Machine.execute_leaf` — a leaf acts on the store and on nothing else.
* `Machine.Realizes` — from one address to another a program acts on the store as a relation
  says, in both directions: every evaluation is a path, and every run that ends has an evaluation.
* `Realizes.seq`, `Realizes.branch`, `Realizes.doWhile`, `Realizes.countDown` — relations are
  realized part by part; the loops carry the argument over the number of rounds.
* `realizes_eval` — the induction over the tree.
-/

namespace GlyphMachine

/-! ## Leaves -/

/-- Whether an operation uses nothing of a machine but its context and its store. -/
def Op.isLocal (a : Addressing) : Op → Bool
  | .load | .loadAt _ | .store | .storeAt _ => a = .simple
  | .fromControl | .toControl | .toControlWith _ | .controlPeek _ | .mark _ | .markCounted _
  | .markCountedWith _ _ | .define _ | .defineAt _ _ => false
  | _ => true

/-- Whether an instruction lowered to this goes on to the next and does something local only. -/
def Lowered.isLocal (a : Addressing) (l : Lowered) : Bool := l.exit.isNone && l.op.all (·.isLocal a)

namespace Leaf

variable {a : Addressing}

/-- What a leaf does is the same at every address. -/
theorem lower_eq (l : Leaf a) (addr : Nat) :
    l.instruction.lower a addr = l.instruction.lower a 0 := by
  obtain ⟨i, h⟩ := l
  cases i with
  | push w => rfl
  | op code literal target =>
    cases code with
    | begin | loopWhile | times | loop | branch | otherwise | define | call | mediaSwitch
    | terminate => cases h
    | _ => rfl

/-- A load or store that is a leaf surely names memory. -/
theorem isLocal_memory {literal : Option Word}
    (h : (a = .simple || literal.any fun w => w.address < windowStart) = true) :
    (Instruction.lowerLoad a literal).isLocal a = true ∧
      (Instruction.lowerStore a literal).isLocal a = true := by
  cases a with
  | simple => cases literal <;> exact ⟨rfl, rfl⟩
  | full =>
    cases literal with
    | none => cases h
    | some w =>
      have hdirect : Addressing.full.isDirect w.address = true := by
        simpa [Addressing.isDirect] using h
      simp only [Instruction.lowerLoad, Instruction.lowerStore, if_pos hdirect]
      exact ⟨rfl, rfl⟩

/-- A leaf does something local, and control goes on to the next instruction. -/
theorem isLocal_lower (l : Leaf a) : (l.instruction.lower a 0).isLocal a = true := by
  obtain ⟨i, h⟩ := l
  cases i with
  | push w => rfl
  | op code literal target =>
    cases code with
    | load => exact (isLocal_memory h).1
    | store => exact (isLocal_memory h).2
    | fromControl | toControl | index | outerIndex | begin | loopWhile | times | loop | branch
    | otherwise | endBranch | define | ret | call | jump | mediaSwitch | terminate => cases h
    | _ => cases literal <;> rfl

end Leaf

namespace Machine

/-- Local operations neither read nor write the control stack. -/
theorem step_withControl {m : Machine} {o : Op} (h : o.isLocal m.addressing = true) (c : Stack) :
    { m with control := c }.step o = { m.step o with control := c } := by
  cases o with
  | load | loadAt | store | storeAt =>
    have hsimple : m.addressing = .simple := by simpa [Op.isLocal] using h
    simp only [step, get, put, hsimple, Addressing.region]
  | fromControl | toControl | toControlWith | controlPeek | mark | markCounted | markCountedWith
  | define | defineAt => cases h
  | _ => rfl

theorem withStore_store (m : Machine) : m.withStore m.store = m := rfl

/-- Machines that agree on context and control stack differ in their stores only. -/
theorem eq_withStore {m m' : Machine} (hcontext : m'.toContext = m.toContext)
    (hcontrol : m'.control = m.control) : m' = m.withStore m'.store := by
  obtain ⟨c, data, control, memory⟩ := m
  obtain ⟨c', data', control', memory'⟩ := m'
  simp only at hcontext hcontrol
  subst hcontext hcontrol
  rfl

/-- A local operation changes the store as it would without a control stack. -/
theorem step_of_isLocal {m : Machine} {o : Op} (h : o.isLocal m.addressing = true) :
    m.step o = m.withStore ({ m with control := .empty 0 }.step o).store := by
  have hsame : m.step o = { m.step o with control := m.control } := step_withControl h m.control
  have hcontrol : (m.step o).control = m.control := congrArg (·.control) hsame
  have hstore : ({ m with control := .empty 0 }.step o).store = (m.step o).store :=
    congrArg (·.store) (step_withControl h (.empty 0))
  rw [hstore]
  exact eq_withStore (toContext_eq (fixed_step m o)) hcontrol

/-- A leaf acts on the store, and control goes on to the next instruction. -/
theorem execute_leaf {m : Machine} (l : Leaf m.addressing) (next addr : Nat) :
    m.execute next (l.instruction.lower m.addressing addr) =
      (.goto next, m.withStore (l.run m.toContext m.store)) := by
  have hlocal := l.isLocal_lower
  rw [l.lower_eq addr]
  unfold Leaf.run
  generalize l.instruction.lower m.addressing 0 = lowered at hlocal ⊢
  rcases lowered with ⟨_ | o, _ | exit⟩
  · rfl
  · cases hlocal
  · have ho : o.isLocal m.addressing = true := by simpa [Lowered.isLocal] using hlocal
    exact congrArg (Prod.mk _) (step_of_isLocal ho)
  · cases hlocal

/-! ## Realizing a relation on stores -/

/-- From `entry`, with the context and the control stack of `m`, the program acts on the store as
`R` says and goes on at `leave`, with the context and the control stack of `m'`. -/
structure Realizes (a : Addressing) (p : Program) (entry : Nat) (m : Machine) (leave : Nat)
    (m' : Machine) (R : Store → Store → Prop) : Prop where
  /-- Everything that `R` allows is done. -/
  complete : ∀ {st st'}, R st st' →
    ∃ n, Path a p n entry (m.withStore st) leave (m'.withStore st')
  /-- A run that ends does something that `R` allows, and ends from there with no more fuel. -/
  sound : ∀ {n st r}, interpret a p n entry (m.withStore st) = some r →
    ∃ st' k, k ≤ n ∧ R st st' ∧ interpret a p k leave (m'.withStore st') = some r

/-- A step takes fuel. -/
theorem interpret_of_advance {a : Addressing} {p : Program} {n : Nat} {ip target : Int}
    {m m' : Machine} {r : PassEnd × Machine} (hadv : m.advance a p ip = (.goto target, m'))
    (h : interpret a p n ip m = some r) : ∃ k, k < n ∧ interpret a p k target m' = some r := by
  cases n with
  | zero => cases h
  | succ n =>
    rw [interpret_succ, hadv] at h
    exact ⟨n, Nat.lt_succ_self n, h⟩

namespace Realizes

variable {a : Addressing} {p : Program} {entry mid leave : Nat} {m m₁ m' : Machine}
  {R S : Store → Store → Prop}

theorem refl (entry : Nat) (m : Machine) :
    Realizes a p entry m entry m (fun st st' => st' = st) where
  complete h := ⟨0, h ▸ .refl _ _⟩
  sound h := ⟨_, _, Nat.le_refl _, rfl, h⟩

/-- One after the other. -/
theorem seq (hR : Realizes a p entry m mid m₁ R) (hS : Realizes a p mid m₁ leave m' S) :
    Realizes a p entry m leave m' (fun st st' => ∃ mid, R st mid ∧ S mid st') where
  complete := by
    rintro st st' ⟨mid, h₁, h₂⟩
    obtain ⟨n₁, path₁⟩ := hR.complete h₁
    obtain ⟨n₂, path₂⟩ := hS.complete h₂
    exact ⟨n₁ + n₂, path₁.trans path₂⟩
  sound := by
    intro n st r h
    obtain ⟨mid, k₁, hk₁, h₁, hrun₁⟩ := hR.sound h
    obtain ⟨st', k₂, hk₂, h₂, hrun₂⟩ := hS.sound hrun₁
    exact ⟨st', k₂, by omega, ⟨mid, h₁, h₂⟩, hrun₂⟩

/-- One instruction, after which everything may depend on the store that it found. -/
theorem step_then {next : Store → Nat} {after : Store → Machine} {f : Store → Store}
    {T : Store → Store → Store → Prop}
    (hstep : ∀ st, (m.withStore st).advance a p entry =
      (.goto (next st), (after st).withStore (f st)))
    (hrest : ∀ st, Realizes a p (next st) (after st) leave m' (T st)) :
    Realizes a p entry m leave m' (fun st st' => T st (f st) st') where
  complete := by
    intro st st' h
    obtain ⟨n, path⟩ := (hrest st).complete h
    exact ⟨n + 1, .step (hstep st) path⟩
  sound := by
    intro n st r h
    obtain ⟨k, hk, hrun⟩ := interpret_of_advance (hstep st) h
    obtain ⟨st', k', hk', hT, hrun'⟩ := (hrest st).sound hrun
    exact ⟨st', k', by omega, hT, hrun'⟩

/-- A single instruction that acts on the store. -/
theorem single {f : Store → Store}
    (hstep : ∀ st, (m.withStore st).advance a p entry = (.goto leave, m'.withStore (f st))) :
    Realizes a p entry m leave m' (fun st st' => st' = f st) :=
  step_then (T := fun _ st st' => st' = st) hstep fun _ => refl leave m'

/-- A last instruction that changes nothing in the store. -/
theorem then_step (hR : Realizes a p entry m mid m₁ R)
    (hstep : ∀ st, (m₁.withStore st).advance a p mid = (.goto leave, m'.withStore st)) :
    Realizes a p entry m leave m' R where
  complete := by
    intro st st' h
    obtain ⟨n, path⟩ := hR.complete h
    exact ⟨n + 1, path.trans (.single (hstep st'))⟩
  sound := by
    intro n st r h
    obtain ⟨st', k, hk, hR', hrun⟩ := hR.sound h
    obtain ⟨k', hk', hrun'⟩ := interpret_of_advance (hstep st') hrun
    exact ⟨st', k', by omega, hR', hrun'⟩

/-- A branch on the popped word. -/
theorem branch {skipTo next : Nat}
    (hstep : ∀ st, (m.withStore st).advance a p entry =
      (.goto ((if st.data.top = 0 then skipTo else next : Nat) : Int), m.withStore st.dropTop))
    (hR : Realizes a p skipTo m leave m' R) (hS : Realizes a p next m leave m' S) :
    Realizes a p entry m leave m'
      (fun st st' => if st.data.top = 0 then R st.dropTop st' else S st.dropTop st') := by
  refine step_then (T := fun st u st' => if st.data.top = 0 then R u st' else S u st') hstep ?_
  intro st
  by_cases h : st.data.top = 0
  · simp only [h, if_true]
    exact hR
  · simp only [h, if_false]
    exact hS

/-- A loop that goes round while the popped word is not zero.  `m₁` is the machine inside the
loop, with the way back on top of its control stack. -/
theorem doWhile {last : Nat} (hbody : Realizes a p entry m₁ last m₁ R)
    (hleave : ∀ st : Store, st.data.top = 0 →
      (m₁.withStore st).advance a p last = (.goto leave, m'.withStore st.dropTop))
    (hagain : ∀ st : Store, st.data.top ≠ 0 →
      (m₁.withStore st).advance a p last = (.goto entry, m₁.withStore st.dropTop)) :
    Realizes a p entry m₁ leave m' (DoWhile R) where
  complete := by
    intro st st' h
    induction h with
    | leave hR hzero =>
      obtain ⟨n, path⟩ := hbody.complete hR
      exact ⟨n + 1, path.trans (.single (hleave _ hzero))⟩
    | again hR hne _ ih =>
      obtain ⟨n, path⟩ := hbody.complete hR
      obtain ⟨k, more⟩ := ih
      exact ⟨n + (k + 1), path.trans (.step (hagain _ hne) more)⟩
  sound := by
    -- every round takes fuel, so the rounds left need less of it
    intro n st r h
    induction n using Nat.strongRecOn generalizing st with
    | ind n ih =>
      obtain ⟨mid, k, hk, hR, hrun⟩ := hbody.sound h
      by_cases htop : mid.data.top = 0
      · obtain ⟨k', hk', hrun'⟩ := interpret_of_advance (hleave mid htop) hrun
        exact ⟨mid.dropTop, k', by omega, .leave hR htop, hrun'⟩
      · obtain ⟨k', hk', hrun'⟩ := interpret_of_advance (hagain mid htop) hrun
        obtain ⟨st', k'', hk'', hloop, hrun''⟩ := ih k' (by omega) hrun'
        exact ⟨st', k'', by omega, .again hR htop hloop, hrun''⟩

/-- A loop that counts down to zero.  `inside count` is the machine inside the loop, with the
counter and the way back on its control stack. -/
theorem countDown {last : Nat} {inside : Word → Machine}
    (hbody : ∀ count, Realizes a p entry (inside count) last (inside count) R)
    (hleave : ∀ count st, count - Word.one = 0 →
      ((inside count).withStore st).advance a p last = (.goto leave, m'.withStore st))
    (hagain : ∀ count st, count - Word.one ≠ 0 →
      ((inside count).withStore st).advance a p last =
        (.goto entry, (inside (count - Word.one)).withStore st)) (count : Word) :
    Realizes a p entry (inside count) leave m' (CountDown R count) where
  complete := by
    intro st st' h
    induction h with
    | leave hR hzero =>
      obtain ⟨n, path⟩ := (hbody _).complete hR
      exact ⟨n + 1, path.trans (.single (hleave _ _ hzero))⟩
    | again hR hne _ ih =>
      obtain ⟨n, path⟩ := (hbody _).complete hR
      obtain ⟨k, more⟩ := ih
      exact ⟨n + (k + 1), path.trans (.step (hagain _ _ hne) more)⟩
  sound := by
    intro n st r h
    induction n using Nat.strongRecOn generalizing st count with
    | ind n ih =>
      obtain ⟨mid, k, hk, hR, hrun⟩ := (hbody count).sound h
      by_cases hcount : count - Word.one = 0
      · obtain ⟨k', hk', hrun'⟩ := interpret_of_advance (hleave count mid hcount) hrun
        exact ⟨mid, k', by omega, .leave hR hcount, hrun'⟩
      · obtain ⟨k', hk', hrun'⟩ := interpret_of_advance (hagain count mid hcount) hrun
        obtain ⟨st', k'', hk'', hloop, hrun''⟩ := ih k' (by omega) _ hrun'
        exact ⟨st', k'', by omega, .again hR hcount hloop, hrun''⟩

end Realizes

/-! ## The instructions of the constructs -/

section Constructs

variable {a : Addressing} {p : Program} {k last : Nat} {m : Machine}

theorem advance_leaf (l : Leaf m.addressing) (h : p[k]? = some l.instruction) (st : Store) :
    (m.withStore st).advance m.addressing p k =
      (.goto (k + 1 : Nat), m.withStore (l.run m.toContext st)) := by
  rw [advance_of_getElem? h]
  exact execute_leaf (m := m.withStore st) l (k + 1) k

theorem advance_branch (h : p[k]? = some (.op .branch none (some last))) (st : Store) :
    (m.withStore st).advance a p k =
      (.goto ((if st.data.top = 0 then last + 1 else k + 1 : Nat) : Int),
        m.withStore st.dropTop) := by
  rw [advance_of_getElem? h]
  show (Flow.goto (if st.data.top = 0 then ((last + 1 : Nat) : Int) else ((k + 1 : Nat) : Int)),
    m.withStore st.dropTop) = _
  split <;> rfl

theorem advance_otherwise (h : p[k]? = some (.op .otherwise none (some last))) :
    m.advance a p k = (.goto (last + 1 : Nat), m) := by
  rw [advance_of_getElem? h]
  rfl

theorem advance_endBranch (h : p[k]? = some (.plain .endBranch)) :
    m.advance a p k = (.goto (k + 1 : Nat), m) := by
  rw [advance_of_getElem? h]
  rfl

/-- The machine inside a loop whose body starts at `entry`. -/
def inLoop (m : Machine) (entry : Nat) : Machine :=
  { m with control := m.control.push (Word.ofAddress entry) }

theorem advance_begin {target : Option Nat} (h : p[k]? = some (.op .begin none target))
    (st : Store) :
    (m.withStore st).advance a p k =
      (.goto (k + 1 : Nat), (m.inLoop (k + 1)).withStore st) := by
  rw [advance_of_getElem? h]
  rfl

/-- The end of a round of a loop: the way back leads to the body, not to the opener. -/
theorem advance_loopWhile (entry : Nat) (hroom : m.control.size < m.control.capacity)
    (h : p[k]? = some (.plain .loopWhile)) (st : Store) :
    ((m.inLoop entry).withStore st).advance a p k =
      if st.data.top = 0 then (.goto (k + 1 : Nat), m.withStore st.dropTop)
      else (.goto (Word.ofAddress entry).offset, (m.inLoop entry).withStore st.dropTop) := by
  have htop : (m.inLoop entry).control.top = Word.ofAddress entry := Stack.top_push hroom
  have hdrop : (m.inLoop entry).control.drop = m.control := Stack.drop_push hroom
  rw [advance_of_getElem? h]
  show transfer ((m.inLoop entry).withStore st) (.loopWhile (k + 1)) = _
  simp only [transfer, withStore, Stack.pop, htop, hdrop]
  rfl

/-- The machine inside a counted loop whose body starts at `entry`. -/
def inCountedLoop (m : Machine) (entry : Nat) (count : Word) : Machine :=
  { m with control := (m.control.push count).push (Word.ofAddress entry) }

theorem advance_times_popped {target : Option Nat} (h : p[k]? = some (.op .times none target))
    (st : Store) :
    (m.withStore st).advance a p k =
      (.goto (k + 1 : Nat), (m.inCountedLoop (k + 1) st.data.top).withStore st.dropTop) := by
  rw [advance_of_getElem? h]
  rfl

theorem advance_times_fused {count : Word} {target : Option Nat}
    (h : p[k]? = some (.op .times (some count) target)) (st : Store) :
    (m.withStore st).advance a p k =
      (.goto (k + 1 : Nat), (m.inCountedLoop (k + 1) count).withStore st) := by
  rw [advance_of_getElem? h]
  rfl

/-- The end of a round: the counter under the way back is counted down, and both words go when it
comes to zero. -/
theorem transfer_countDown {control : Stack} {count marker : Word}
    (hroom : control.size + 2 ≤ control.capacity)
    (hcontrol : m.control = (control.push count).push marker) (next : Nat) :
    m.transfer (.countDown next) =
      if count - Word.one = 0 then (.goto next, { m with control })
      else (.goto marker.offset,
        { m with control := (control.push (count - Word.one)).push marker }) := by
  have hsize : ¬ m.control.size < 2 := by
    rw [hcontrol, Stack.size_push_push hroom]
    omega
  have hcount : m.control.fromTop 1 = count := hcontrol ▸ Stack.fromTop_push_push hroom
  have htop : m.control.top = marker := hcontrol ▸ Stack.top_push (Stack.room_push hroom)
  have hdrop : m.control.drop.drop = control := hcontrol ▸ Stack.drop_drop_push_push hroom
  have hput : m.control.putFromTop 1 (count - Word.one) =
      (control.push (count - Word.one)).push marker :=
    hcontrol ▸ Stack.putFromTop_push_push hroom _
  simp only [transfer, hsize, hcount, htop, hdrop, hput, if_false]

/-- The end of a round of a counted loop. -/
theorem advance_loop (entry : Nat) (hroom : m.control.size + 2 ≤ m.control.capacity)
    (h : p[k]? = some (.plain .loop)) (count : Word) (st : Store) :
    ((m.inCountedLoop entry count).withStore st).advance a p k =
      if count - Word.one = 0 then (.goto (k + 1 : Nat), m.withStore st)
      else (.goto (Word.ofAddress entry).offset,
        (m.inCountedLoop entry (count - Word.one)).withStore st) := by
  rw [advance_of_getElem? h]
  exact transfer_countDown (m := (m.inCountedLoop entry count).withStore st) hroom rfl (k + 1)

end Constructs
end Machine

/-! ## The induction over the tree -/

/-- `q` is the part of `p` that starts at `k`. -/
def Program.StandsAt (p : Program) (k : Nat) (q : Program) : Prop := q <+: p.drop k

namespace Program.StandsAt

variable {p q q' : Program} {k : Nat} {i : Instruction}

theorem head (h : p.StandsAt k (i :: q)) : p[k]? = some i := by
  obtain ⟨rest, hrest⟩ := h
  rw [← Nat.add_zero k, ← List.getElem?_drop, ← hrest]
  rfl

theorem left (h : p.StandsAt k (q ++ q')) : p.StandsAt k q := (List.prefix_append q q').trans h

theorem right (h : p.StandsAt k (q ++ q')) : p.StandsAt (k + q.length) q' := by
  obtain ⟨rest, hrest⟩ := h
  refine ⟨rest, ?_⟩
  rw [← List.drop_drop, ← hrest, List.append_assoc, List.drop_left]

theorem tail (h : p.StandsAt k (i :: q)) : p.StandsAt (k + 1) q := right (q := [i]) h

end Program.StandsAt

namespace Structured

open Machine (Realizes)

variable {a : Addressing} {p : Program} {k : Nat} {m : Machine} {s t : Structured a}

/-- What the run of a tree at `k` relies on: its instructions stand there, addresses fit into
words, and the control stack has room for the loops. -/
structure Ready (p : Program) (k : Nat) (t : Structured a) (m : Machine) : Prop where
  code : p.StandsAt k (t.linked k)
  addressing : m.addressing = a
  short : k + t.size < 2147483648
  room : m.control.size + 2 * t.loopDepth ≤ m.control.capacity

theorem after_linked {rest : Program} (h : p.StandsAt k (s.linked k ++ rest)) :
    p.StandsAt (k + s.size) rest := by
  have := h.right
  rwa [length_linked] at this

/-- **The induction over the tree**: where a tree stands, the program acts as its evaluation. -/
theorem realizes_eval (h : Ready p k t m) :
    Realizes a p k m (k + t.size) m (t.Eval m.toContext) := by
  induction t generalizing k m with
  | skip => exact .refl k m
  | leaf l =>
    obtain ⟨hcode, rfl, -, -⟩ := h
    exact .single (Machine.advance_leaf l hcode.head)
  | seq s t hs ht =>
    obtain ⟨hcode, ha, hshort, hroom⟩ := h
    simp only [size, loopDepth] at hshort hroom
    have hleft := hs ⟨hcode.left, ha, by omega, by omega⟩
    have hright := ht ⟨after_linked hcode, ha, by omega, by omega⟩
    rw [Nat.add_assoc] at hright
    exact hleft.seq hright
  | when s hs =>
    obtain ⟨hcode, ha, hshort, hroom⟩ := h
    simp only [size, loopDepth] at hshort hroom
    have hbody := hs ⟨hcode.tail.left, ha, by omega, hroom⟩
    have hend := (after_linked hcode.tail).head
    have hthen := hbody.then_step fun st => Machine.advance_endBranch hend (m := m.withStore st)
    rw [show k + (Structured.when s).size = k + 1 + s.size + 1 by simp only [size]; omega]
    exact .branch (Machine.advance_branch hcode.head) (.refl _ m) hthen
  | ifElse s t hs ht =>
    obtain ⟨hcode, ha, hshort, hroom⟩ := h
    simp only [size, loopDepth] at hshort hroom
    have hcode₁ := after_linked hcode.tail
    have hcode₂ := after_linked hcode₁.tail
    have hbody := hs ⟨hcode.tail.left, ha, by omega, by omega⟩
    have helse := ht ⟨hcode₁.tail.left, ha, by omega, by omega⟩
    have hthen := hbody.then_step fun st =>
      Machine.advance_otherwise hcode₁.head (m := m.withStore st)
    have helse' := helse.then_step fun st =>
      Machine.advance_endBranch hcode₂.head (m := m.withStore st)
    rw [show k + (Structured.ifElse s t).size = k + 1 + s.size + 1 + t.size + 1 by
      simp only [size]; omega]
    exact .branch (Machine.advance_branch hcode.head) helse' hthen
  | doWhile s hs =>
    obtain ⟨hcode, ha, hshort, hroom⟩ := h
    simp only [size, loopDepth] at hshort hroom
    have hlast := (after_linked hcode.tail).head
    have hentry : (Word.ofAddress (k + 1)).offset = (k + 1 : Nat) :=
      Word.offset_ofAddress (by omega)
    have hcontrol : (m.inLoop (k + 1)).control.size = m.control.size + 1 :=
      Stack.size_push_of_lt (by omega)
    have hcapacity : (m.inLoop (k + 1)).control.capacity = m.control.capacity :=
      Stack.capacity_push
    have hbody := hs (m := m.inLoop (k + 1)) ⟨hcode.tail.left, ha, by omega, by omega⟩
    have hround := Machine.advance_loopWhile (a := a) (m := m) (k + 1) (by omega) hlast
    rw [show k + (Structured.doWhile s).size = k + 1 + s.size + 1 by simp only [size]; omega]
    refine .step_then (T := fun _ => DoWhile (s.Eval m.toContext))
      (Machine.advance_begin hcode.head) fun _ => .doWhile hbody ?_ ?_
    · intro st hzero
      rw [hround st, if_pos hzero]
    · intro st hne
      rw [hround st, if_neg hne, hentry]
  | times count s hs =>
    obtain ⟨hcode, ha, hshort, hroom⟩ := h
    simp only [size, loopDepth] at hshort hroom
    have hlast := (after_linked hcode.tail).head
    have hentry : (Word.ofAddress (k + 1)).offset = (k + 1 : Nat) :=
      Word.offset_ofAddress (by omega)
    have hround := Machine.advance_loop (a := a) (m := m) (k + 1) (by omega) hlast
    have hbody : ∀ c, Realizes a p (k + 1) (m.inCountedLoop (k + 1) c) (k + 1 + s.size)
        (m.inCountedLoop (k + 1) c) (s.Eval m.toContext) := by
      intro c
      have hcontrol : (m.inCountedLoop (k + 1) c).control.size = m.control.size + 2 :=
        Stack.size_push_push (by omega)
      have hcapacity : (m.inCountedLoop (k + 1) c).control.capacity = m.control.capacity := by
        simp [Machine.inCountedLoop]
      exact hs (m := m.inCountedLoop (k + 1) c) ⟨hcode.tail.left, ha, by omega, by omega⟩
    have hloop : ∀ c, Realizes a p (k + 1) (m.inCountedLoop (k + 1) c) (k + 1 + s.size + 1) m
        (CountDown (s.Eval m.toContext) c) := by
      refine .countDown hbody ?_ ?_
      · intro c st hzero
        rw [hround c st, if_pos hzero]
      · intro c st hne
        rw [hround c st, if_neg hne, hentry]
    rw [show k + (Structured.times count s).size = k + 1 + s.size + 1 by simp only [size]; omega]
    cases count with
    | none =>
      exact .step_then (T := fun st => CountDown (s.Eval m.toContext) st.data.top)
        (Machine.advance_times_popped hcode.head) fun st => hloop st.data.top
    | some c =>
      exact .step_then (T := fun _ => CountDown (s.Eval m.toContext) c)
        (Machine.advance_times_fused hcode.head) fun _ => hloop c

/-- **Structured programs run as written.**  On a machine whose control stack has room for two
words for every level of loops, the resolved and compiled program halts at its end, with the data
stack `data`, the memory `memory` and the control stack it started with, exactly when the
evaluation of the tree ends in that data stack and memory. -/
theorem dispatch_structured_iff_eval (t : Structured a) (ha : m.addressing = a)
    (hshort : t.instructions.length < 2 ^ 31)
    (hroom : m.control.size + 2 * t.loopDepth ≤ m.control.capacity) (data : Stack)
    (memory : Memory) :
    (∃ fuel m', Machine.dispatch ((Program.resolve t.instructions).compile a) fuel 0 m =
        some (.halted .endOfProgram, m') ∧
      m'.data = data ∧ m'.memory = memory ∧ m'.control = m.control) ↔
    t.Eval m.toContext ⟨m.data, m.memory⟩ ⟨data, memory⟩ := by
  rw [resolve_instructions]
  rw [length_instructions] at hshort
  have hcode : (t.linked 0).StandsAt 0 (t.linked 0) := List.prefix_rfl
  have hreal := realizes_eval (p := t.linked 0) ⟨hcode, ha, by omega, hroom⟩
  have hend : ∀ n (m : Machine), Machine.interpret a (t.linked 0) (n + 1) (0 + t.size : Nat) m =
      some (.halted .endOfProgram, m) := by
    intro n m
    rw [Machine.interpret_succ, Nat.zero_add, ← length_linked t 0, Machine.advance_length]
    rfl
  constructor
  · rintro ⟨fuel, m', hrun, rfl, rfl, -⟩
    obtain ⟨n, hn⟩ := Machine.interpret_of_dispatch hrun
    rw [← Machine.withStore_store m] at hn
    obtain ⟨st', j, -, heval, hrest⟩ := hreal.sound hn
    cases j with
    | zero => cases hrest
    | succ j =>
      rw [hend] at hrest
      cases hrest
      exact heval
  · intro heval
    obtain ⟨n, path⟩ := hreal.complete heval
    have hrun := (path.interpret_add 1).trans (hend 0 _)
    obtain ⟨fuel, hfuel⟩ := Machine.dispatch_of_interpret hrun
    exact ⟨fuel, _, hfuel, rfl, rfl, rfl⟩

/-- Two rounds of `2X 0 ? 1 : 5 ; L` on a fresh machine. -/
theorem counted_branch_halts :
    let t : Structured .full := .times (some 0x20000) (.seq (.leaf ⟨.push 0, rfl⟩)
      (.ifElse (.leaf ⟨.push 0x10000, rfl⟩) (.leaf ⟨.push 0x50000, rfl⟩)))
    ∃ fuel m', Machine.dispatch ((Program.resolve t.instructions).compile .full) fuel 0
        (Machine.fresh .full) = some (.halted .endOfProgram, m') ∧
      m'.data = ⟨dataCapacity, #[0x50000, 0x50000]⟩ ∧ m'.memory = .zero ∧
      m'.control = .empty controlCapacity := by
  intro t
  refine (dispatch_structured_iff_eval t rfl (by decide) (by decide) _ _).2 ?_
  refine .again ⟨_, rfl, Eq.mpr (if_pos rfl) rfl⟩ (by decide) ?_
  exact .leave ⟨_, rfl, Eq.mpr (if_pos rfl) rfl⟩ (by decide)

end Structured
end GlyphMachine
