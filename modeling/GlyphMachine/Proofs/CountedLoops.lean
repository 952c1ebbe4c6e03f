import Mathlib
import GlyphMachine.Proofs.Fusion
import GlyphMachine.Proofs.StructuredRuns
import GlyphMachine.Proofs.Trails

/-!
# Counted loops run as often as they count

The counter of a loop is a word: it is counted down by one, wraps around, and the loop is left when
it comes to zero.  So a loop counts by the whole half of its count, a count of zero goes through all
the whole halves, and a count with a fraction never comes to zero.  The body may be anything that
brings the control stack back as it found it.

* `Word.rounds`, `Word.sub_eq_zero_iff_last` — after how many rounds a counter comes to zero.
* `Machine.BodyReturns` — what is asked of the body.
* `Machine.Round`, `Round.Counts` — one round of the loop; `exists_rounds` is the induction over
  rounds.
* `counted_loops_count` — how often the closer is performed, what the counter is in every round, and
  where and with what control stack the loop is left.
-/

namespace GlyphMachine

/-! ## Counting down -/

namespace Word

/-- How many rounds a loop has that starts with the count `c`: as many as the whole half says, all
of them when the count is zero. -/
def rounds (c : Word) : Nat := if c = 0 then 65536 else c.whole.toNat

theorem sub_ofNat_succ (c : Word) (r : Nat) :
    c - .ofNat (r + 1) * one = c - .ofNat r * one - one := by
  rw [Int32.ofNat_add]
  grind

theorem sub_ofNat_zero (c : Word) : c - .ofNat 0 * one = c := by simp

theorem toNat_halves (c : Word) :
    c.toUInt32.toNat = c.whole.toNat * 65536 + c.fraction.toNat := by
  have hlt := c.toUInt32.toNat_lt
  simp [whole, fraction]
  omega

theorem toNat_ofNat_mul_one (r : Nat) :
    (Int32.ofNat r * one).toUInt32.toNat = r * 65536 % 4294967296 := by
  have hone : one.toUInt32.toNat = 65536 := rfl
  simp [hone]

theorem sub_eq_zero_iff (c : Word) (r : Nat) :
    c - .ofNat r * one = 0 ↔ c.toUInt32.toNat = r * 65536 % 4294967296 := by
  rw [Int32.sub_eq_iff_eq_add, Int32.zero_add, ← toNat_ofNat_mul_one]
  constructor
  · intro h
    rw [h]
  · intro h
    exact Int32.toBitVec_inj.1 (BitVec.toNat_inj.1 h)

/-- A counter with a fraction never comes to zero. -/
theorem sub_ne_zero {c : Word} (h : c.fraction ≠ 0) (r : Nat) : c - .ofNat r * one ≠ 0 := by
  have hfraction : c.fraction.toNat ≠ 0 := fun hzero => h (UInt16.toNat_inj.1 hzero)
  have hlt := c.fraction.toNat_lt
  rw [ne_eq, sub_eq_zero_iff, toNat_halves]
  omega

section Whole

variable {c : Word} (h : c.fraction = 0)
include h

theorem toNat_of_whole : c.toUInt32.toNat = c.whole.toNat * 65536 := by
  rw [toNat_halves, h, UInt16.toNat_zero, Nat.add_zero]

theorem rounds_pos : 0 < c.rounds := by
  unfold rounds
  split
  · decide
  · rename_i hne
    by_contra hzero
    have hwhole : c.toUInt32.toNat = 0 := by
      rw [toNat_of_whole h]
      omega
    exact hne (Int32.toBitVec_inj.1 (BitVec.toNat_inj.1 hwhole))

/-- **A counter without a fraction comes to zero in the last round** and not before. -/
theorem sub_eq_zero_iff_last {r : Nat} (hpos : 0 < r) (hle : r ≤ c.rounds) :
    c - .ofNat r * one = 0 ↔ r = c.rounds := by
  have hlt := c.whole.toNat_lt
  rw [sub_eq_zero_iff, toNat_of_whole h]
  unfold rounds at hle ⊢
  split
  · rename_i hzero
    subst hzero
    have hwhole : (0 : Word).whole.toNat = 0 := rfl
    rw [if_pos rfl] at hle
    omega
  · rename_i hne
    rw [if_neg hne] at hle
    omega

end Whole
end Word

namespace Machine

variable {a : Addressing} {p : Program} {s e : Nat} {closer : Instruction} {m n : Machine}
  {c k : Word}

/-! ## One round -/

/-- The body of a counted loop from `s` to `e`, on the control stack of `m`: a run that enters it
with a counter and the way back on top of that stack reaches the closer, and when it first does the
control stack is as it was. -/
def BodyReturns (a : Addressing) (p : Program) (s e : Nat) (m : Machine) : Prop :=
  ∀ (k : Word) (n : Machine), n.fixed = m.fixed →
    n.control = (m.control.push k).push (Word.ofAddress (s + 1)) →
    ∃ body n', Trail a p (s + 1 : Nat) n body e n' ∧ (∀ v ∈ body, v.addr ≠ e) ∧
      n'.control = n.control

/-- A round of a loop. -/
structure Round where
  /-- The machine that enters the body. -/
  entry : Machine
  /-- The instructions of the body. -/
  body : List Visit
  /-- The machine that reaches the closer. -/
  last : Machine

namespace Round

/-- All instructions of a round: those of the body, and the closer. -/
def visits (e : Nat) (closer : Instruction) (r : Round) : List Visit :=
  r.body ++ [⟨e, closer, r.last⟩]

/-- What a round is in which the counter is `k`, on the control stack `control`. -/
structure Counts (a : Addressing) (p : Program) (s e : Nat) (control : Stack) (k : Word)
    (r : Round) : Prop where
  /-- The counter and the way back are on the control stack. -/
  entered : r.entry.control = (control.push k).push (Word.ofAddress (s + 1))
  /-- The counter is the index that the body can read. -/
  index : r.entry.perform (s + 1) (.plain .index) =
    (.goto (s + 2 : Nat), { r.entry with data := r.entry.data.push k })
  trail : Trail a p (s + 1 : Nat) r.entry r.body e r.last
  /-- The closer is not performed before. -/
  first : ∀ v ∈ r.body, v.addr ≠ e
  kept : r.last.control = r.entry.control

end Round

/-- The index is the counter under the way back. -/
theorem perform_index {control : Stack} {marker : Word}
    (hroom : control.size + 2 ≤ control.capacity)
    (hcontrol : n.control = (control.push k).push marker) (addr : Nat) :
    n.perform addr (.plain .index) =
      (.goto (addr + 1 : Nat), { n with data := n.data.push k }) := by
  have hindex : n.control.fromTop 1 = k := hcontrol ▸ Stack.fromTop_push_push hroom
  show (Flow.goto (addr + 1 : Nat), { n with data := n.data.push (n.control.fromTop 1) }) = _
  rw [hindex]

/-- Every entry of the body begins a round. -/
theorem BodyReturns.exists_round (hbody : BodyReturns a p s e m)
    (hroom : m.control.size + 2 ≤ m.control.capacity) (hfixed : n.fixed = m.fixed)
    (hcontrol : n.control = (m.control.push k).push (Word.ofAddress (s + 1))) :
    ∃ r : Round, r.entry = n ∧ r.Counts a p s e m.control k := by
  obtain ⟨body, last, htrail, hfirst, hkept⟩ := hbody k n hfixed hcontrol
  have hindex := perform_index hroom hcontrol (s + 1)
  exact ⟨⟨n, body, last⟩, rfl, hcontrol, hindex, htrail, hfirst, hkept⟩

section Closer

variable (hcloser : p[e]? = some closer) (hloop : closer.opcode? = some .loop)
include hloop

theorem execute_closer (n : Machine) :
    n.execute (e + 1) (closer.lower a e) = n.transfer (.countDown (e + 1)) := by
  cases closer with
  | push w => cases hloop
  | op code literal target =>
    cases hloop
    rfl

theorem transfers_closer (n : Machine) : Visit.transfers a ⟨e, closer, n⟩ = true := by
  cases closer with
  | push w => cases hloop
  | op code literal target =>
    cases hloop
    rfl

variable {control : Stack} (hroom : control.size + 2 ≤ control.capacity)
include hcloser hroom

/-- A round after which the counter is not zero goes back to the body. -/
theorem Round.Counts.again {r : Round} (hr : r.Counts a p s e control k)
    (hshort : s + 1 < 2147483648) (hne : k - Word.one ≠ 0) :
    Trail a p (s + 1 : Nat) r.entry (r.visits e closer) (s + 1 : Nat)
      { r.last with control := (control.push (k - Word.one)).push (Word.ofAddress (s + 1)) } := by
  refine hr.trail.trans (.single hcloser ?_)
  rw [execute_closer hloop, transfer_countDown hroom (hr.kept.trans hr.entered), if_neg hne,
    Word.offset_ofAddress hshort]

/-- A round after which the counter is zero leaves the loop. -/
theorem Round.Counts.leave {r : Round} (hr : r.Counts a p s e control k)
    (hzero : k - Word.one = 0) :
    Trail a p (s + 1 : Nat) r.entry (r.visits e closer) (e + 1 : Nat) { r.last with control } := by
  refine hr.trail.trans (.single hcloser ?_)
  rw [execute_closer hloop, transfer_countDown hroom (hr.kept.trans hr.entered), if_pos hzero]

end Closer

/-! ## All rounds -/

/-- Rounds on the control stack `control` in which a counter is counted down from `c` on. -/
def CountsDown (a : Addressing) (p : Program) (s e : Nat) (control : Stack) (c : Word)
    (rounds : List Round) : Prop :=
  ∀ (r : Nat) (round : Round), rounds[r]? = some round →
    round.Counts a p s e control (c - .ofNat r * Word.one)

theorem CountsDown.concat {control : Stack} {rounds : List Round} {round : Round}
    (h : CountsDown a p s e control c rounds)
    (hround : round.Counts a p s e control (c - .ofNat rounds.length * Word.one)) :
    CountsDown a p s e control c (rounds ++ [round]) := by
  intro r other hr
  by_cases hlt : r < rounds.length
  · rw [List.getElem?_append_left hlt] at hr
    exact h r other hr
  · have hlength : r < (rounds ++ [round]).length := (List.getElem?_eq_some_iff.1 hr).1
    rw [List.length_append, List.length_singleton] at hlength
    obtain rfl : r = rounds.length := by omega
    rw [List.getElem?_concat_length] at hr
    cases hr
    exact hround

section Rounds

variable (hbody : BodyReturns a p s e m) (hroom : m.control.size + 2 ≤ m.control.capacity)
  (hcloser : p[e]? = some closer) (hloop : closer.opcode? = some .loop)
  (hshort : s + 1 < 2147483648) (hfixed : n.fixed = m.fixed)
  (hcontrol : n.control = (m.control.push c).push (Word.ofAddress (s + 1)))
include hbody hroom hcloser hloop hshort hfixed hcontrol

/-- **The induction over rounds**: as long as the counter does not come to zero, one round follows
the other. -/
theorem exists_rounds (count : Nat)
    (hne : ∀ r, 0 < r → r ≤ count → c - .ofNat r * Word.one ≠ 0) :
    ∃ rounds n', rounds.length = count ∧ CountsDown a p s e m.control c rounds ∧
      Trail a p (s + 1 : Nat) n (rounds.flatMap (·.visits e closer)) (s + 1 : Nat) n' ∧
      n'.fixed = m.fixed ∧
      n'.control =
        (m.control.push (c - .ofNat count * Word.one)).push (Word.ofAddress (s + 1)) := by
  induction count with
  | zero =>
    refine ⟨[], n, rfl, fun r round hr => by simp at hr, .refl _ n, hfixed, ?_⟩
    rw [Word.sub_ofNat_zero]
    exact hcontrol
  | succ count ih =>
    obtain ⟨rounds, n', rfl, hcounts, htrail, hfixed', hcontrol'⟩ :=
      ih fun r hpos hle => hne r hpos (Nat.le_succ_of_le hle)
    obtain ⟨round, rfl, hround⟩ := hbody.exists_round hroom hfixed' hcontrol'
    have hnext := hne (rounds.length + 1) (Nat.succ_pos _) (Nat.le_refl _)
    rw [Word.sub_ofNat_succ] at hnext ⊢
    have hlast := hround.again hcloser hloop hroom hshort hnext
    have htrail' := htrail.trans hlast
    refine ⟨rounds ++ [round], _, by simp, hcounts.concat hround, ?_,
      hlast.fixed.trans hfixed', rfl⟩
    rw [List.flatMap_append, List.flatMap_singleton]
    exact htrail'

/-- The last round leaves the loop. -/
theorem exists_rounds_leave (hwhole : c.fraction = 0) :
    ∃ rounds m', rounds.length = c.rounds ∧ CountsDown a p s e m.control c rounds ∧
      Trail a p (s + 1 : Nat) n (rounds.flatMap (·.visits e closer)) (e + 1 : Nat) m' ∧
      m'.control = m.control := by
  obtain ⟨count, hcount⟩ : ∃ count, c.rounds = count + 1 :=
    ⟨c.rounds - 1, by have := Word.rounds_pos hwhole; omega⟩
  obtain ⟨rounds, n', rfl, hcounts, htrail, hfixed', hcontrol'⟩ :=
    exists_rounds hbody hroom hcloser hloop hshort hfixed hcontrol count fun r hpos hle hzero => by
      rw [Word.sub_eq_zero_iff_last hwhole hpos (by omega)] at hzero
      omega
  obtain ⟨round, rfl, hround⟩ := hbody.exists_round hroom hfixed' hcontrol'
  have hzero : c - .ofNat rounds.length * Word.one - Word.one = 0 := by
    rw [← Word.sub_ofNat_succ]
    have hle : rounds.length + 1 ≤ c.rounds := Nat.le_of_eq hcount.symm
    exact (Word.sub_eq_zero_iff_last hwhole (Nat.succ_pos _) hle).2 hcount.symm
  refine ⟨rounds ++ [round], { round.last with control := m.control }, by simp [hcount],
    hcounts.concat hround, ?_, rfl⟩
  rw [List.flatMap_append, List.flatMap_singleton]
  exact htrail.trans (hround.leave hcloser hloop hroom hzero)

end Rounds

/-! ## The loop -/

/-- What a loop performs: the opener, and then its rounds. -/
def loopVisits (s e : Nat) (opener closer : Instruction) (m : Machine) (rounds : List Round) :
    List Visit :=
  ⟨s, opener, m⟩ :: rounds.flatMap (·.visits e closer)

/-- A run of the loop from the opener at `s`, in the state `m`, through the given rounds to `leave`,
in the state `m'`. -/
structure LoopRun (a : Addressing) (p : Program) (s e : Nat) (opener closer : Instruction)
    (m : Machine) (c : Word) (rounds : List Round) (leave : Nat) (m' : Machine) : Prop where
  counts : CountsDown a p s e m.control c rounds
  /-- The closer is performed once in every round. -/
  closers : (loopVisits s e opener closer m rounds).countP (·.addr = e) = rounds.length
  /-- After the opener nothing is performed but the bodies and the closer. -/
  inside : ∀ v ∈ (loopVisits s e opener closer m rounds).tail,
    v.addr = e ∨ ∃ r ∈ rounds, v ∈ r.body
  /-- The code performs these instructions, and then goes on at `leave`. -/
  code : ∃ blocks, visits a p blocks s m = loopVisits s e opener closer m rounds ∧
    ∀ fuel, dispatch (p.compile a) (blocks + fuel) s m = dispatch (p.compile a) fuel leave m'

theorem countP_rounds {rounds : List Round} (h : ∀ r ∈ rounds, ∀ v ∈ r.body, v.addr ≠ e) :
    (rounds.flatMap (·.visits e closer)).countP (·.addr = e) = rounds.length := by
  induction rounds with
  | nil => rfl
  | cons r rounds ih =>
    have hbody : r.body.countP (·.addr = e) = 0 :=
      List.countP_eq_zero.2 fun v hv => by simpa using h r List.mem_cons_self v hv
    rw [List.flatMap_cons, List.countP_append, ih fun r' hr' => h r' (List.mem_cons_of_mem r hr'),
      Round.visits, List.countP_append, hbody, List.length_cons]
    simp [Nat.add_comm]

theorem CountsDown.of_mem {control : Stack} {rounds : List Round} {round : Round}
    (h : CountsDown a p s e control c rounds) (hround : round ∈ rounds) :
    ∃ k, round.Counts a p s e control k := by
  obtain ⟨r, hr⟩ := List.mem_iff_getElem?.1 hround
  exact ⟨_, h r round hr⟩

/-- A trail through rounds is a run of the loop. -/
theorem LoopRun.of_trail {opener : Instruction} {rounds : List Round} {leave : Nat} {m' : Machine}
    (hloop : closer.opcode? = some .loop) (hne : s ≠ e) (hrounds : rounds ≠ [])
    (hcounts : CountsDown a p s e m.control c rounds)
    (htrail : Trail a p s m (loopVisits s e opener closer m rounds) leave m') :
    LoopRun a p s e opener closer m c rounds leave m' where
  counts := hcounts
  closers := by
    have hfirst : ∀ r ∈ rounds, ∀ v ∈ r.body, v.addr ≠ e := by
      intro r hr
      obtain ⟨k, hk⟩ := hcounts.of_mem hr
      exact hk.first
    rw [loopVisits, List.countP_cons_of_neg (by simpa using hne), countP_rounds hfirst]
  inside := by
    intro v hv
    obtain ⟨r, hr, hv⟩ := List.mem_flatMap.1 hv
    rcases List.mem_append.1 hv with hv | hv
    · exact .inr ⟨r, hr, hv⟩
    · rw [List.mem_singleton.1 hv]
      exact .inl rfl
  code := by
    refine htrail.dispatch_add fun v hv => ?_
    -- the last instruction is the closer of the last round
    obtain ⟨front, r, rfl⟩ := (List.eq_nil_or_concat rounds).resolve_left hrounds
    have hlast : loopVisits s e opener closer m (front.concat r) =
        (⟨s, opener, m⟩ :: front.flatMap (·.visits e closer) ++ r.body) ++
          [⟨e, closer, r.last⟩] := by
      simp [loopVisits, Round.visits]
    rw [hlast, List.getLast?_concat] at hv
    cases hv
    exact transfers_closer hloop _

/-- The opener puts the count and the way back on the control stack. -/
theorem exists_execute_times (a : Addressing) (s : Nat) (m : Machine) (literal : Option Word)
    (target : Option Nat) :
    ∃ n, m.execute (s + 1) ((Instruction.op .times literal target).lower a s) =
        (.goto (s + 1 : Nat), n) ∧
      n.fixed = m.fixed ∧
      n.control = (m.control.push (literal.getD m.data.top)).push (Word.ofAddress (s + 1)) := by
  have hfixed := fixed_execute m (s + 1) ((Instruction.op .times literal target).lower a s)
  cases literal with
  | none => exact ⟨_, rfl, hfixed, rfl⟩
  | some w => exact ⟨_, rfl, hfixed, rfl⟩

section Loop

variable {literal : Option Word} {target : Option Nat} (hshort : p.length < 2147483648)
  (hopener : p[s]? = some (.op .times literal target)) (hcloser : p[e]? = some closer)
  (hloop : closer.opcode? = some .loop)

include hopener hcloser hloop in
theorem opener_ne_closer : s ≠ e := by
  rintro rfl
  cases hopener.symm.trans hcloser
  cases hloop

include hshort hopener in
theorem entry_lt : s + 1 < 2147483648 := by
  obtain ⟨hs, -⟩ := List.getElem?_eq_some_iff.1 hopener
  omega

variable (hroom : m.control.size + 2 ≤ m.control.capacity) (hbody : BodyReturns a p s e m)
include hshort hopener hcloser hloop hroom hbody

/-- A loop whose count has no fraction is left after its last round. -/
theorem exists_loopRun_leave (hwhole : (literal.getD m.data.top).fraction = 0) :
    ∃ rounds m', rounds.length = (literal.getD m.data.top).rounds ∧
      LoopRun a p s e (.op .times literal target) closer m (literal.getD m.data.top) rounds
        (e + 1) m' ∧
      m'.control = m.control := by
  obtain ⟨n, hexec, hfixed, hcontrol⟩ := exists_execute_times a s m literal target
  obtain ⟨rounds, m', hlength, hcounts, htrail, hcontrol'⟩ :=
    exists_rounds_leave hbody hroom hcloser hloop (entry_lt hshort hopener) hfixed hcontrol hwhole
  have hpos := Word.rounds_pos hwhole
  have hrounds : rounds ≠ [] := by
    rintro rfl
    rw [List.length_nil] at hlength
    omega
  exact ⟨rounds, m', hlength, .of_trail hloop (opener_ne_closer hopener hcloser hloop) hrounds
    hcounts (.next hopener hexec htrail), hcontrol'⟩

section Endless

variable (hne : ∀ r, literal.getD m.data.top - .ofNat r * Word.one ≠ 0)
include hne

/-- A loop whose counter never comes to zero goes on for any number of rounds. -/
theorem exists_loopRun_again (count : Nat) :
    ∃ rounds m', rounds.length = count + 1 ∧
      LoopRun a p s e (.op .times literal target) closer m (literal.getD m.data.top) rounds
        (s + 1) m' ∧
      Trail a p s m (loopVisits s e (.op .times literal target) closer m rounds)
        (s + 1 : Nat) m' := by
  obtain ⟨n, hexec, hfixed, hcontrol⟩ := exists_execute_times a s m literal target
  obtain ⟨rounds, m', hlength, hcounts, htrail, -⟩ :=
    exists_rounds hbody hroom hcloser hloop (entry_lt hshort hopener) hfixed hcontrol (count + 1)
      fun r _ _ => hne r
  have htrail' := Trail.next hopener hexec htrail
  exact ⟨rounds, m', hlength, .of_trail hloop (opener_ne_closer hopener hcloser hloop)
    (List.ne_nil_of_length_eq_add_one hlength) hcounts htrail', htrail'⟩

/-- A loop whose counter never comes to zero never ends. -/
theorem dispatch_loop_eq_none (fuel : Nat) : dispatch (p.compile a) fuel s m = none := by
  rw [Option.eq_none_iff_forall_ne_some]
  intro r hr
  obtain ⟨steps, hsteps⟩ := interpret_of_dispatch hr
  -- the loop still goes on after as many steps as the run is said to end within
  obtain ⟨rounds, m', hlength, hrun, htrail⟩ :=
    exists_loopRun_again hshort hopener hcloser hloop hroom hbody hne steps
  have hclosers := hrun.closers ▸ List.countP_le_length
  cases (htrail.path.interpret_add 0).symm.trans (interpret_mono (by omega) hsteps)

end Endless
end Loop

/-- **Counted loops run as often as they count.**  Take a counted loop from `s` to `e`, with a
count that is popped or given, room on the control stack for the counter and the way back, and any
body that brings the control stack back.  If the count has no fraction, the closer is performed as
often as its whole half says, 65536 times if the count is zero; in round `r`, from zero, the counter
is the count less `r`; and the loop is left with the control stack that it found.  If the count has
a fraction, the counter never comes to zero: round follows round, and the run never ends. -/
theorem counted_loops_count {a : Addressing} {p : Program} {s e : Nat} {literal : Option Word}
    {target : Option Nat} {closer : Instruction} {m : Machine} (hshort : p.length < 2 ^ 31)
    (hopener : p[s]? = some (.op .times literal target)) (hcloser : p[e]? = some closer)
    (hloop : closer.opcode? = some .loop) (hroom : m.control.size + 2 ≤ m.control.capacity)
    (hbody : BodyReturns a p s e m) :
    let c := literal.getD m.data.top
    (c.fraction = 0 → ∃ rounds m', rounds.length = c.rounds ∧
      LoopRun a p s e (.op .times literal target) closer m c rounds (e + 1) m' ∧
      m'.control = m.control) ∧
    (c.fraction ≠ 0 → (∀ r, c - .ofNat r * Word.one ≠ 0) ∧
      (∀ n, ∃ rounds m', rounds.length = n + 1 ∧
        LoopRun a p s e (.op .times literal target) closer m c rounds (s + 1) m') ∧
      ∀ fuel, dispatch (p.compile a) fuel s m = none) := by
  intro c
  refine ⟨exists_loopRun_leave hshort hopener hcloser hloop hroom hbody, fun hfraction => ?_⟩
  have hne := Word.sub_ne_zero hfraction
  refine ⟨hne, fun n => ?_, dispatch_loop_eq_none hshort hopener hcloser hloop hroom hbody hne⟩
  obtain ⟨rounds, m', hlength, hrun, -⟩ :=
    exists_loopRun_again hshort hopener hcloser hloop hroom hbody hne n
  exact ⟨rounds, m', hlength, hrun⟩

/-- The index of every round is added to the data stack: with no word there, the loop has 65536
rounds, and from a half it never ends. -/
theorem zero_counts_through_and_half_never_ends :
    (∃ rounds m', rounds.length = 65536 ∧
      LoopRun .full (.parse "Xi+L") 0 3 (.op .times none (some 3)) (.plain .loop) (.fresh .full)
        0 rounds 4 m' ∧
      m'.control = .empty controlCapacity) ∧
    ∀ fuel, dispatch ((Program.parse "Xi+L").compile .full) fuel 0
      { fresh .full with data := (fresh .full).data.push 0x8000 } = none := by
  have hbody : ∀ m, BodyReturns .full (.parse "Xi+L") 0 3 m := fun m k n _ _ =>
    ⟨_, _, .next rfl rfl (.next rfl rfl (.refl _ _)), by simp, rfl⟩
  have hloop (m : Machine) (hroom : m.control.size + 2 ≤ m.control.capacity) :=
    counted_loops_count (by decide) rfl rfl rfl hroom (hbody m)
  refine ⟨(hloop (.fresh .full) (by decide)).1 (by decide), ?_⟩
  exact (hloop _ (by decide)).2 (by decide) |>.2.2

end Machine
end GlyphMachine
