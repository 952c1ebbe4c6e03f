import GlyphMachine.Proofs.Links

/-!
# Every closer takes the nearest opener that waits

The pairing pass keeps its openers in four lists, and a `:` takes a `?` out of the middle of one of
them.  Seen from a closer there is one list only: the openers that wait for it, nearest first.

* `Opcode.closes` — which closer may close which opener.
* `Pairing.waitingFor` — the openers that wait for a closer; `Pairing.closed?` is the first of them.
* `Pairing.Tracks` — before an address, the openers that wait are exactly those that may be closed
  and have not been, in descending order.  `Tracks.waitingFor_next` says what a step does to the
  lists, `Tracks.next` is the step of the invariant and `tracks_pairingUpTo` the run.
* `mem_links_pairingUpTo` — hence every link was made at its closer, with the first opener there.
* `closers_take_nearest` — so targets obey a law that does not mention the pass.
-/

namespace GlyphMachine

namespace Opcode

/-- Whether the closer may close the opener. -/
def closes : (closer opener : Opcode) → Bool
  | otherwise, branch => true
  | endBranch, branch => true
  | endBranch, otherwise => true
  | loopWhile, begin => true
  | loop, times => true
  | ret, define => true
  | _, _ => false

theorem closes_cases {closer opener : Opcode} (h : closer.closes opener = true) :
    (closer = otherwise ∧ opener = branch) ∨ (closer = endBranch ∧ opener = branch) ∨
      (closer = endBranch ∧ opener = otherwise) ∨ (closer = loopWhile ∧ opener = begin) ∨
      (closer = loop ∧ opener = times) ∨ (closer = ret ∧ opener = define) := by
  unfold closes at h
  split at h <;> simp at h ⊢

/-- Whether the instruction may be closed. -/
def isOpener : Opcode → Bool
  | branch | otherwise | begin | times | define => true
  | _ => false

theorem closes_eq_false {opener : Opcode} (h : opener.isOpener = false) (closer : Opcode) :
    closer.closes opener = false := by
  refine Bool.eq_false_iff.2 fun hcloses => ?_
  rcases closes_cases hcloses with
    ⟨-, rfl⟩ | ⟨-, rfl⟩ | ⟨-, rfl⟩ | ⟨-, rfl⟩ | ⟨-, rfl⟩ | ⟨-, rfl⟩ <;> cases h

/-- Whether the closer has a list of openers of its own. -/
def closesAlone : Opcode → Bool
  | loopWhile | loop | ret => true
  | _ => false

/-- An opener that such a closer may close can be closed by no other. -/
theorem eq_of_closesAlone {code closer opener : Opcode} (halone : code.closesAlone = true)
    (h : code.closes opener = true) (h' : closer.closes opener = true) : closer = code := by
  rcases closes_cases h with ⟨rfl, rfl⟩ | ⟨rfl, rfl⟩ | ⟨rfl, rfl⟩ | ⟨rfl, rfl⟩ | ⟨rfl, rfl⟩ |
    ⟨rfl, rfl⟩
  · cases halone
  · cases halone
  · cases halone
  · simpa using closes_cases h'
  · simpa using closes_cases h'
  · simpa using closes_cases h'

end Opcode

namespace Program

/-- The operation at an address. -/
def opcodeAt? (p : Program) (k : Nat) : Option Opcode := p[k]?.bind Instruction.opcode?

/-- The target of the instruction at an address. -/
def targetAt? (p : Program) (k : Nat) : Option Nat := p[k]?.bind Instruction.target?

/-- At `k` stands an opener that `closer` may close; a `:` is one only if a link ends there. -/
def Opens (p : Program) (links : List Link) (closer : Opcode) (k : Nat) : Prop :=
  ∃ opener, p.opcodeAt? k = some opener ∧ closer.closes opener = true ∧
    (opener = .otherwise → ∃ l ∈ links, l.closer = k)

namespace Pairing

variable {p : Program} {s s' : Pairing} {addr k : Nat} {closer code : Opcode} {i : Instruction}

/-! ## What waits for a closer -/

/-- The openers that wait for a closer, nearest first. -/
def waitingFor (s : Pairing) : Opcode → List Nat
  | .otherwise => (s.conditionals.filter Waiting.isBranch).map Waiting.address
  | .endBranch => s.conditionals.map Waiting.address
  | .loopWhile => s.loops
  | .loop => s.counted
  | .ret => s.definitions
  | _ => []

/-- The opener that an instruction closes: the nearest that waits for it. -/
def closed? (s : Pairing) (i : Instruction) : Option Nat :=
  i.opcode?.bind fun code => (s.waitingFor code).head?

/-- Whether an instruction will wait for the closer; a `:` does so only if it closes something. -/
def waits (s : Pairing) (i : Instruction) (closer : Opcode) : Bool :=
  i.opcode?.any fun code => closer.closes code && (code != .otherwise || (s.closed? i).isSome)

theorem head?_waitingFor_otherwise (s : Pairing) :
    (s.waitingFor .otherwise).head? =
      (s.conditionals.find? Waiting.isBranch).map Waiting.address := by
  rw [waitingFor, List.head?_map, List.head?_filter]

/-- **An instruction adds the link from the opener it closes**, and no other. -/
theorem links_next (s : Pairing) (addr : Nat) (i : Instruction) :
    (s.next addr i).links = ((s.closed? i).map (Link.mk · addr)).toList ++ s.links := by
  obtain ⟨conditionals, loops, counted, definitions, links⟩ := s
  cases i with
  | push w => rfl
  | op code literal target =>
    cases code with
    | otherwise =>
      simp only [next, closed?, Instruction.opcode?, closeBranch, Option.bind_some,
        head?_waitingFor_otherwise]
      cases conditionals.find? Waiting.isBranch <;> rfl
    | endBranch => cases conditionals <;> rfl
    | loopWhile => cases loops <;> rfl
    | loop => cases counted <;> rfl
    | ret => cases definitions <;> rfl
    | _ => rfl

/-- What holds of the pass before it reaches `addr`: the openers that wait are those that may be
closed and that no link starts from, in descending order. -/
structure Tracks (p : Program) (addr : Nat) (s : Pairing) : Prop where
  sorted : ∀ closer, (s.waitingFor closer).Pairwise (· > ·)
  mem : ∀ closer k, k ∈ s.waitingFor closer ↔
    k < addr ∧ p.Opens s.links closer k ∧ ∀ l ∈ s.links, l.opener ≠ k

/-! ## One step -/

/-- Taking the first of the openers away leaves those that differ from it. -/
theorem filter_ne_head {ks : List Nat} (h : ks.Pairwise (· > ·)) :
    ks.filter (fun k => ks.head? ≠ some k) = ks.tail := by
  cases ks with
  | nil => rfl
  | cons o rest =>
    rw [List.head?_cons, List.filter_cons_of_neg (by simp)]
    refine List.filter_eq_self.2 fun k hk => ?_
    have := (List.pairwise_cons.1 h).1 k hk
    simp
    omega

/-- Taking one half of a conditional away, wherever it waits, leaves those at other addresses. -/
theorem filter_ne_address {before after : List Waiting} {o : Waiting}
    (h : ((before ++ o :: after).map Waiting.address).Pairwise (· > ·)) (q : Waiting → Bool) :
    (((before ++ o :: after).filter q).map Waiting.address).filter
        (fun k => some o.address ≠ some k) =
      ((before ++ after).filter q).map Waiting.address := by
  rw [List.pairwise_map] at h
  obtain ⟨-, hafter, hbefore⟩ := List.pairwise_append.1 h
  have hne : ∀ half ∈ before ++ after, o.address ≠ half.address := by
    intro half hhalf
    rcases List.mem_append.1 hhalf with hmem | hmem
    · exact Nat.ne_of_lt (hbefore half hmem o List.mem_cons_self)
    · exact Nat.ne_of_gt ((List.pairwise_cons.1 hafter).1 half hmem)
  rw [List.filter_map, List.filter_filter, List.filter_append, List.filter_cons_of_neg (by simp),
    ← List.filter_append]
  congr 1
  refine List.filter_congr fun half hhalf => ?_
  simp [hne half hhalf]

/-- Openers that wait for two closers can be closed by both. -/
theorem Tracks.exists_opener (h : Tracks p addr s) (hcode : k ∈ s.waitingFor code)
    (hcloser : k ∈ s.waitingFor closer) :
    ∃ opener, code.closes opener = true ∧ closer.closes opener = true := by
  obtain ⟨-, ⟨opener, hopener, hcloses, -⟩, -⟩ := (h.mem code k).1 hcode
  obtain ⟨-, ⟨opener', hopener', hcloses', -⟩, -⟩ := (h.mem closer k).1 hcloser
  rw [hopener] at hopener'
  cases hopener'
  exact ⟨opener, hcloses, hcloses'⟩

/-- A closer with a list of its own takes the first opener from it. -/
theorem waitingFor_close (halone : code.closesAlone = true) (s : Pairing) (addr : Nat)
    (literal : Option Word) (target : Option Nat) (closer : Opcode) :
    (s.next addr (.op code literal target)).waitingFor closer =
      if closer = code then (s.waitingFor code).tail else s.waitingFor closer := by
  obtain ⟨conditionals, loops, counted, definitions, links⟩ := s
  cases code with
  | loopWhile => cases loops <;> cases closer <;> rfl
  | loop => cases counted <;> cases closer <;> rfl
  | ret => cases definitions <;> cases closer <;> rfl
  | _ => cases halone

theorem Tracks.waitingFor_close (h : Tracks p addr s) (halone : code.closesAlone = true)
    (literal : Option Word) (target : Option Nat) (closer : Opcode) :
    (s.next addr (.op code literal target)).waitingFor closer =
      (s.waitingFor closer).filter (fun k => (s.waitingFor code).head? ≠ some k) := by
  rw [Pairing.waitingFor_close halone]
  split
  · rename_i heq
    rw [heq, filter_ne_head (h.sorted code)]
  · rename_i hne
    refine (List.filter_eq_self.2 fun k hk => ?_).symm
    refine decide_eq_true fun hhead => hne ?_
    obtain ⟨opener, hcode, hcloser⟩ := h.exists_opener (List.mem_of_mem_head? hhead) hk
    exact Opcode.eq_of_closesAlone halone hcode hcloser

/-- Taking one half of a conditional away takes its address from every list. -/
theorem Tracks.waitingFor_remove (h : Tracks p addr s) {before after : List Waiting} {o : Waiting}
    (hsplit : s.conditionals = before ++ o :: after) (closer : Opcode) :
    { s with conditionals := before ++ after }.waitingFor closer =
      (s.waitingFor closer).filter (fun k => some o.address ≠ some k) := by
  have hsorted := h.sorted .endBranch
  simp only [waitingFor, hsplit] at hsorted
  have ho : o.address ∈ s.waitingFor .endBranch := by simp [waitingFor, hsplit]
  -- the other lists do not hold the address
  have hkept : closer.closesAlone = true →
      (s.waitingFor closer).filter (fun k => some o.address ≠ some k) = s.waitingFor closer := by
    intro halone
    refine List.filter_eq_self.2 fun k hk => ?_
    refine decide_eq_true fun heq => ?_
    cases heq
    obtain ⟨opener, hcloser, hend⟩ := h.exists_opener hk ho
    cases Opcode.eq_of_closesAlone halone hcloser hend
    cases halone
  cases closer with
  | otherwise =>
    simp only [waitingFor, hsplit]
    rw [filter_ne_address hsorted]
  | endBranch =>
    have hall : ∀ halves : List Waiting, halves.filter (fun _ => true) = halves :=
      fun halves => List.filter_eq_self.2 fun _ _ => rfl
    have hremoved := filter_ne_address hsorted fun _ => true
    rw [hall, hall] at hremoved
    simp only [waitingFor, hsplit]
    rw [hremoved]
  | loopWhile | loop | ret => exact (hkept rfl).symm
  | _ => rfl

/-- **What a step does to the openers that wait**: the one that is closed goes from every list, and
the instruction itself is put in front where it is going to wait. -/
theorem Tracks.waitingFor_next (h : Tracks p addr s) (i : Instruction) (closer : Opcode) :
    (s.next addr i).waitingFor closer = (if s.waits i closer then [addr] else []) ++
      (s.waitingFor closer).filter (fun k => s.closed? i ≠ some k) := by
  have hnone : (s.waitingFor closer).filter (fun k => (none : Option Nat) ≠ some k) =
      s.waitingFor closer := List.filter_eq_self.2 fun k _ => by simp
  cases i with
  | push w => exact hnone.symm
  | op code literal target =>
    have hclosed : s.closed? (.op code literal target) = (s.waitingFor code).head? := rfl
    have hwaits : s.waits (.op code literal target) closer = (closer.closes code &&
      (code != .otherwise || (s.waitingFor code).head?.isSome)) := rfl
    rw [hclosed, hwaits]
    cases code with
    | branch | begin | times | define =>
      rw [show (s.waitingFor _).head? = none from rfl, hnone]
      cases closer <;> rfl
    | otherwise =>
      simp only [next, Instruction.opcode?, closeBranch, head?_waitingFor_otherwise]
      cases hfind : s.conditionals.find? Waiting.isBranch with
      | none =>
        rw [Option.map_none, hnone]
        simp
      | some o =>
        obtain ⟨ho, before, after, hsplit, hbefore⟩ := List.find?_eq_some_iff_append.1 hfind
        have herase : s.conditionals.eraseP Waiting.isBranch = before ++ after := by
          rw [hsplit, List.eraseP_append_right _ (by simpa using hbefore),
            List.eraseP_cons_of_pos ho]
        rw [Option.map_some, ← h.waitingFor_remove hsplit, herase]
        cases closer <;> rfl
    | endBranch =>
      rw [Opcode.closes_eq_false rfl]
      simp only [next, Instruction.opcode?, closeConditional]
      cases hsplit : s.conditionals with
      | nil =>
        rw [show (s.waitingFor .endBranch).head? = none by simp [waitingFor, hsplit], hnone]
        rfl
      | cons o rest =>
        have hfirst : s.conditionals = [] ++ o :: rest := hsplit
        rw [show (s.waitingFor .endBranch).head? = some o.address by simp [waitingFor, hsplit],
          ← h.waitingFor_remove hfirst]
        cases closer <;> rfl
    | loopWhile | loop | ret =>
      rw [h.waitingFor_close rfl, Opcode.closes_eq_false rfl]
      rfl
    | _ =>
      rw [show (s.waitingFor _).head? = none from rfl, hnone, Opcode.closes_eq_false rfl]
      rfl

/-! ## The invariant -/

theorem tracks_empty (p : Program) : Tracks p 0 {} := by
  constructor
  · intro closer
    cases closer <;> exact .nil
  · intro closer k
    cases closer <;> simp [waitingFor]

/-- Links that end at `addr` do not make openers of other addresses. -/
theorem opens_append (p : Program) (closer : Opcode) (o : Option Nat) (links : List Link)
    (hne : k ≠ addr) :
    p.Opens ((o.map (Link.mk · addr)).toList ++ links) closer k ↔ p.Opens links closer k := by
  unfold Opens
  cases o with
  | none => rfl
  | some o => simp [Ne.symm hne]

/-- An instruction waits for the closers that may close it. -/
theorem waits_iff (hbefore : s.Before addr) (hi : p[addr]? = some i) :
    s.waits i closer = true ↔ p.Opens (s.next addr i).links closer addr := by
  have hopcode : p.opcodeAt? addr = i.opcode? := by simp [opcodeAt?, hi]
  have hlink : (∃ l ∈ (s.next addr i).links, l.closer = addr) ↔ (s.closed? i).isSome = true := by
    rw [links_next]
    constructor
    · rintro ⟨l, hl, rfl⟩
      cases hclosed : s.closed? i with
      | some o => rfl
      | none =>
        rw [hclosed] at hl
        exact absurd (hbefore.links l hl).2 (Nat.lt_irrefl _)
    · intro hsome
      obtain ⟨o, ho⟩ := Option.isSome_iff_exists.1 hsome
      exact ⟨⟨o, addr⟩, by simp [ho], rfl⟩
  unfold Opens waits
  rw [hopcode]
  cases i.opcode? with
  | none => simp
  | some code =>
    simp only [hlink, Option.any_some, Bool.and_eq_true, Bool.or_eq_true, bne_iff_ne,
      Option.some.injEq, exists_eq_left']
    refine and_congr_right fun _ => ?_
    by_cases hcode : code = .otherwise <;> simp [hcode]

/-- **The step**: the invariant holds before the next address. -/
theorem Tracks.next (h : Tracks p addr s) (hbefore : s.Before addr) (hi : p[addr]? = some i) :
    Tracks p (addr + 1) (s.next addr i) := by
  have hlt : ∀ {closer k}, k ∈ s.waitingFor closer → k < addr := fun hk => ((h.mem _ _).1 hk).1
  constructor
  · intro closer
    rw [h.waitingFor_next]
    have hrest := (h.sorted closer).filter (fun k => s.closed? i ≠ some k)
    split
    · refine List.pairwise_cons.2 ⟨fun k hk => ?_, hrest⟩
      exact hlt (List.mem_filter.1 hk).1
    · exact hrest
  · intro closer k
    rw [h.waitingFor_next, List.mem_append, List.mem_filter]
    by_cases hk : k = addr
    · -- the instruction itself
      subst hk
      have hnot : k ∉ s.waitingFor closer := fun hmem => Nat.lt_irrefl k (hlt hmem)
      have hfree : ∀ l ∈ (s.next k i).links, l.opener ≠ k := by
        intro l hl
        have := (hbefore.next i).links l hl
        omega
      rw [← waits_iff hbefore hi]
      cases s.waits i closer with
      | false => simp [hnot]
      | true => simpa using hfree
    · -- an opener before it
      have hnew : k ∉ (if s.waits i closer = true then [addr] else []) := by
        split <;> simp [hk]
      have hfree : (∀ l ∈ (s.next addr i).links, l.opener ≠ k) ↔
          (∀ l ∈ s.links, l.opener ≠ k) ∧ s.closed? i ≠ some k := by
        rw [links_next]
        cases s.closed? i with
        | none => simp
        | some o => simp [and_comm]
      have hbelow : k < addr + 1 ↔ k < addr := by omega
      rw [hfree, links_next, opens_append p closer _ _ hk, hbelow, h.mem]
      simp only [hnew, false_or, decide_eq_true_eq, and_assoc]

end Pairing

open Pairing (Tracks)

variable {p : Program} {i i' j k t : Nat}

/-- The pass over the first `j` instructions. -/
def pairingUpTo (p : Program) (j : Nat) : Pairing := Pairing.run {} 0 (p.take j)

theorem pairingUpTo_succ (hj : j < p.length) :
    p.pairingUpTo (j + 1) = (p.pairingUpTo j).next j p[j] := by
  unfold pairingUpTo
  rw [List.take_add_one, List.getElem?_eq_getElem hj, Option.toList_some, Pairing.run_append,
    List.length_take, Nat.min_eq_left (Nat.le_of_lt hj), Nat.zero_add]
  rfl

theorem pairingUpTo_length (p : Program) : p.pairingUpTo p.length = pairing p := by
  rw [pairingUpTo, List.take_length, pairing_eq_run]

theorem before_pairingUpTo (hj : j ≤ p.length) : (p.pairingUpTo j).Before j := by
  have h := (Pairing.before_empty 0).run (p.take j)
  rwa [List.length_take, Nat.min_eq_left hj, Nat.zero_add] at h

/-- **The run**: the invariant holds before every address. -/
theorem tracks_pairingUpTo (hj : j ≤ p.length) : Tracks p j (p.pairingUpTo j) := by
  induction j with
  | zero => exact Pairing.tracks_empty p
  | succ j ih =>
    rw [pairingUpTo_succ hj]
    exact (ih (by omega)).next (before_pairingUpTo (by omega)) (List.getElem?_eq_getElem hj)

/-! ## Links -/

/-- Every link was made at its closer, with the opener that was nearest there. -/
theorem mem_links_pairingUpTo (hj : j ≤ p.length) :
    ⟨k, t⟩ ∈ (p.pairingUpTo j).links ↔
      t < j ∧ ∃ i, p[t]? = some i ∧ (p.pairingUpTo t).closed? i = some k := by
  induction j with
  | zero => simp [pairingUpTo]
  | succ j ih =>
    have hlast : ⟨k, t⟩ ∈ (((p.pairingUpTo j).closed? p[j]).map (Link.mk · j)).toList ↔
        t = j ∧ (p.pairingUpTo j).closed? p[j] = some k := by
      cases (p.pairingUpTo j).closed? p[j] with
      | none => simp
      | some o => simp [eq_comm, and_comm]
    rw [pairingUpTo_succ hj, Pairing.links_next, List.mem_append, hlast, ih (by omega)]
    constructor
    · rintro (⟨rfl, hclosed⟩ | ⟨hlt, hclosed⟩)
      · exact ⟨Nat.lt_succ_self t, p[t], List.getElem?_eq_getElem hj, hclosed⟩
      · exact ⟨by omega, hclosed⟩
    · rintro ⟨hlt, i, hi, hclosed⟩
      by_cases ht : t = j
      · subst ht
        rw [List.getElem?_eq_getElem hj] at hi
        cases hi
        exact .inl ⟨rfl, hclosed⟩
      · exact .inr ⟨by omega, i, hi, hclosed⟩

/-- The pass up to an address has made the links that end before it. -/
theorem mem_links_iff_lt (hj : j ≤ p.length) :
    ⟨k, t⟩ ∈ (p.pairingUpTo j).links ↔ ⟨k, t⟩ ∈ (pairing p).links ∧ t < j := by
  rw [← pairingUpTo_length, mem_links_pairingUpTo hj, mem_links_pairingUpTo (Nat.le_refl _)]
  constructor
  · rintro ⟨hlt, hclosed⟩
    exact ⟨⟨by omega, hclosed⟩, hlt⟩
  · rintro ⟨⟨-, hclosed⟩, hlt⟩
    exact ⟨hlt, hclosed⟩

/-- At its closer, the opener of a link was the first that waited. -/
theorem head?_of_link (h : ⟨k, t⟩ ∈ (pairing p).links) :
    t < p.length ∧ ∃ closer, p.opcodeAt? t = some closer ∧
      ((p.pairingUpTo t).waitingFor closer).head? = some k := by
  rw [← pairingUpTo_length, mem_links_pairingUpTo (Nat.le_refl _)] at h
  obtain ⟨hlt, i, hi, hclosed⟩ := h
  obtain ⟨closer, hcloser, hhead⟩ := Option.bind_eq_some_iff.1 hclosed
  exact ⟨hlt, closer, by simp [opcodeAt?, hi, hcloser], hhead⟩

/-- Hence it could be closed there, and had not been. -/
theorem waited_of_link (h : ⟨k, t⟩ ∈ (pairing p).links) :
    ∃ closer, p.opcodeAt? t = some closer ∧ k < t ∧
      p.Opens (p.pairingUpTo t).links closer k ∧
      ∀ l ∈ (p.pairingUpTo t).links, l.opener ≠ k := by
  obtain ⟨hlt, closer, hcloser, hhead⟩ := head?_of_link h
  have hmem := List.mem_of_mem_head? hhead
  exact ⟨closer, hcloser, ((tracks_pairingUpTo (Nat.le_of_lt hlt)).mem closer k).1 hmem⟩

theorem opener_unique (h : ⟨k, t⟩ ∈ (pairing p).links) (h' : ⟨i, t⟩ ∈ (pairing p).links) :
    k = i := by
  obtain ⟨-, closer, hcloser, hhead⟩ := head?_of_link h
  obtain ⟨-, closer', hcloser', hhead'⟩ := head?_of_link h'
  rw [hcloser] at hcloser'
  cases hcloser'
  rw [hhead] at hhead'
  exact Option.some.inj hhead'

theorem closer_unique (h : ⟨k, t⟩ ∈ (pairing p).links) (h' : ⟨k, j⟩ ∈ (pairing p).links) :
    t = j := by
  -- where one of the links ends, no link has started from the opener yet
  have hle : ∀ {t j}, ⟨k, t⟩ ∈ (pairing p).links → ⟨k, j⟩ ∈ (pairing p).links → t ≤ j := by
    intro t j h h'
    obtain ⟨hlt, -⟩ := head?_of_link h
    obtain ⟨-, -, -, -, hfree⟩ := waited_of_link h
    refine Nat.le_of_not_lt fun hjt => ?_
    exact hfree _ ((mem_links_iff_lt (Nat.le_of_lt hlt)).2 ⟨h', hjt⟩) rfl
  exact Nat.le_antisymm (hle h h') (hle h' h)

/-- Which openers there are before an address is settled there. -/
theorem opens_pairingUpTo {closer : Opcode} (hj : j ≤ p.length) (hk : k < j) :
    p.Opens (p.pairingUpTo j).links closer k ↔ p.Opens (pairing p).links closer k := by
  have hends : (∃ l ∈ (p.pairingUpTo j).links, l.closer = k) ↔
      ∃ l ∈ (pairing p).links, l.closer = k := by
    constructor
    · rintro ⟨l, hl, rfl⟩
      exact ⟨l, ((mem_links_iff_lt hj).1 hl).1, rfl⟩
    · rintro ⟨l, hl, rfl⟩
      exact ⟨l, (mem_links_iff_lt hj).2 ⟨hl, hk⟩, rfl⟩
  unfold Opens
  rw [hends]

/-- An opener before an address was closed before it, or waits there. -/
theorem linked_or_waiting {closer : Opcode} (hj : j ≤ p.length) (hk : k < j)
    (hopens : p.Opens (pairing p).links closer k) :
    (∃ t, t < j ∧ ⟨k, t⟩ ∈ (pairing p).links) ∨ k ∈ (p.pairingUpTo j).waitingFor closer := by
  rw [(tracks_pairingUpTo hj).mem]
  by_cases hfree : ∀ l ∈ (p.pairingUpTo j).links, l.opener ≠ k
  · exact .inr ⟨hk, (opens_pairingUpTo hj hk).2 hopens, hfree⟩
  · left
    obtain ⟨l, hl, rfl⟩ : ∃ l ∈ (p.pairingUpTo j).links, l.opener = k := by simpa using hfree
    obtain ⟨hlink, hlt⟩ := (mem_links_iff_lt hj).1 hl
    exact ⟨l.closer, hlt, hlink⟩

/-! ## Targets -/

theorem opcode?_linkedTo (i : Instruction) (closer : Option Nat) :
    (i.linkedTo closer).opcode? = i.opcode? := by
  cases closer <;> cases i <;> rfl

theorem literal?_linkedTo (i : Instruction) (closer : Option Nat) :
    (i.linkedTo closer).literal? = i.literal? := by
  cases closer <;> cases i <;> rfl

theorem linkedTo_linkedTo (i : Instruction) (closer : Option Nat) :
    (i.linkedTo closer).linkedTo closer = i.linkedTo closer := by
  cases closer <;> cases i <;> rfl

theorem getElem?_resolve (p : Program) (k : Nat) :
    (resolve p)[k]? = p[k]?.map (·.linkedTo (closerOf? (pairing p).links k)) := by
  rw [resolve_eq_linkAll, getElem?_linkAll, Nat.zero_add]

theorem opcodeAt?_resolve (p : Program) (k : Nat) : (resolve p).opcodeAt? k = p.opcodeAt? k := by
  unfold opcodeAt?
  rw [getElem?_resolve]
  cases p[k]? with
  | none => rfl
  | some i => exact opcode?_linkedTo i _

/-- **Targets are links.** -/
theorem targetAt?_resolve (hp : ∀ i ∈ p, i.target? = none) :
    (resolve p).targetAt? k = some t ↔ ⟨k, t⟩ ∈ (pairing p).links := by
  unfold targetAt?
  rw [getElem?_resolve]
  constructor
  · intro h
    obtain ⟨i, hi, htarget⟩ := Option.bind_eq_some_iff.1 h
    obtain ⟨i₀, hi₀, rfl⟩ := Option.map_eq_some_iff.1 hi
    cases hcloser : closerOf? (pairing p).links k with
    | none =>
      rw [hcloser] at htarget
      exact absurd ((hp i₀ (List.mem_of_getElem? hi₀)).symm.trans htarget) (by simp)
    | some closer =>
      rw [hcloser] at htarget
      cases i₀ with
      | push w => cases htarget
      | op code literal target =>
        cases htarget
        exact mem_of_closerOf? hcloser
  · intro h
    obtain ⟨-, -, -, ⟨opener, hopener, -⟩, -⟩ := waited_of_link h
    obtain ⟨i, hi, hcode⟩ := Option.bind_eq_some_iff.1 hopener
    have hcloser : closerOf? (pairing p).links k = some t := by
      cases hcloser : closerOf? (pairing p).links k with
      | none =>
        rw [closerOf?, Option.map_eq_none_iff, List.find?_eq_none] at hcloser
        exact absurd (hcloser _ h) (by simp)
      | some t' => rw [closer_unique h (mem_of_closerOf? hcloser)]
    cases i with
    | push w => cases hcode
    | op code literal target =>
      rw [hi, hcloser]
      rfl

/-- The pass does not look at targets. -/
theorem run_linkAll (links : List Link) (s : Pairing) (base : Nat) (p : Program) :
    s.run base (linkAll links base p) = s.run base p := by
  induction p generalizing s base with
  | nil => rfl
  | cons i p ih =>
    have hnext : s.next base (i.linkedTo (closerOf? links base)) = s.next base i := by
      unfold Pairing.next
      rw [opcode?_linkedTo]
    rw [linkAll_cons, Pairing.run_cons, Pairing.run_cons, hnext, ih]

theorem resolve_resolve (p : Program) : resolve (resolve p) = resolve p := by
  have hpairing : pairing (resolve p) = pairing p := by
    rw [pairing_eq_run, pairing_eq_run, resolve_eq_linkAll, run_linkAll]
  apply List.ext_getElem?
  intro k
  rw [getElem?_resolve (resolve p), hpairing, getElem?_resolve]
  cases p[k]? with
  | none => rfl
  | some i => exact congrArg some (linkedTo_linkedTo i _)

/-! ## The law of targets -/

/-- The closer at `j` may close the opener at `k`.  A `:` is an opener only if it is itself the
target of some `?`. -/
def Eligible (p : Program) (j k : Nat) : Prop :=
  ∃ closer opener, p.opcodeAt? j = some closer ∧ p.opcodeAt? k = some opener ∧
    closer.closes opener = true ∧
    (opener = .otherwise → ∃ i, p.opcodeAt? i = some .branch ∧ p.targetAt? i = some k)

theorem eligible_resolve (hp : ∀ i ∈ p, i.target? = none) :
    (resolve p).Eligible j k ↔
      ∃ closer, p.opcodeAt? j = some closer ∧ p.Opens (pairing p).links closer k := by
  unfold Eligible Opens
  simp only [opcodeAt?_resolve, targetAt?_resolve hp]
  constructor
  · rintro ⟨closer, opener, hcloser, hopener, hcloses, helse⟩
    refine ⟨closer, hcloser, opener, hopener, hcloses, fun hcode => ?_⟩
    obtain ⟨i, -, hlink⟩ := helse hcode
    exact ⟨_, hlink, rfl⟩
  · rintro ⟨closer, hcloser, opener, hopener, hcloses, helse⟩
    refine ⟨closer, opener, hcloser, hopener, hcloses, fun hcode => ?_⟩
    subst hcode
    obtain ⟨⟨i, t⟩, hlink, rfl⟩ := helse rfl
    refine ⟨i, ?_, hlink⟩
    -- a `:` closes nothing but a `?`
    obtain ⟨closer', hcloser', -, ⟨opener', hopener', hcloses', -⟩, -⟩ := waited_of_link hlink
    rw [hopener] at hcloser'
    cases hcloser'
    rcases Opcode.closes_cases hcloses' with h | h | h | h | h | h
    · rw [hopener', h.2]
    all_goals cases h.1

/-- **Every closer takes the nearest opener that is still open, and nothing else is linked.**
Resolving a program without targets changes no operation and no literal.  Every target lies behind
its opener and inside the program, at a closer that may close the opener, and no two openers share
one.  When the closer at `j` is the target of the opener at `i`, every opener between them that it
may close has a target before `j`; when it is the target of none, every such opener before it has.
Resolving again changes nothing. -/
theorem closers_take_nearest {p : Program} (hp : ∀ i ∈ p, i.target? = none) :
    (resolve p).map (fun i => (i.opcode?, i.literal?)) = p.map (fun i => (i.opcode?, i.literal?)) ∧
    (∀ i t, (resolve p).targetAt? i = some t →
      i < t ∧ t < (resolve p).length ∧ (resolve p).Eligible t i) ∧
    (∀ i i' t, (resolve p).targetAt? i = some t → (resolve p).targetAt? i' = some t → i = i') ∧
    (∀ i j, (resolve p).targetAt? i = some j →
      ∀ k, i < k → k < j → (resolve p).Eligible j k →
        ∃ t, t < j ∧ (resolve p).targetAt? k = some t) ∧
    (∀ j, (∀ i, (resolve p).targetAt? i ≠ some j) →
      ∀ k, k < j → (resolve p).Eligible j k → ∃ t, t < j ∧ (resolve p).targetAt? k = some t) ∧
    resolve (resolve p) = resolve p := by
  simp only [ne_eq, targetAt?_resolve hp, eligible_resolve hp, length_resolve]
  refine ⟨?_, ?_, ?_, ?_, ?_, resolve_resolve p⟩
  · apply List.ext_getElem?
    intro k
    rw [List.getElem?_map, List.getElem?_map, getElem?_resolve]
    cases p[k]? with
    | none => rfl
    | some i => simp [opcode?_linkedTo, literal?_linkedTo]
  · intro i t hlink
    obtain ⟨hlt, -⟩ := head?_of_link hlink
    obtain ⟨closer, hcloser, hi, hopens, -⟩ := waited_of_link hlink
    exact ⟨hi, hlt, closer, hcloser, (opens_pairingUpTo (Nat.le_of_lt hlt) hi).1 hopens⟩
  · intro i i' t hlink hlink'
    exact opener_unique hlink hlink'
  · rintro i j hlink k hik hkj ⟨closer, hcloser, hopens⟩
    obtain ⟨hlt, closer', hcloser', hhead⟩ := head?_of_link hlink
    rw [hcloser] at hcloser'
    cases hcloser'
    refine (linked_or_waiting (Nat.le_of_lt hlt) hkj hopens).resolve_right fun hwaits => ?_
    -- the first opener that waits is the last one in the program
    have hsorted := (tracks_pairingUpTo (Nat.le_of_lt hlt)).sorted closer
    obtain ⟨rest, hrest⟩ := List.head?_eq_some_iff.1 hhead
    rw [hrest] at hsorted hwaits
    rcases List.mem_cons.1 hwaits with rfl | hmem
    · omega
    · have := (List.pairwise_cons.1 hsorted).1 k hmem
      omega
  · rintro j hfree k hkj ⟨closer, hcloser, hopens⟩
    obtain ⟨i, hi, hcode⟩ := Option.bind_eq_some_iff.1 hcloser
    obtain ⟨hlt, -⟩ := List.getElem?_eq_some_iff.1 hi
    refine (linked_or_waiting (Nat.le_of_lt hlt) hkj hopens).resolve_right fun hwaits => ?_
    -- something waits, so the closer would have closed it
    obtain ⟨o, ho⟩ : ∃ o, (p.pairingUpTo j).closed? i = some o := by
      rw [Pairing.closed?, hcode, Option.bind_some]
      cases hlist : (p.pairingUpTo j).waitingFor closer with
      | nil =>
        rw [hlist] at hwaits
        cases hwaits
      | cons o rest => exact ⟨o, rfl⟩
    refine hfree o ?_
    rw [← pairingUpTo_length, mem_links_pairingUpTo (Nat.le_refl _)]
    exact ⟨hlt, i, hi, ho⟩

/-- Two conditionals whose halves cross, and a `;` too many.  The second `:` takes the first `?`
past the `:` that waits in between, and the `?` between them has been closed. -/
theorem crossed_halves :
    ∃ p : Program, p = [.plain .branch, .plain .branch, .plain .otherwise, .plain .otherwise,
        .plain .endBranch, .plain .endBranch, .plain .endBranch] ∧
      (∀ i ∈ p, i.target? = none) ∧ (resolve p).targetAt? 0 = some 3 ∧
      ∃ t, t < 3 ∧ (resolve p).targetAt? 1 = some t := by
  refine ⟨_, rfl, by decide, by decide, ?_⟩
  exact (closers_take_nearest (by decide)).2.2.2.1 0 3 (by decide) 1 (by decide) (by decide)
    ⟨.otherwise, .branch, by decide, by decide, by decide, nofun⟩

end Program
end GlyphMachine
