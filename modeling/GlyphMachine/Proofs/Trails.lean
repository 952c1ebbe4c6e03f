import GlyphMachine.Proofs.Visits

/-!
# Parts of runs

A trail is a part of a run: the instructions performed from one address to another, whether the run
ever ends or not.  What a loop or a subroutine does is said of trails, since a block of code may
begin before them and go on behind them.

* `Machine.Trail` — a part of a run, with its visits.
* `trail_of_visits` — every visit of a run of code is reached by the trail of the visits before it.
* `Trail.dispatch_add` — a trail that ends in a transfer is a number of whole blocks.
-/

namespace GlyphMachine

open Lowered (blockFrom)

namespace Visit

/-- Whether control may go elsewhere than to the next instruction, compiled for `a`. -/
def transfers (a : Addressing) (v : Visit) : Bool := (v.instruction.lower a v.addr).exit.isSome

end Visit

namespace Machine

variable {a : Addressing} {p : Program} {fuel k : Nat} {ip ip₁ ip' : Int} {m m₁ m' : Machine}
  {vs ws : List Visit}

/-- `Trail a p ip m vs ip' m'`: from the address `ip` and the machine `m` on, the instructions `vs`
are performed one at a time; then control is at `ip'`, in the state `m'`. -/
inductive Trail (a : Addressing) (p : Program) :
    Int → Machine → List Visit → Int → Machine → Prop where
  | refl (ip : Int) (m : Machine) : Trail a p ip m [] ip m
  | next {k : Nat} {i : Instruction} {m m₁ m' : Machine} {target ip' : Int} {vs : List Visit} :
      p[k]? = some i → m.execute (k + 1) (i.lower a k) = (.goto target, m₁) →
      Trail a p target m₁ vs ip' m' → Trail a p k m (⟨k, i, m⟩ :: vs) ip' m'

namespace Trail

theorem single {i : Instruction} (hi : p[k]? = some i)
    (hexec : m.execute (k + 1) (i.lower a k) = (.goto ip', m')) :
    Trail a p k m [⟨k, i, m⟩] ip' m' :=
  .next hi hexec (.refl ip' m')

theorem trans (h : Trail a p ip m vs ip₁ m₁) (h' : Trail a p ip₁ m₁ ws ip' m') :
    Trail a p ip m (vs ++ ws) ip' m' := by
  induction h with
  | refl => exact h'
  | next hi hexec _ ih => exact .next hi hexec (ih h')

/-- A trail takes one step for every visit. -/
theorem path (h : Trail a p ip m vs ip' m') : Path a p vs.length ip m ip' m' := by
  induction h with
  | refl ip m => exact .refl ip m
  | next hi hexec _ ih => exact .step ((advance_of_getElem? hi _).trans hexec) ih

theorem getElem?_addr {v : Visit} (h : Trail a p ip m vs ip' m') (hv : v ∈ vs) :
    p[v.addr]? = some v.instruction := by
  induction h with
  | refl => cases hv
  | next hi _ _ ih =>
    rcases List.mem_cons.1 hv with rfl | hv
    · exact hi
    · exact ih hv

/-- A trail changes neither the context nor the room on the stacks. -/
theorem fixed (h : Trail a p ip m vs ip' m') : m'.fixed = m.fixed := by
  induction h with
  | refl => rfl
  | @next k i m m₁ m' target ip' vs hi hexec _ ih =>
    have hfixed := fixed_execute m (k + 1) (i.lower a k)
    rw [hexec] at hfixed
    exact ih.trans hfixed

end Trail

/-! ## Blocks -/

/-- The block that is run from a transfer on is this one instruction. -/
theorem runBlock_of_exit {exit : Exit} (hk : k < p.length)
    (hx : (p[k].lower a k).exit = some exit) (m : Machine) :
    m.runBlock (blockFrom p.length ((p.lowered a).drop k)) =
      m.execute (k + 1) (p[k].lower a k) := by
  rw [Program.drop_lowered hk, blockFrom, hx]
  simp [execute, hx, runBlock]

/-- The instructions of a block, up to one of them and as a whole. -/
theorem trail_of_stretch (hk : k ≤ p.length) (m : Machine) :
    (∀ before v after, stretch a k (p.drop k) m = before ++ v :: after →
      Trail a p k m before v.addr v.machine ∧ p[v.addr]? = some v.instruction) ∧
    ∀ target m', m.runBlock (blockFrom p.length ((p.lowered a).drop k)) = (.goto target, m') →
      Trail a p k m (stretch a k (p.drop k) m) target m' := by
  refine Program.block_induction (a := a) (motive := fun k block => ∀ m : Machine,
    (∀ before v after, stretch a k (p.drop k) m = before ++ v :: after →
      Trail a p k m before v.addr v.machine ∧ p[v.addr]? = some v.instruction) ∧
    ∀ target m', m.runBlock block = (.goto target, m') →
      Trail a p k m (stretch a k (p.drop k) m) target m') ?_ ?_ ?_ hk m
  · intro m
    rw [List.drop_length]
    refine ⟨fun before v after h => ?_, fun target m' h => ?_⟩
    · simp [stretch] at h
    · cases h
      exact .refl _ m
  · intro k hlt exit hx m
    have hk := List.getElem?_eq_getElem hlt
    rw [List.drop_eq_getElem_cons hlt, stretch, hx]
    refine ⟨fun before v after h => ?_, fun target m' h => ?_⟩
    · cases before with
      | nil =>
        cases h
        exact ⟨.refl _ m, hk⟩
      | cons u before => simp at h
    · refine .single hk ?_
      simpa [execute, hx, runBlock] using h
  · intro k hlt block hx ih m
    have hk := List.getElem?_eq_getElem hlt
    have hexec : m.execute (k + 1) (p[k].lower a k) =
        (.goto (k + 1 : Nat), m.steps (p[k].lower a k).op.toList) := by
      simp [execute, hx]
    obtain ⟨hpart, hwhole⟩ := ih (m.steps (p[k].lower a k).op.toList)
    rw [List.drop_eq_getElem_cons hlt, stretch, hx]
    refine ⟨fun before v after h => ?_, fun target m' h => ?_⟩
    · cases before with
      | nil =>
        cases h
        exact ⟨.refl _ m, hk⟩
      | cons u before =>
        obtain ⟨rfl, htail⟩ := List.cons.inj h
        obtain ⟨htrail, hv⟩ := hpart before v after htail
        exact ⟨.next hk hexec htrail, hv⟩
    · rw [runBlock_append] at h
      exact .next hk hexec (hwhole _ _ h)

theorem visits_of_inside (hk : k < p.length) (fuel : Nat) (m : Machine) :
    visits a p (fuel + 1) k m = stretch a k (p.drop k) m ++
      match m.runBlock (blockFrom p.length ((p.lowered a).drop k)) with
      | (.goto target, m) => visits a p fuel target m
      | (.stop _, _) => [] := by
  rw [visits, entered_of_inside hk, List.flatMap_cons]
  rcases m.runBlock (blockFrom p.length ((p.lowered a).drop k)) with ⟨target | finish, m'⟩ <;> rfl

/-- **Every visit of a run is reached by the visits before it.** -/
theorem trail_of_visits {before after : List Visit} {v : Visit}
    (h : visits a p fuel ip m = before ++ v :: after) :
    Trail a p ip m before v.addr v.machine ∧ p[v.addr]? = some v.instruction := by
  induction fuel generalizing ip m before with
  | zero => simp [visits, entered] at h
  | succ fuel ih =>
    rcases inside_or_outside p ip with ⟨k, rfl, hk⟩ | hout
    · obtain ⟨hpart, hwhole⟩ := trail_of_stretch (a := a) (Nat.le_of_lt hk) m
      rw [visits_of_inside hk] at h
      rcases hrun : m.runBlock (blockFrom p.length ((p.lowered a).drop k)) with
        ⟨target | finish, m₁⟩
      · rw [hrun] at h
        -- the visit is one of the first block, or one of the run after it
        rcases List.append_eq_append_iff.1 h with ⟨later, rfl, hrest⟩ | ⟨part, hstretch, hrest⟩
        · obtain ⟨htrail, hv⟩ := ih hrest
          exact ⟨(hwhole target m₁ hrun).trans htrail, hv⟩
        · cases part with
          | nil =>
            have hfirst : visits a p fuel target m₁ = [] ++ v :: after := hrest.symm
            obtain ⟨htrail, hv⟩ := ih hfirst
            rw [List.append_nil] at hstretch
            rw [← hstretch, ← List.append_nil (stretch a k (p.drop k) m)]
            exact ⟨(hwhole target m₁ hrun).trans htrail, hv⟩
          | cons u part =>
            cases hrest
            exact hpart before v part hstretch
      · rw [hrun, List.append_nil] at h
        exact hpart before v after h
    · rw [visits, entered_of_outside hout] at h
      simp at h

namespace Trail

/-- A trail that ends in a transfer begins with a whole block. -/
theorem first_block (h : Trail a p ip m vs ip' m') (hne : vs ≠ [])
    (hlast : ∀ v ∈ vs.getLast?, v.transfers a = true) :
    ∃ (k : Nat) (target : Int) (m₁ : Machine) (rest : List Visit), ip = k ∧ k < p.length ∧
      m.runBlock (blockFrom p.length ((p.lowered a).drop k)) = (.goto target, m₁) ∧
      vs = stretch a k (p.drop k) m ++ rest ∧ Trail a p target m₁ rest ip' m' := by
  induction h with
  | refl => exact absurd rfl hne
  | @next k i m m₁ m' target ip' vs hi hexec htrail ih =>
    obtain ⟨hk, rfl⟩ := List.getElem?_eq_some_iff.1 hi
    have hlowered := Program.drop_lowered (a := a) hk
    cases hx : (p[k].lower a k).exit with
    | some exit =>
      refine ⟨k, target, m₁, vs, rfl, hk, (runBlock_of_exit hk hx m).trans hexec, ?_, htrail⟩
      rw [List.drop_eq_getElem_cons hk, stretch, hx]
      rfl
    | none =>
      simp only [execute, hx] at hexec
      cases hexec
      have hne' : vs ≠ [] := by
        rintro rfl
        have := hlast _ rfl
        simp [Visit.transfers, hx] at this
      obtain ⟨k', target', m₂, rest, hk', hlt, hrun, hvs, hrest⟩ := ih hne' (by
        intro v hv
        refine hlast v ?_
        rwa [List.getLast?_cons_of_ne_nil hne'])
      obtain rfl : k + 1 = k' := by omega
      refine ⟨k, target', m₂, rest, rfl, hk, ?_, ?_, hrest⟩
      · rw [hlowered, blockFrom, hx]
        exact (runBlock_append m _ _).trans hrun
      · rw [List.drop_eq_getElem_cons hk, stretch, hx, hvs]
        rfl

/-- **A trail that ends in a transfer is a number of whole blocks.**  The code performs its visits
and goes on where it ends. -/
theorem dispatch_add (h : Trail a p ip m vs ip' m')
    (hlast : ∀ v ∈ vs.getLast?, v.transfers a = true) :
    ∃ blocks, visits a p blocks ip m = vs ∧
      ∀ fuel, dispatch (p.compile a) (blocks + fuel) ip m = dispatch (p.compile a) fuel ip' m' := by
  induction hn : vs.length using Nat.strongRecOn generalizing vs ip m with
  | ind n ih =>
    by_cases hne : vs = []
    · subst hne
      cases h
      exact ⟨0, rfl, fun fuel => by rw [Nat.zero_add]⟩
    · obtain ⟨k, target, m₁, rest, rfl, hk, hrun, rfl, hrest⟩ := h.first_block hne hlast
      have hlength : rest.length < n := by
        rw [← hn, List.drop_eq_getElem_cons hk, stretch, List.length_append, List.length_cons]
        omega
      obtain ⟨blocks, hvisits, hdispatch⟩ := ih _ hlength hrest (by
        intro v hv
        refine hlast v ?_
        rw [List.getLast?_append, hv]
        rfl) rfl
      refine ⟨blocks + 1, ?_, fun fuel => ?_⟩
      · rw [visits_of_inside hk, hrun]
        exact congrArg (stretch a k (p.drop k) m ++ ·) hvisits
      · rw [Nat.add_right_comm, dispatch_of_inside hk, hrun]
        exact hdispatch fuel

end Trail
end Machine
end GlyphMachine
