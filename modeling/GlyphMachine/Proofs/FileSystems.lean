import GlyphMachine.Command.Run

/-!
# What commands do to a file system

Commands make files empty and write over them.  They make no directory and take none away, so that
every path leads where it led before, and a file that could not be made still cannot.

* `holdsFile_of_locate?` — the place that a path leads to lies in a directory, so that a file can
  stand there if nothing else does.
* `Alike` — two file systems with the same directories; `Alike.locate?` and `Alike.isSome_create?`
  say what this decides, and `alike_create?` and `alike_write` that commands keep it.
* `find?_create?`, `find?_write` — what is found at a path that was made or written over.
* `SameBut` — two file systems that differ at most in the files at certain paths.
-/

namespace GlyphMachine

theorem overwrite_empty (bytes : ByteArray) : overwrite .empty bytes = bytes := by
  rw [overwrite, ByteArray.extract_eq_empty_iff.2 (by simp), ByteArray.append_empty]

namespace FileSystem

variable {fs fs' fs'' : FileSystem} {p q : Place} {path path' : String} {bytes old : ByteArray}

/-! ## Places in directories -/

theorem isDirectory_dropLast (h : fs.isDirectory p = true) : fs.isDirectory p.dropLast = true := by
  rcases List.eq_nil_or_concat p with rfl | ⟨parent, name, rfl⟩
  · exact h
  · rw [List.concat_eq_append] at h ⊢
    rw [List.dropLast_concat]
    refine isDirectory_iff.2 (fs.parent_eq parent name ?_)
    rw [isDirectory_iff.1 h]
    rfl

/-- A walk that starts in a directory ends in one, but for its last name. -/
theorem isDirectory_follow {names : List String} (hq : fs.isDirectory q.dropLast = true)
    (h : fs.follow q names = some p) : fs.isDirectory p.dropLast = true := by
  fun_induction follow fs q names with
  | case1 q =>
    cases h
    exact hq
  | case2 q name rest hstop => cases h
  | case3 q name rest hstop hname ih => exact ih hq h
  | case4 q rest hstop hname ih => exact ih (isDirectory_dropLast hq) h
  | case5 q name rest hstop hname hup ih =>
    refine ih ?_ h
    rw [List.dropLast_concat]
    simp only [Bool.or_eq_true, Bool.not_eq_true', not_or, Bool.not_eq_false] at hstop
    exact hstop.1

theorem isDirectory_locate? (h : fs.locate? path = some p) : fs.isDirectory p.dropLast = true := by
  have hroot : fs.isDirectory [] = true := isDirectory_iff.2 fs.root_eq
  have hwork : fs.isDirectory fs.work = true := isDirectory_iff.2 fs.work_eq
  unfold locate? at h
  split at h
  · cases h
  · refine isDirectory_follow ?_ h
    split
    · exact hroot
    · exact isDirectory_dropLast hwork

/-- **Where a path leads, a file can stand** unless there is a directory or the null device. -/
theorem holdsFile_of_locate? (h : fs.locate? path = some p) (hfixed : fs.fixed? p = none) :
    fs.holdsFile p = true := by
  rw [holdsFile, hfixed, isDirectory_locate? h]
  rfl

theorem node?_put (h : fs.holdsFile p = true) (bytes : ByteArray) (q : Place) :
    (fs.put p bytes).node? q = if q = p then some (.file bytes) else fs.node? q := by
  show fs.nodePut? p bytes q = _
  simp only [nodePut?, h, and_true]

/-! ## The same directories -/

/-- The file systems differ in files only. -/
structure Alike (fs fs' : FileSystem) : Prop where
  work : fs'.work = fs.work
  fixed : ∀ q, fs'.fixed? q = fs.fixed? q

theorem fixed?_eq_some_iff {node : Node} (hnode : node.isFixed = true) :
    fs.fixed? p = some node ↔ fs.node? p = some node := by
  simp [fixed?, Option.filter_eq_some_iff, hnode]

theorem fixed?_of_file (h : fs.node? p = some (.file bytes)) : fs.fixed? p = none := by
  simp [fixed?, h, Node.isFixed]

theorem alike_put (fs : FileSystem) (p : Place) (bytes : ByteArray) :
    Alike fs (fs.put p bytes) where
  work := rfl
  fixed := by
    intro q
    show (fs.nodePut? p bytes q).filter Node.isFixed = fs.fixed? q
    unfold nodePut?
    split
    · -- a file is put only where nothing is fixed
      rename_i hput
      have hnone := (Bool.and_eq_true_iff.1 hput.2).1
      rw [hput.1, Option.isNone_iff_eq_none.1 hnone]
      rfl
    · rfl

namespace Alike

theorem refl (fs : FileSystem) : Alike fs fs := ⟨rfl, fun _ => rfl⟩

theorem trans (h : Alike fs fs') (h' : Alike fs' fs'') : Alike fs fs'' :=
  ⟨h'.work.trans h.work, fun q => (h'.fixed q).trans (h.fixed q)⟩

theorem isDirectory (h : Alike fs fs') (q : Place) : fs'.isDirectory q = fs.isDirectory q := by
  rw [Bool.eq_iff_iff, isDirectory_iff, isDirectory_iff, ← fixed?_eq_some_iff rfl, h.fixed,
    fixed?_eq_some_iff rfl]

/-- **Paths lead to the same places.** -/
theorem locate? (h : Alike fs fs') (path : String) : fs'.locate? path = fs.locate? path := by
  have hfollow : ∀ names p, fs'.follow p names = fs.follow p names := by
    intro names
    induction names with
    | nil => exact fun p => rfl
    | cons name names ih =>
      intro p
      simp only [follow, h.isDirectory, ih]
  simp only [FileSystem.locate?, hfollow, h.work]

theorem find?_eq_null_iff (h : Alike fs fs') (path : String) :
    fs'.find? path = some .null ↔ fs.find? path = some .null := by
  unfold find?
  rw [h.locate?]
  cases fs.locate? path with
  | none => rfl
  | some p =>
    rw [Option.bind_some, Option.bind_some, ← fixed?_eq_some_iff rfl, h.fixed,
      fixed?_eq_some_iff rfl]

end Alike

/-! ## Making files -/

/-- What making a file can do: nothing to the null device, and else an empty file is put there. -/
theorem create?_cases (h : fs.create? path = some fs') :
    ∃ p, fs.locate? path = some p ∧ (fs.node? p = some .null ∧ fs' = fs ∨
      fs.node? p ≠ some .null ∧ fs.holdsFile p = true ∧ fs' = fs.put p .empty) := by
  obtain ⟨p, hp, h⟩ := Option.bind_eq_some_iff.1 h
  refine ⟨p, hp, ?_⟩
  split at h
  · rename_i hnode
    cases h
    have hfixed : fs.fixed? p = none := by simp [fixed?, hnode]
    exact .inr ⟨by simp [hnode], holdsFile_of_locate? hp hfixed, rfl⟩
  · rename_i old hnode
    cases h
    exact .inr ⟨by simp [hnode], holdsFile_of_locate? hp (fixed?_of_file hnode), rfl⟩
  · cases h
  · rename_i hnode
    cases h
    exact .inl ⟨hnode, rfl⟩

/-- **A file can be made where a path leads, unless there is a directory.** -/
theorem isSome_create? (fs : FileSystem) (path : String) :
    (fs.create? path).isSome = (fs.locate? path).any fun p => !fs.isDirectory p := by
  unfold create?
  cases fs.locate? path with
  | none => rfl
  | some p =>
    simp only [Option.bind_eq_bind, Option.bind_some, Option.any_some, isDirectory]
    split <;> simp_all

theorem Alike.isSome_create? (h : Alike fs fs') (path : String) :
    (fs'.create? path).isSome = (fs.create? path).isSome := by
  simp only [FileSystem.isSome_create?, h.locate?, h.isDirectory]

theorem alike_create? (h : fs.create? path = some fs') : Alike fs fs' := by
  obtain ⟨p, -, ⟨-, rfl⟩ | ⟨-, -, rfl⟩⟩ := create?_cases h
  · exact .refl fs'
  · exact alike_put fs p .empty

/-- A file that was just made is empty. -/
theorem find?_create? (h : fs.create? path = some fs') (hnull : fs.find? path ≠ some .null) :
    fs'.find? path = some (.file .empty) := by
  have hlocate := (alike_create? h).locate? path
  obtain ⟨p, hp, ⟨hnode, -⟩ | ⟨-, hholds, rfl⟩⟩ := create?_cases h
  · exact absurd (by rw [find?, hp, Option.bind_some, hnode]) hnull
  · rw [find?, hlocate, hp, Option.bind_some, node?_put hholds, if_pos rfl]

/-- An empty file stays empty when files are made. -/
theorem find?_create?_of_empty (h : fs.create? path = some fs')
    (hempty : fs.find? path' = some (.file .empty)) : fs'.find? path' = some (.file .empty) := by
  have hlocate := (alike_create? h).locate? path'
  obtain ⟨q, hq, hnode⟩ := Option.bind_eq_some_iff.1 hempty
  rw [find?, hlocate, hq, Option.bind_some]
  obtain ⟨p, -, ⟨-, rfl⟩ | ⟨-, hholds, rfl⟩⟩ := create?_cases h
  · exact hnode
  · rw [node?_put hholds]
    split
    · rfl
    · exact hnode

/-- A file that was just made reads as empty, and so does the null device. -/
theorem read?_create? (h : fs.create? path = some fs') : fs'.read? path = some .empty := by
  by_cases hnull : fs.find? path = some .null
  · rw [read?, ((alike_create? h).find?_eq_null_iff path).2 hnull]
    rfl
  · rw [read?, find?_create? h hnull]
    rfl

/-! ## Writing over files -/

/-- What writing can do: put new bytes in place of those of a file, or nothing. -/
theorem write_cases (fs : FileSystem) (path : String) (bytes : ByteArray) :
    (∃ p old, fs.locate? path = some p ∧ fs.node? p = some (.file old) ∧ fs.holdsFile p = true ∧
      fs.write path bytes = fs.put p (overwrite old bytes)) ∨
    (∀ old, fs.find? path ≠ some (.file old)) ∧ fs.write path bytes = fs := by
  unfold write find?
  split
  · exact .inr ⟨by simp_all, rfl⟩
  · rename_i p hp
    rw [hp]
    split
    · rename_i old hnode
      have hholds := holdsFile_of_locate? hp (fixed?_of_file hnode)
      exact .inl ⟨p, old, rfl, hnode, hholds, rfl⟩
    · rename_i hnode
      exact .inr ⟨hnode, rfl⟩

theorem alike_write (fs : FileSystem) (path : String) (bytes : ByteArray) :
    Alike fs (fs.write path bytes) := by
  obtain ⟨p, old, -, -, -, hwrite⟩ | ⟨-, hwrite⟩ := write_cases fs path bytes
  · rw [hwrite]
    exact alike_put fs p _
  · rw [hwrite]
    exact .refl fs

theorem find?_write (h : fs.find? path = some (.file old)) (bytes : ByteArray) :
    (fs.write path bytes).find? path = some (.file (overwrite old bytes)) := by
  rw [find?, (alike_write fs path bytes).locate?]
  obtain ⟨p, old', hp, hnode, hholds, hwrite⟩ | ⟨hnone, -⟩ := write_cases fs path bytes
  · rw [find?, hp, Option.bind_some, hnode] at h
    cases h
    rw [hwrite, hp, Option.bind_some, node?_put hholds, if_pos rfl]
  · exact absurd h (hnone old)

theorem node?_write (h : fs.locate? path ≠ some q) (bytes : ByteArray) :
    (fs.write path bytes).node? q = fs.node? q := by
  obtain ⟨p, old, hp, -, hholds, hwrite⟩ | ⟨-, hwrite⟩ := write_cases fs path bytes
  · rw [hwrite, node?_put hholds, if_neg]
    rintro rfl
    exact h hp
  · rw [hwrite]

theorem find?_write_of_ne (h : fs.locate? path ≠ fs.locate? path') (bytes : ByteArray) :
    (fs.write path bytes).find? path' = fs.find? path' := by
  rw [find?, (alike_write fs path bytes).locate?, find?]
  cases hq : fs.locate? path' with
  | none => rfl
  | some q => exact node?_write (hq ▸ h) bytes

/-! ## Files elsewhere -/

/-- The file systems differ at most in the files that the paths lead to. -/
structure SameBut (fs : FileSystem) (paths : List String) (fs' : FileSystem) : Prop
    extends Alike fs fs' where
  nodes : ∀ q, (∀ path ∈ paths, fs.locate? path ≠ some q) → fs'.node? q = fs.node? q

namespace SameBut

variable {paths paths' : List String}

theorem refl (fs : FileSystem) (paths : List String) : SameBut fs paths fs :=
  ⟨.refl fs, fun _ _ => rfl⟩

theorem trans (h : SameBut fs paths fs') (h' : SameBut fs' paths' fs'') :
    SameBut fs (paths ++ paths') fs'' where
  toAlike := h.toAlike.trans h'.toAlike
  nodes q hq := by
    have hq' : ∀ path ∈ paths', fs'.locate? path ≠ some q := by
      intro path hpath
      rw [h.locate?]
      exact hq path (List.mem_append_right _ hpath)
    rw [h'.nodes q hq', h.nodes q fun path hpath => hq path (List.mem_append_left _ hpath)]

theorem mono (h : SameBut fs paths fs') (hsub : paths ⊆ paths') : SameBut fs paths' fs' :=
  ⟨h.toAlike, fun q hq => h.nodes q fun path hpath => hq path (hsub hpath)⟩

theorem create (h : fs.create? path = some fs') : SameBut fs [path] fs' where
  toAlike := alike_create? h
  nodes q hq := by
    obtain ⟨p, hp, ⟨-, rfl⟩ | ⟨-, hholds, rfl⟩⟩ := create?_cases h
    · rfl
    · rw [node?_put hholds, if_neg]
      rintro rfl
      exact hq path List.mem_cons_self hp

theorem write (fs : FileSystem) (path : String) (bytes : ByteArray) :
    SameBut fs [path] (fs.write path bytes) where
  toAlike := alike_write fs path bytes
  nodes _ hq := node?_write (hq path List.mem_cons_self) bytes

end SameBut
end FileSystem
end GlyphMachine
