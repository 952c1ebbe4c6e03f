/-!
# Files

Commands reach files through three operations, so that the same command runs on a disk and on
the model of one that is defined here.  The model says what stands at each place below the root:
a directory, a file or the null device.  A path that starts with a slash leads from the root, and
every other path from the working directory.

* `FileSystem` — every place that is taken lies in a directory, and so does the working directory.
* `FileSystem.put` — a file is put only where one can stand, so that all this remains true.
* `FileSystem.locate?` — the place that a path leads to; only its last name may be new.
-/

namespace GlyphMachine

/-- Access to files by name. -/
class FileAccess (m : Type → Type) where
  /-- The bytes of a file, if it can be read. -/
  read : String → m (Option ByteArray)
  /-- Makes a file empty, creating it if need be; false if that is impossible. -/
  create : String → m Bool
  /-- Writes over a file from its start. -/
  write : String → ByteArray → m Unit

/-- Writes `bytes` over the start of `old`. -/
def overwrite (old bytes : ByteArray) : ByteArray := bytes ++ old.extract bytes.size old.size

/-- What can stand at a place. -/
inductive Node where
  | directory
  | file (bytes : ByteArray)
  /-- The null device, which is always empty and takes anything. -/
  | null

/-- What is read from a node. -/
def Node.bytes? : Node → Option ByteArray
  | directory => none
  | file bytes => some bytes
  | null => some .empty

/-- Whether a node is there to stay. -/
def Node.isFixed : Node → Bool
  | directory | null => true
  | file _ => false

/-- The names on the way from the root. -/
abbrev Place := List String

/-- What stands at each place, and the place of the working directory. -/
structure FileSystem where
  node? : Place → Option Node
  work : Place
  root_eq : node? [] = some .directory
  work_eq : node? work = some .directory
  parent_eq : ∀ p name, (node? (p ++ [name])).isSome = true → node? p = some .directory

namespace FileSystem

variable {fs : FileSystem} {p q : Place}

/-- Whether a place is a directory. -/
def isDirectory (fs : FileSystem) (p : Place) : Bool :=
  match fs.node? p with
  | some .directory => true
  | _ => false

theorem isDirectory_iff : fs.isDirectory p = true ↔ fs.node? p = some .directory := by
  unfold isDirectory
  split <;> simp_all

/-- What no file takes the place of: a directory or the null device. -/
def fixed? (fs : FileSystem) (p : Place) : Option Node := (fs.node? p).filter Node.isFixed

/-- Whether a file can stand at a place: nothing else stands there, and it lies in a directory. -/
def holdsFile (fs : FileSystem) (p : Place) : Bool :=
  (fs.fixed? p).isNone && fs.isDirectory p.dropLast

/-- The node at `q` when a file is put at `p`. -/
def nodePut? (fs : FileSystem) (p : Place) (bytes : ByteArray) (q : Place) : Option Node :=
  if q = p ∧ fs.holdsFile p = true then some (.file bytes) else fs.node? q

theorem nodePut?_of_directory (h : fs.node? q = some .directory) (bytes : ByteArray) :
    fs.nodePut? p bytes q = some .directory := by
  rw [nodePut?, if_neg, h]
  rintro ⟨rfl, hholds⟩
  simp [holdsFile, fixed?, h, Node.isFixed] at hholds

/-- Puts a file at a place, if one can stand there. -/
def put (fs : FileSystem) (p : Place) (bytes : ByteArray) : FileSystem where
  node? := fs.nodePut? p bytes
  work := fs.work
  root_eq := nodePut?_of_directory fs.root_eq bytes
  work_eq := nodePut?_of_directory fs.work_eq bytes
  parent_eq := by
    intro q name h
    apply nodePut?_of_directory
    rw [nodePut?] at h
    split at h
    · rename_i hput
      have hparent := isDirectory_iff.1 (Bool.and_eq_true_iff.1 hput.2).2
      rwa [← hput.1, List.dropLast_concat] at hparent
    · exact fs.parent_eq q name h

/-! ## Paths -/

/-- Follows the names of a path from a place.  Only directories lead on, and no name has more
than 255 bytes.  The root is its own parent. -/
def follow (fs : FileSystem) (p : Place) : List String → Option Place
  | [] => some p
  | name :: rest =>
    if !fs.isDirectory p || 255 < name.utf8ByteSize then none
    else if name = "" ∨ name = "." then follow fs p rest
    else if name = ".." then follow fs p.dropLast rest
    else follow fs (p ++ [name]) rest

/-- The names in a path, between its slashes. -/
def names (path : String) : List String := (path.toList.splitOn '/').map String.ofList

/-- Whether a path starts at the root. -/
def isAbsolute (path : String) : Bool := path.toList.head? == some '/'

/-- Whether a path is too long to be used, with more than 4095 bytes. -/
def isTooLong (path : String) : Bool := 4095 < path.utf8ByteSize

/-- The place that a path leads to. -/
def locate? (fs : FileSystem) (path : String) : Option Place :=
  if path = "" ∨ isTooLong path then none
  else fs.follow (if isAbsolute path then [] else fs.work) (names path)

/-- What a path leads to. -/
def find? (fs : FileSystem) (path : String) : Option Node := (fs.locate? path).bind fs.node?

/-! ## Reading and writing -/

/-- The bytes of the file that a path names. -/
def read? (fs : FileSystem) (path : String) : Option ByteArray :=
  (fs.find? path).bind Node.bytes?

/-- Makes the file that a path names empty, if it can be a file. -/
def create? (fs : FileSystem) (path : String) : Option FileSystem := do
  let p ← fs.locate? path
  match fs.node? p with
  | none | some (.file _) => some (fs.put p .empty)
  | some .directory => none
  | some .null => some fs

/-- Writes over the file that a path names, from its start. -/
def write (fs : FileSystem) (path : String) (bytes : ByteArray) : FileSystem :=
  match fs.locate? path with
  | none => fs
  | some p =>
    match fs.node? p with
    | some (.file old) => fs.put p (overwrite old bytes)
    | _ => fs

/-! ## Making file systems -/

/-- What stands at a place when the given nodes do: they, and the directories that lead to them and
to the working directory. -/
def nodeAmong? (work : Place) (nodes : List (Place × Node)) (p : Place) : Option Node :=
  if p <+: work ∨ ∃ node ∈ nodes, p <+: node.1 ∧ p ≠ node.1 then some .directory
  else nodes.lookup p

theorem nodeAmong?_work (work : Place) (nodes : List (Place × Node)) (h : p <+: work) :
    nodeAmong? work nodes p = some .directory := if_pos (.inl h)

theorem nodeAmong?_parent (work : Place) (nodes : List (Place × Node)) {name : String}
    (h : (nodeAmong? work nodes (p ++ [name])).isSome = true) :
    nodeAmong? work nodes p = some .directory := by
  have hp : p <+: p ++ [name] := List.prefix_append p [name]
  have hne : p ≠ p ++ [name] := by simp
  apply if_pos
  unfold nodeAmong? at h
  split at h
  · rename_i hleads
    rcases hleads with hwork | ⟨node, hnode, hprefix, -⟩
    · exact .inl (hp.trans hwork)
    · refine .inr ⟨node, hnode, hp.trans hprefix, ?_⟩
      rintro rfl
      exact absurd hprefix.length_le (by simp)
  · obtain ⟨node, hlookup⟩ := Option.isSome_iff_exists.1 h
    obtain ⟨before, after, rfl, -⟩ := List.lookup_eq_some_iff.1 hlookup
    exact .inr ⟨_, List.mem_append_right _ List.mem_cons_self, hp, hne⟩

/-- The file system with the given working directory, the given nodes and the directories that lead
to them. -/
def ofNodes (work : Place) (nodes : List (Place × Node)) : FileSystem where
  node? := nodeAmong? work nodes
  work := work
  root_eq := nodeAmong?_work work nodes List.nil_prefix
  work_eq := nodeAmong?_work work nodes (List.prefix_refl work)
  parent_eq := fun _ _ => nodeAmong?_parent work nodes

/-- Whether a name in a path leads on to something else. -/
def isStep (name : String) : Bool := name != "" && name != "."

/-- A file system with the null device and the given files in its working directory. -/
def ofFiles (files : List (String × ByteArray)) : FileSystem :=
  let work := ["tmp", "work"]
  ofNodes work ((["dev", "null"], .null) ::
    files.map fun (path, bytes) => (work ++ (names path).filter isStep, .file bytes))

end FileSystem

instance : FileAccess (StateM FileSystem) where
  read path := fun fs => (fs.read? path, fs)
  create path := fun fs =>
    match fs.create? path with
    | some fs => (true, fs)
    | none => (false, fs)
  write path bytes := fun fs => ((), fs.write path bytes)

end GlyphMachine
