import GlyphMachine.Document.Text
import GlyphMachine.Document.Value

/-!
# Settings documents

The part of TOML that settings are written in: tables, dotted keys, and values of every kind.
No setting is an array of tables, so a document that holds one is refused like any other that
cannot be read.
-/

namespace GlyphMachine.Document

/-- The greatest number of parts of a key, and of brackets open around a value. -/
def maxDepth : Nat := 79

/-- Reads a part and makes a value of it. -/
def readAs {α : Type} (read : Reader α) (make : α → Value) : Reader Value := fun cs =>
  (read cs).map fun (a, rest) => (make a, rest)

/-- A value without parts. -/
def scalar? : Reader Value
  | 't' :: 'r' :: 'u' :: 'e' :: rest => some (.boolean true, rest)
  | 'f' :: 'a' :: 'l' :: 's' :: 'e' :: rest => some (.boolean false, rest)
  | cs =>
    readAs string? .string cs <|> readAs moment? .moment cs <|>
      readAs decimal? .decimal cs <|> readAs integer? .integer cs

mutual

/-- A value; `fuel` bounds the nesting and the number of items, `depth` the brackets that may
still be opened. -/
def value? (fuel depth : Nat) (cs : List Char) : Option (Value × List Char) :=
  match fuel, depth, cs with
  | fuel + 1, depth + 1, '[' :: rest => do
    let (items, rest) ← items? fuel depth (skipSpace (rest.length + 1) rest)
    some (.array items, rest)
  | fuel + 1, depth + 1, '\x7b' :: rest => do
    let (fields, rest) ←
      match skipBlanks rest with
      | '\x7d' :: rest => some ([], rest)
      | rest => pairs? fuel depth [] rest
    some (.table .inline fields, rest)
  | _, _, cs => scalar? cs

/-- The items of an array up to its end; a comma may follow the last. -/
def items? (fuel depth : Nat) (cs : List Char) : Option (List Value × List Char) :=
  match fuel, cs with
  | 0, _ => none
  | _ + 1, ']' :: rest => some ([], rest)
  | fuel + 1, cs => do
    let (v, rest) ← value? fuel depth cs
    match skipSpace (rest.length + 1) rest with
    | ',' :: rest => do
      let (vs, rest) ← items? fuel depth (skipSpace (rest.length + 1) rest)
      some (v :: vs, rest)
    | ']' :: rest => some ([v], rest)
    | _ => none

/-- The pairs of a table in braces up to its end, added to `fields`. -/
def pairs? (fuel depth : Nat) (fields : Fields) (cs : List Char) :
    Option (Fields × List Char) :=
  match fuel with
  | 0 => none
  | fuel + 1 => do
    let ((path, key), rest) ← key? maxDepth cs
    match rest with
    | '=' :: rest => do
      let (v, rest) ← value? fuel depth (skipBlanks rest)
      let fields ← fields.addDotted? path key v
      match skipBlanks rest with
      | ',' :: rest => pairs? fuel depth fields rest
      | '\x7d' :: rest => some (fields, rest)
      | _ => none
    | _ => none

end

/-- A document read so far: its tables, and the header of the table being filled. -/
structure Draft where
  fields : Fields := []
  current : List String := []

/-- Reads one line, or the lines of one value. -/
def Draft.readLine? (d : Draft) (cs : List Char) : Option (Draft × List Char) :=
  match skipBlanks cs with
  | '[' :: rest => do
    let ((path, key), rest) ← key? maxDepth rest
    match rest with
    | ']' :: rest => do
      let fields ← d.fields.openTable? path key
      let rest ← restOfLine? rest
      some (⟨fields, path ++ [key]⟩, rest)
    | _ => none
  | cs =>
    match restOfLine? cs with
    | some rest => some (d, rest)
    | none => do
      let ((path, key), rest) ← key? maxDepth cs
      match rest with
      | '=' :: rest => do
        let (v, rest) ← value? (rest.length + 1) maxDepth (skipBlanks rest)
        let fields ← d.fields.within? d.current (·.addDotted? path key v)
        let rest ← restOfLine? rest
        some ({ d with fields }, rest)
      | _ => none

/-- Reads all lines; `fuel` bounds their number. -/
def Draft.readLines? (fuel : Nat) (d : Draft) (cs : List Char) : Option Draft :=
  match fuel, cs with
  | _, [] => some d
  | 0, _ => none
  | fuel + 1, cs => do
    let (d, rest) ← d.readLine? cs
    readLines? fuel d rest

/-- The root table of a document.  A byte order mark before it is ignored. -/
def parse? (text : String) : Option Fields :=
  let cs := text.toList
  let cs := if cs.head? = some '\ufeff' then cs.tail else cs
  (Draft.readLines? (cs.length + 1) {} cs).map (·.fields)

end GlyphMachine.Document
