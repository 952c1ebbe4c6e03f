import GlyphMachine.Document.Calendar

/-!
# Values of a settings document

A document is a tree of tables.  What may still be added to a table depends on how it came to
be: a table in braces is complete, a table with a header takes keys only under that header, and
tables that merely lie on the way to something else may be filled in later.
-/

namespace GlyphMachine.Document

/-- How a table came to be. -/
inductive Origin where
  /-- It was written in braces. -/
  | inline
  /-- It has a header of its own. -/
  | header
  /-- It lies on the way to a table with a header. -/
  | implied
  /-- It lies on the way to a value, through a dotted key. -/
  | dotted
deriving DecidableEq

/-- A value. -/
inductive Value where
  | string (s : String)
  | boolean (b : Bool)
  | integer (n : Int)
  | decimal (x : Decimal)
  | moment (m : Moment)
  | array (items : List Value)
  | table (origin : Origin) (fields : List (String × Value))

/-- The keys of a table with their values. -/
abbrev Fields := List (String × Value)

namespace Fields

/-- The fields with the value at `key` replaced, or added at the end. -/
def set (fields : Fields) (key : String) (v : Value) : Fields :=
  match fields with
  | [] => [(key, v)]
  | (k, old) :: rest => if k = key then (k, v) :: rest else (k, old) :: set rest key v

/-- Adds a value under a new key. -/
def add? (fields : Fields) (key : String) (v : Value) : Option Fields :=
  if (fields.lookup key).isSome then none else some (fields.set key v)

/-- Adds a value under a dotted key: `path` leads to the table, `key` is the last part.  A table
on the way must be new, or must have no header; the table reached must belong to dotted keys. -/
def addDotted? (fields : Fields) (path : List String) (key : String) (v : Value) : Option Fields :=
  match path with
  | [] => fields.add? key v
  | step :: path => do
    let inner ← match fields.lookup step with
      | none => addDotted? [] path key v
      | some (.table .dotted inner) => addDotted? inner path key v
      | some (.table .implied inner) => if path.isEmpty then none else addDotted? inner path key v
      | some _ => none
    let origin := match fields.lookup step with
      | some (.table origin _) => origin
      | _ => .dotted
    some (fields.set step (.table origin inner))

/-- Opens the table with the header `path`, whose last part is `key`.  It must be new, or only
implied so far. -/
def openTable? (fields : Fields) (path : List String) (key : String) : Option Fields :=
  match path with
  | [] =>
    match fields.lookup key with
    | none => some (fields.set key (.table .header []))
    | some (.table .implied inner) => some (fields.set key (.table .header inner))
    | some _ => none
  | step :: path =>
    match fields.lookup step with
    | none => do some (fields.set step (.table .implied (← openTable? [] path key)))
    | some (.table .inline _) => none
    | some (.table origin inner) => do
      some (fields.set step (.table origin (← openTable? inner path key)))
    | some _ => none

/-- Changes the fields of the table at `path`. -/
def within? (fields : Fields) (path : List String) (change : Fields → Option Fields) :
    Option Fields :=
  match path with
  | [] => change fields
  | step :: path =>
    match fields.lookup step with
    | some (.table origin inner) => do
      some (fields.set step (.table origin (← within? inner path change)))
    | _ => none

end Fields
end GlyphMachine.Document
