/-!
# Words of a settings document

Readers for the small parts: blanks, line ends, comments, strings and keys.  A reader takes the
characters still to be read and gives back what it read with the rest, or nothing when they do
not have the right form.
-/

namespace GlyphMachine.Document

/-- A reader of some part of a text. -/
abbrev Reader (α : Type) := List Char → Option (α × List Char)

/-- Whether a character is a blank within a line. -/
def isBlank (c : Char) : Bool := c == ' ' || c == '\t'

/-- Whether a character may stand in a comment or, apart from delimiters, in a string. -/
def isPlain (c : Char) : Bool := c == '\t' || (' ' ≤ c && c != '\x7f')

/-- Skips blanks. -/
def skipBlanks (cs : List Char) : List Char := cs.dropWhile isBlank

/-- Skips a comment, if one starts here. -/
def skipComment (cs : List Char) : List Char :=
  match cs with
  | '#' :: rest => rest.dropWhile isPlain
  | cs => cs

/-- Skips a line end, if there is one. -/
def lineEnd? : List Char → Option (List Char)
  | '\n' :: rest => some rest
  | '\r' :: '\n' :: rest => some rest
  | _ => none

/-- What remains after blanks and a comment up to the end of the line, or of the text. -/
def restOfLine? (cs : List Char) : Option (List Char) :=
  match skipComment (skipBlanks cs) with
  | [] => some []
  | rest => lineEnd? rest

/-- Skips blanks and line ends, of which there are at most `fuel`. -/
def skipLines (fuel : Nat) (cs : List Char) : List Char :=
  match fuel with
  | 0 => cs
  | fuel + 1 =>
    match lineEnd? (skipBlanks cs) with
    | some rest => skipLines fuel rest
    | none => skipBlanks cs

/-- Skips blanks, comments and line ends, of which there are at most `fuel`. -/
def skipSpace (fuel : Nat) (cs : List Char) : List Char :=
  match fuel with
  | 0 => cs
  | fuel + 1 =>
    match lineEnd? (skipComment (skipBlanks cs)) with
    | some rest => skipSpace fuel rest
    | none => skipComment (skipBlanks cs)

/-! ## Strings -/

/-- The value of a hexadecimal digit of either case. -/
def hexDigit? (c : Char) : Option Nat :=
  if '0' ≤ c ∧ c ≤ '9' then some (c.toNat - 48)
  else if 'A' ≤ c ∧ c ≤ 'F' then some (c.toNat - 55)
  else if 'a' ≤ c ∧ c ≤ 'f' then some (c.toNat - 87)
  else none

/-- The character with exactly `digits` hexadecimal digits as its code point. -/
def codePoint? (digits : Nat) (cs : List Char) : Option (Char × List Char) := do
  let ds ← (cs.take digits).mapM hexDigit?
  let n := ds.foldl (fun n d => 16 * n + d) 0
  if ds.length = digits ∧ n.isValidChar then some (Char.ofNat n, cs.drop digits) else none

/-- The character of an escape, after its backslash. -/
def escape? : List Char → Option (Char × List Char)
  | 'b' :: rest => some ('\x08', rest)
  | 't' :: rest => some ('\t', rest)
  | 'n' :: rest => some ('\n', rest)
  | 'f' :: rest => some ('\x0c', rest)
  | 'r' :: rest => some ('\r', rest)
  | '\x22' :: rest => some ('\x22', rest)
  | '\\' :: rest => some ('\\', rest)
  | 'u' :: rest => codePoint? 4 rest
  | 'U' :: rest => codePoint? 8 rest
  | _ => none

/-- The rest of a string in double quotes; `read` holds what was read, last first. -/
def basicString (fuel : Nat) (read : List Char) (cs : List Char) : Option (String × List Char) :=
  match fuel, cs with
  | 0, _ => none
  | _ + 1, '\x22' :: rest => some (String.ofList read.reverse, rest)
  | fuel + 1, '\\' :: rest => do
    let (c, rest) ← escape? rest
    basicString fuel (c :: read) rest
  | fuel + 1, c :: rest => if isPlain c then basicString fuel (c :: read) rest else none
  | _ + 1, [] => none

/-- A string in single quotes, after the first of them. -/
def literalString (cs : List Char) : Option (String × List Char) :=
  match cs.dropWhile fun c => isPlain c && c != '\x27' with
  | '\x27' :: rest =>
    some (String.ofList (cs.takeWhile fun c => isPlain c && c != '\x27'), rest)
  | _ => none

/-- The end of a string in triple quotes: three of them, after at most two that belong to the
string. -/
def tripleEnd? (quote : Char) (read cs : List Char) : Option (String × List Char) :=
  let run := (cs.takeWhile (· == quote)).length
  if 3 ≤ run ∧ run ≤ 5 then
    some (String.ofList (read.reverse ++ List.replicate (run - 3) quote), cs.drop run)
  else none

/-- The rest of a string in three double quotes.  A backslash at the end of a line joins it with
the next text. -/
def multilineBasic (fuel : Nat) (read cs : List Char) : Option (String × List Char) :=
  match fuel, cs with
  | 0, _ => none
  | _ + 1, '\x22' :: '\x22' :: '\x22' :: _ => tripleEnd? '\x22' read cs
  | fuel + 1, '\\' :: rest =>
    match lineEnd? (skipBlanks rest) with
    | some rest => multilineBasic fuel read (skipLines (rest.length + 1) rest)
    | none => do
      let (c, rest) ← escape? rest
      multilineBasic fuel (c :: read) rest
  | fuel + 1, c :: rest =>
    match lineEnd? cs with
    | some rest => multilineBasic fuel ('\n' :: read) rest
    | none => if isPlain c then multilineBasic fuel (c :: read) rest else none
  | _ + 1, [] => none

/-- The rest of a string in three single quotes. -/
def multilineLiteral (fuel : Nat) (read cs : List Char) : Option (String × List Char) :=
  match fuel, cs with
  | 0, _ => none
  | _ + 1, '\x27' :: '\x27' :: '\x27' :: _ => tripleEnd? '\x27' read cs
  | fuel + 1, c :: rest =>
    match lineEnd? cs with
    | some rest => multilineLiteral fuel ('\n' :: read) rest
    | none => if isPlain c then multilineLiteral fuel (c :: read) rest else none
  | _ + 1, [] => none

/-- Drops the line end that directly follows opening triple quotes. -/
def dropFirstLineEnd (cs : List Char) : List Char := (lineEnd? cs).getD cs

/-- A string of any kind. -/
def string? : Reader String
  | '\x22' :: '\x22' :: '\x22' :: rest =>
    multilineBasic (rest.length + 1) [] (dropFirstLineEnd rest)
  | '\x27' :: '\x27' :: '\x27' :: rest =>
    multilineLiteral (rest.length + 1) [] (dropFirstLineEnd rest)
  | '\x22' :: rest => basicString (rest.length + 1) [] rest
  | '\x27' :: rest => literalString rest
  | _ => none

/-! ## Keys -/

/-- Whether a character may stand in a key without quotes. -/
def isKeyChar (c : Char) : Bool := c.isAlphanum || c == '-' || c == '_'

/-- One part of a key. -/
def keyPart? : Reader String
  | '\x22' :: rest => basicString (rest.length + 1) [] rest
  | '\x27' :: rest => literalString rest
  | cs =>
    match cs.takeWhile isKeyChar with
    | [] => none
    | part => some (String.ofList part, cs.dropWhile isKeyChar)

/-- A key: its parts but the last, the last part, and the rest after any blanks.  `fuel` bounds
the number of parts. -/
def key? (fuel : Nat) (cs : List Char) : Option ((List String × String) × List Char) :=
  match fuel with
  | 0 => none
  | fuel + 1 => do
    let (part, rest) ← keyPart? (skipBlanks cs)
    match skipBlanks rest with
    | '.' :: rest => do
      let ((path, last), rest) ← key? fuel rest
      some ((part :: path, last), rest)
    | rest => some (([], part), rest)

end GlyphMachine.Document
