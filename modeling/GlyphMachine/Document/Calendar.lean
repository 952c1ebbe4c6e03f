import GlyphMachine.Document.Number

/-!
# Dates and times of a settings document

A date is `2000-02-29`, a time `07:32:00` with an optional fraction of a second.  Both together
are joined by `T`, `t` or one blank, and may be followed by the distance from universal time.
Only dates that the calendar has are read; a minute may have a leap second.
-/

namespace GlyphMachine.Document

/-- A day of the calendar. -/
structure Date where
  year : Nat
  month : Nat
  day : Nat
deriving DecidableEq

/-- A time of day. -/
structure Time where
  hour : Nat
  minute : Nat
  second : Nat
  nanosecond : Nat
deriving DecidableEq

/-- A date, a time, or both, perhaps with the minutes by which they are ahead of universal
time. -/
inductive Moment where
  | date (d : Date)
  | time (t : Time)
  | dateTime (d : Date) (t : Time) (ahead : Option Int)
deriving DecidableEq

/-- The number of days of a month. -/
def daysIn (year month : Nat) : Nat :=
  if month = 2 then
    if year % 4 = 0 ∧ (year % 100 ≠ 0 ∨ year % 400 = 0) then 29 else 28
  else if month = 4 ∨ month = 6 ∨ month = 9 ∨ month = 11 then 30
  else 31

/-- What follows the given character. -/
def after? (c : Char) : List Char → Option (List Char)
  | [] => none
  | d :: rest => if d = c then some rest else none

/-- A number of exactly `count` digits, within the given bounds. -/
def field? (count first last : Nat) (cs : List Char) : Option (Nat × List Char) :=
  let ds := cs.take count
  let n := ofDigits 10 ds
  if ds.length = count ∧ ds.all Char.isDigit ∧ first ≤ n ∧ n ≤ last then some (n, cs.drop count)
  else none

/-- A date. -/
def date? (cs : List Char) : Option (Date × List Char) := do
  let (year, cs) ← field? 4 0 9999 cs
  let cs ← after? '-' cs
  let (month, cs) ← field? 2 1 12 cs
  let cs ← after? '-' cs
  let (day, cs) ← field? 2 1 (daysIn year month) cs
  some (⟨year, month, day⟩, cs)

/-- The nanoseconds after a point, if there is one with digits; those after the ninth are
dropped. -/
def nanoseconds : List Char → Nat × List Char
  | '.' :: cs =>
    match cs.takeWhile Char.isDigit with
    | [] => (0, '.' :: cs)
    | ds =>
      let ds := (ds ++ List.replicate 9 '0').take 9
      (ofDigits 10 ds, cs.dropWhile Char.isDigit)
  | cs => (0, cs)

/-- A time of day. -/
def time? (cs : List Char) : Option (Time × List Char) := do
  let (hour, cs) ← field? 2 0 23 cs
  let cs ← after? ':' cs
  let (minute, cs) ← field? 2 0 59 cs
  let cs ← after? ':' cs
  let (second, cs) ← field? 2 0 60 cs
  let (nanosecond, cs) := nanoseconds cs
  some (⟨hour, minute, second, nanosecond⟩, cs)

/-- The hours and minutes of a distance from universal time, as minutes. -/
def distance? (cs : List Char) : Option (Nat × List Char) := do
  let (hour, cs) ← field? 2 0 23 cs
  let cs ← after? ':' cs
  let (minute, cs) ← field? 2 0 59 cs
  some (60 * hour + minute, cs)

/-- A distance from universal time. -/
def ahead? : Reader Int
  | 'Z' :: rest => some (0, rest)
  | 'z' :: rest => some (0, rest)
  | '+' :: rest => (distance? rest).map fun (n, rest) => (n, rest)
  | '-' :: rest => (distance? rest).map fun (n, rest) => (-n, rest)
  | _ => none

/-- What joins a date and a time. -/
def joint? : List Char → Option (List Char)
  | 'T' :: rest => some rest
  | 't' :: rest => some rest
  | ' ' :: rest => some rest
  | _ => none

/-- A date, a time, or both. -/
def moment? (cs : List Char) : Option (Moment × List Char) :=
  match date? cs with
  | none => (time? cs).map fun (t, rest) => (.time t, rest)
  | some (d, rest) =>
    match (joint? rest).bind time? with
    | none => some (.date d, rest)
    | some (t, rest) =>
      match ahead? rest with
      | none => some (.dateTime d t none, rest)
      | some (ahead, rest) => some (.dateTime d t (some ahead), rest)

end GlyphMachine.Document
