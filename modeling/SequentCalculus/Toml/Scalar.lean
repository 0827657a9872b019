import SequentCalculus.Toml.Value

/-! # Truth values, numbers, dates and times in TOML

    A scalar runs up to the next blank, line end or comment, or to a sign that
    separates or encloses values.  What kind it is follows from its spelling
    alone. -/

namespace SequentCalculus.Toml

/-- The characters that end a scalar. -/
def scalarEnds : List Char :=
  ['=', ',', '[', ']', '\x7b', '\x7d', '#', ' ', '\t', '\r', '\n']

/-- A character that may stand in a scalar. -/
def isScalarChar (c : Char) : Bool := !scalarEnds.contains c

/-! ## Dates and times -/

/-- The number spelled by exactly `n` digits in front, and the rest. -/
def fixedDigits? (n : Nat) (cs : List Char) : Option (Nat × List Char) := do
  let ds := cs.take n
  if ds.length = n ∧ ds.all Char.isDigit then some (← ofDigits? 10 ds, cs.drop n) else none

/-- Drops an expected character. -/
def expect? (c : Char) : List Char → Option (List Char)
  | d :: cs => if d = c then some cs else none
  | [] => none

def isLeapYear (y : Nat) : Bool := y % 4 == 0 && (y % 100 != 0 || y % 400 == 0)

/-- The number of days in a month. -/
def daysIn (year month : Nat) : Nat :=
  if month = 2 then (if isLeapYear year then 29 else 28)
  else if month = 4 ∨ month = 6 ∨ month = 9 ∨ month = 11 then 30
  else 31

/-- Reads a date and returns the rest. -/
def date? (cs : List Char) : Option (List Char) := do
  let (year, cs) ← fixedDigits? 4 cs
  let (month, cs) ← fixedDigits? 2 (← expect? '-' cs)
  let (day, cs) ← fixedDigits? 2 (← expect? '-' cs)
  if 1 ≤ month ∧ month ≤ 12 ∧ 1 ≤ day ∧ day ≤ daysIn year month then some cs else none

/-- Reads a fraction of a second, if there is one, and returns the rest. -/
def secondFraction? : List Char → Option (List Char)
  | '.' :: cs =>
      if (cs.takeWhile Char.isDigit).isEmpty then none else some (cs.dropWhile Char.isDigit)
  | cs => some cs

/-- Reads a time of day, whose seconds may be left out, and returns the rest. -/
def time? (cs : List Char) : Option (List Char) := do
  let (hour, cs) ← fixedDigits? 2 cs
  let (minute, cs) ← fixedDigits? 2 (← expect? ':' cs)
  if 23 < hour ∨ 59 < minute then none
  else
    match cs with
    | ':' :: rest => do
        let (second, rest) ← fixedDigits? 2 rest
        if 60 < second then none else secondFraction? rest
    | _ => some cs

/-- Whether the characters spell an offset from universal time. -/
def isOffset : List Char → Bool
  | ['Z'] => true
  | ['z'] => true
  | sign :: cs =>
      (sign == '+' || sign == '-') &&
        match (do
          let (hour, cs) ← fixedDigits? 2 cs
          let (minute, cs) ← fixedDigits? 2 (← expect? ':' cs)
          some (hour, minute, cs)) with
        | some (hour, minute, []) => hour ≤ 23 && minute ≤ 59
        | _ => false
  | [] => false

/-- Whether the characters spell a date, a time, or a date and a time with or
    without an offset. -/
def isDatetime (cs : List Char) : Bool :=
  match date? cs with
  | some [] => true
  | some (mark :: rest) =>
      (mark == 'T' || mark == 't' || mark == ' ') &&
        match time? rest with
        | some [] => true
        | some rest => isOffset rest
        | none => false
  | none => time? cs == some []

/-! ## All scalars -/

/-- The value that a run of scalar characters spells. -/
def scalar? (cs : List Char) : Option Value :=
  if cs = ['t', 'r', 'u', 'e'] then some (.boolean true)
  else if cs = ['f', 'a', 'l', 's', 'e'] then some (.boolean false)
  else
    match numeral? cs with
    | some n => some (.number n)
    | none => if isDatetime cs then some (.datetime (String.ofList cs)) else none

/-- Reads a scalar and returns the rest.  Behind a date a single blank and a
    time belong to it. -/
def readScalar? (cs : List Char) : Option (Value × List Char) := do
  let run := cs.takeWhile isScalarChar
  let rest := cs.dropWhile isScalarChar
  match rest with
  | ' ' :: d :: more =>
      if date? run = some [] ∧ d.isDigit then
        let time := (d :: more).takeWhile isScalarChar
        let rest := (d :: more).dropWhile isScalarChar
        some (← scalar? (run ++ ' ' :: time), rest)
      else some (← scalar? run, rest)
  | _ => some (← scalar? run, rest)

end SequentCalculus.Toml
