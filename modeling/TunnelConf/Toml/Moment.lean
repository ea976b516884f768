import TunnelConf.Text.Number

/-!
# Dates and times of a TOML document

A date, a time of day, or both, with an offset from universal time or without. The parts are
checked against the calendar.
-/

namespace TunnelConf

namespace Toml

/-- A number of exactly `width` digits between two bounds. -/
def readFixed? (width low high : Nat) (t : Text) : Option (Nat × Text) :=
  let digits := t.take width
  let n := Text.valueOf 10 digits
  if digits.length = width && digits.all Text.isDigit && low ≤ n && n ≤ high then
    some (n, t.drop width)
  else none

def expectAny? (cs : List Char) (t : Text) : Option Text :=
  match t with
  | [] => none
  | c :: t => if cs.contains c then some t else none

def isLeapYear (y : Nat) : Bool := y % 4 = 0 && (y % 100 != 0 || y % 400 = 0)

def daysIn (year month : Nat) : Nat :=
  if month = 2 then (if isLeapYear year then 29 else 28)
  else if [4, 6, 9, 11].contains month then 30
  else 31

/-- What follows a date. -/
def afterDate? (t : Text) : Option Text := do
  let (year, t) ← readFixed? 4 0 9999 t
  let (month, t) ← readFixed? 2 1 12 (← expectAny? ['-'] t)
  let (_, t) ← readFixed? 2 1 (daysIn year month) (← expectAny? ['-'] t)
  return t

/-- What follows a time of day, which may have a fraction of a second. -/
def afterTime? (t : Text) : Option Text := do
  let (_, t) ← readFixed? 2 0 23 t
  let (_, t) ← readFixed? 2 0 59 (← expectAny? [':'] t)
  let (_, t) ← readFixed? 2 0 60 (← expectAny? [':'] t)
  match expectAny? ['.'] t with
  | none => return t
  | some u =>
    if (u.takeWhile Text.isDigit).isEmpty then none else return u.dropWhile Text.isDigit

/-- What follows an offset from universal time. -/
def afterOffset? (t : Text) : Option Text :=
  match expectAny? ['Z', 'z'] t with
  | some t => some t
  | none => do
    let (_, t) ← readFixed? 2 0 23 (← expectAny? ['+', '-'] t)
    let (_, t) ← readFixed? 2 0 59 (← expectAny? [':'] t)
    return t

/-- What follows a date, a time of day, or both. -/
def afterMoment? (t : Text) : Option Text :=
  match afterDate? t with
  | none => afterTime? t
  | some r =>
    match (expectAny? ['T', 't', ' '] r).bind afterTime? with
    | none => some r
    | some r => some ((afterOffset? r).getD r)

/-- A date, a time of day, or both, as it is written. -/
def readMoment? (t : Text) : Option (Text × Text) :=
  (afterMoment? t).map fun r => (t.take (t.length - r.length), r)

end Toml

end TunnelConf
