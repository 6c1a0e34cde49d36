import PlacementTree.Decimal.Numeral

/-!
# Dates and times

TOML has values for dates, times of day and both together, with or without an offset from universal time. A `Moment` is one of
them; `Moment.read` refuses what no calendar and no clock shows, and `Moment.text` writes every one in the same form.
-/

namespace PlacementTree.Toml

open Decimal (ofDigits)

/-- A day of the calendar. -/
structure Date where
  year : Nat
  month : Nat
  day : Nat
  deriving DecidableEq, Repr

/-- A time of day, to the nanosecond. A second may be a leap second. -/
structure TimeOfDay where
  hour : Nat
  minute : Nat
  second : Nat
  nanosecond : Nat
  deriving DecidableEq, Repr

/-- How far a clock is from universal time. -/
inductive Offset where
  | universal
  | minutes (east : Int)
  deriving DecidableEq, Repr

/-- A date, a time, or both; an offset belongs to both. -/
inductive Moment where
  | onDay (date : Date)
  | atTime (time : TimeOfDay)
  | onDayAtTime (date : Date) (time : TimeOfDay) (offset : Option Offset)
  deriving DecidableEq, Repr

/-- Two digits in front of a text whose number is in a range, and what follows. -/
def twoDigits? (low high : Nat) : List Char → Option (Nat × List Char)
  | a :: b :: rest =>
    if a.isDigit && b.isDigit then
      let n := ofDigits [a, b]
      if low ≤ n ∧ n ≤ high then some (n, rest) else none
    else none
  | _ => none

def isLeapYear (year : Nat) : Bool := year % 4 == 0 && (year % 100 != 0 || year % 400 == 0)

def daysOfMonth (year month : Nat) : Nat :=
  if month = 2 then if isLeapYear year then 29 else 28
  else if month = 4 ∨ month = 6 ∨ month = 9 ∨ month = 11 then 30
  else 31

/-- A character in front of a text. -/
def after? (c : Char) : List Char → Option (List Char)
  | d :: rest => if d = c then some rest else none
  | [] => none

/-- A date in front of a text, and what follows. -/
def Date.read : List Char → Option (Date × List Char)
  | a :: b :: c :: d :: '-' :: rest => do
    if !(a.isDigit && b.isDigit && c.isDigit && d.isDigit) then none
    let year := ofDigits [a, b, c, d]
    let (month, rest) ← twoDigits? 1 12 rest
    let rest ← after? '-' rest
    let (day, rest) ← twoDigits? 1 31 rest
    if daysOfMonth year month < day then none
    return ({ year, month, day }, rest)
  | _ => none

/-- The nanoseconds of the digits after the point of a second. Digits beyond the ninth do not count. -/
def nanoseconds (digits : List Char) : Nat := ofDigits ((digits ++ List.replicate 9 '0').take 9)

/-- A time in front of a text, and what follows. -/
def TimeOfDay.read (cs : List Char) : Option (TimeOfDay × List Char) := do
  let (hour, rest) ← twoDigits? 0 23 cs
  let rest ← after? ':' rest
  let (minute, rest) ← twoDigits? 0 59 rest
  let rest ← after? ':' rest
  let (second, rest) ← twoDigits? 0 60 rest
  match rest with
  | '.' :: rest =>
    let (digits, rest) := Decimal.splitDigits rest
    if digits.isEmpty then none else some ({ hour, minute, second, nanosecond := nanoseconds digits }, rest)
  | rest => some ({ hour, minute, second, nanosecond := 0 }, rest)

/-- An offset that is all that is left of a text, or nothing. -/
def Offset.read : List Char → Option (Option Offset)
  | [] => some none
  | ['Z'] => some (some .universal)
  | ['z'] => some (some .universal)
  | sign :: rest => do
    let east ← if sign = '+' then some 1 else if sign = '-' then some (-1 : Int) else none
    let (hour, rest) ← twoDigits? 0 23 rest
    let rest ← after? ':' rest
    let (minute, rest) ← twoDigits? 0 59 rest
    if rest.isEmpty then some (some (.minutes (east * Int.ofNat (hour * 60 + minute)))) else none

/-- What stands between a date and a time. -/
def isDateTimeSeparator (c : Char) : Bool := c == 'T' || c == 't' || c == ' '

/-- The moment that a whole text stands for. -/
def Moment.read (cs : List Char) : Option Moment :=
  match Date.read cs with
  | some (date, []) => some (.onDay date)
  | some (date, separator :: rest) =>
    if isDateTimeSeparator separator then do
      let (time, rest) ← TimeOfDay.read rest
      let offset ← Offset.read rest
      return .onDayAtTime date time offset
    else none
  | none =>
    match TimeOfDay.read cs with
    | some (time, []) => some (.atTime time)
    | _ => none

/-- A number with zeros in front, at least `width` digits. -/
def padded (width n : Nat) : List Char :=
  let digits := Nat.toDigits 10 n
  List.replicate (width - digits.length) '0' ++ digits

def Date.text (d : Date) : List Char := padded 4 d.year ++ '-' :: padded 2 d.month ++ '-' :: padded 2 d.day

/-- Digits without the zeros at their end. -/
def dropTrailingZeros (digits : List Char) : List Char := (digits.reverse.dropWhile (· == '0')).reverse

def TimeOfDay.text (t : TimeOfDay) : List Char :=
  padded 2 t.hour ++ ':' :: padded 2 t.minute ++ ':' :: padded 2 t.second ++
    if t.nanosecond = 0 then [] else '.' :: dropTrailingZeros (padded 9 t.nanosecond)

def Offset.text : Offset → List Char
  | .universal => ['Z']
  | .minutes east =>
    (if east < 0 then '-' else '+') :: padded 2 (east.natAbs / 60) ++ ':' :: padded 2 (east.natAbs % 60)

/-- The one form in which a moment is written. -/
def Moment.text : Moment → String
  | .onDay date => String.ofList date.text
  | .atTime time => String.ofList time.text
  | .onDayAtTime date time offset => String.ofList (date.text ++ 'T' :: time.text ++ (offset.map Offset.text).getD [])

end PlacementTree.Toml
