import Pinning.Decimal.Digits

/-!
Dates and times of TOML documents: a date, a time of day, or both, with or without an offset from
universal time. Dates follow the Gregorian calendar from the year 0 on, and a minute may have a
leap second. A date without a readable time after it stands for itself.
-/

namespace Pinning.Toml

def isLeap (year : Nat) : Bool := year % 4 = 0 ∧ (year % 100 ≠ 0 ∨ year % 400 = 0)

def daysIn (year month : Nat) : Nat :=
  if month = 2 then if isLeap year then 29 else 28
  else if month ∈ [4, 6, 9, 11] then 30
  else 31

structure Date where
  year : Nat
  month : Nat
  day : Nat
  month_valid : 1 ≤ month ∧ month ≤ 12
  day_valid : 1 ≤ day ∧ day ≤ daysIn year month
deriving DecidableEq

/-- A time of day. -/
structure Clock where
  hour : Nat
  minute : Nat
  second : Nat
  nanosecond : Nat
  valid : hour ≤ 23 ∧ minute ≤ 59 ∧ second ≤ 60
deriving DecidableEq

inductive Moment where
  | date (date : Date)
  | clock (clock : Clock)
  /-- A time of a day; the offset is in minutes. -/
  | full (date : Date) (clock : Clock) (offset : Option Int)
deriving DecidableEq

/-- A number of exactly `n` digits. -/
def field (n : Nat) (cs : List Char) : Option (Nat × List Char) :=
  let ds := cs.take n
  if ds.length = n ∧ ds.all Char.isDigit then some (Decimal.digitsValue ds, cs.drop n) else none

/-- A number of two digits after a mark. -/
def fieldAfter (mark : Char) : List Char → Option (Nat × List Char)
  | c :: cs => if c = mark then field 2 cs else none
  | [] => none

def Date.read (cs : List Char) : Option (Date × List Char) := do
  let (year, cs) ← field 4 cs
  let (month, cs) ← fieldAfter '-' cs
  let (day, cs) ← fieldAfter '-' cs
  if hm : 1 ≤ month ∧ month ≤ 12 then
    if hd : 1 ≤ day ∧ day ≤ daysIn year month then some (⟨year, month, day, hm, hd⟩, cs) else none
  else none

namespace Clock

/-- The nanoseconds of a fraction of a second; digits past the ninth are dropped. -/
def fraction (cs : List Char) : Nat × List Char :=
  match cs with
  | '.' :: rest =>
    let ds := rest.takeWhile Char.isDigit
    if ds = [] then (0, cs)
    else (Decimal.digitsValue ((ds ++ List.replicate 9 '0').take 9), rest.drop ds.length)
  | cs => (0, cs)

def read (cs : List Char) : Option (Clock × List Char) := do
  let (hour, cs) ← field 2 cs
  let (minute, cs) ← fieldAfter ':' cs
  let (second, cs) ← fieldAfter ':' cs
  let (nanosecond, cs) := fraction cs
  if h : hour ≤ 23 ∧ minute ≤ 59 ∧ second ≤ 60 then
    some (⟨hour, minute, second, nanosecond, h⟩, cs)
  else none

end Clock

namespace Moment

/-- The offset from universal time in minutes, if there is one. -/
def offset (cs : List Char) : Option Int × List Char :=
  match cs with
  | 'Z' :: rest | 'z' :: rest => (some 0, rest)
  | '+' :: rest => ((minutes rest).map fun (m, rest) => (some (m : Int), rest)).getD (none, cs)
  | '-' :: rest => ((minutes rest).map fun (m, rest) => (some (-(m : Int)), rest)).getD (none, cs)
  | cs => (none, cs)
where
  minutes (cs : List Char) : Option (Nat × List Char) := do
    let (hour, cs) ← field 2 cs
    let (minute, cs) ← fieldAfter ':' cs
    if hour ≤ 23 ∧ minute ≤ 59 then some (60 * hour + minute, cs) else none

/-- A time after a date and the letter or blank between them. -/
def clockAfter (d : Date) : List Char → Option (Moment × List Char)
  | c :: cs =>
    if c = 'T' ∨ c = 't' ∨ c = ' ' then
      (Clock.read cs).map fun (time, cs) => (.full d time (offset cs).1, (offset cs).2)
    else none
  | [] => none

def read (cs : List Char) : Option (Moment × List Char) :=
  match Date.read cs with
  | some (d, cs) => some ((clockAfter d cs).getD (.date d, cs))
  | none => (Clock.read cs).map fun (time, cs) => (.clock time, cs)

end Moment

end Pinning.Toml
