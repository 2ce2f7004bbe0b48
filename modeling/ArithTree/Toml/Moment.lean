/-!
# TOML dates and times

A date, a time of day, or both with an optional offset. Nothing is kept but where the rest begins.
-/

namespace ArithTree.Toml.Moment

/-- Two digits with a value between two bounds. -/
def pair? (least greatest : Nat) : List Char → Option (Nat × List Char)
  | a :: b :: cs =>
    if a.isDigit && b.isDigit then
      let n := 10 * (a.toNat - '0'.toNat) + (b.toNat - '0'.toNat)
      if least ≤ n && n ≤ greatest then some (n, cs) else none
    else none
  | _ => none

def char? (c : Char) : List Char → Option (List Char)
  | d :: cs => if d = c then some cs else none
  | [] => none

/-- The year is divisible by four, and by 400 if by 100. -/
def isLeap (year : Nat) : Bool := year % 4 == 0 && (year % 100 != 0 || year % 400 == 0)

def daysIn (year month : Nat) : Nat :=
  if month = 2 then if isLeap year then 29 else 28
  else if month = 4 || month = 6 || month = 9 || month = 11 then 30
  else 31

/-- A day of the calendar. -/
def date? (cs : List Char) : Option (List Char) := do
  let (century, cs) ← pair? 0 99 cs
  let (year, cs) ← pair? 0 99 cs
  let cs ← char? '-' cs
  let (month, cs) ← pair? 1 12 cs
  let cs ← char? '-' cs
  let (_, cs) ← pair? 1 (daysIn (100 * century + year) month) cs
  return cs

/-- A time of day to the second, with room for a leap second, and any number of decimals. -/
def time? (cs : List Char) : Option (List Char) := do
  let (_, cs) ← pair? 0 23 cs
  let cs ← char? ':' cs
  let (_, cs) ← pair? 0 59 cs
  let cs ← char? ':' cs
  let (_, cs) ← pair? 0 60 cs
  match cs with
  | '.' :: d :: more => return if d.isDigit then more.dropWhile Char.isDigit else cs
  | _ => return cs

/-- The distance from universal time. -/
def offset? : List Char → Option (List Char)
  | [] => none
  | c :: cs =>
    if c = 'Z' || c = 'z' then some cs
    else if c = '+' || c = '-' then do
      let (_, cs) ← pair? 0 23 cs
      let cs ← char? ':' cs
      let (_, cs) ← pair? 0 59 cs
      return cs
    else none

/-- The time behind a date, if there is one. -/
def afterDate (cs : List Char) : List Char :=
  match cs with
  | c :: more =>
    if c = 'T' || c = 't' || c = ' ' then
      match time? more with
      | some rest => (offset? rest).getD rest
      | none => cs
    else cs
  | [] => []

/-- A moment in any form. -/
def read? (cs : List Char) : Option (List Char) := ((date? cs).map afterDate).or (time? cs)

end ArithTree.Toml.Moment
