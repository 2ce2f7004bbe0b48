import ArithTree.Text.Numeral
import ArithTree.Toml.Value

/-!
# TOML numbers

Whole numbers are kept when they fit into 64 bits with sign, and refused otherwise. Of a number with
a fraction or an exponent only the kind is kept, but one that is too large for a double, rounded to
nearest, is refused too.
-/

namespace ArithTree.Toml

/-- Digits with single underscores between them, the underscores left out. -/
def digitRun (isDigit : Char → Bool) : List Char → List Char × List Char
  | [] => ([], [])
  | c :: cs =>
    if isDigit c then
      let (digits, rest) := digitRun isDigit cs
      (c :: digits, rest)
    else if c = '_' && (cs.head?.elim false isDigit) then digitRun isDigit cs
    else ([], c :: cs)

/-- A run that starts with a digit. -/
def digits? (isDigit : Char → Bool) (cs : List Char) : Option (List Char × List Char) :=
  if cs.head?.elim false isDigit then some (digitRun isDigit cs) else none

def digitValue (c : Char) : Nat :=
  if c.isDigit then c.toNat - '0'.toNat else c.toLower.toNat - 'a'.toNat + 10

def valueIn (base : Nat) (digits : List Char) : Nat :=
  digits.foldl (fun n c => base * n + digitValue c) 0

/-- A whole number within the range of 64 bits. -/
def integerOf? (negative : Bool) (magnitude : Nat) : Option Value :=
  if negative then
    if magnitude ≤ Text.Numeral.maxSigned + 1 then some (.integer (-(magnitude : Int))) else none
  else if magnitude ≤ Text.Numeral.maxSigned then some (.integer magnitude) else none

/-- A number in base 16, 8 or 2, from behind its two-character mark on. -/
def based? (base : Nat) (cs : List Char) : Option (Value × List Char) := do
  let isDigit := fun c : Char =>
    (c.isDigit || ('a' ≤ c && c ≤ 'f') || ('A' ≤ c && c ≤ 'F')) && digitValue c < base
  let (digits, rest) ← digits? isDigit cs
  return (← integerOf? false (valueIn base digits), rest)

/-- The first number that rounds to no double, half a unit above the largest one. -/
def doubleLimit : Nat := Nat.pow 2 1024 - Nat.pow 2 970

/-- Whether `mantissa * 10 ^ exponent` rounds to a double. -/
def fitsDouble (mantissa : Nat) (exponent : Int) : Bool :=
  if mantissa = 0 then true
  else if 0 ≤ exponent then exponent ≤ 400 && mantissa * Nat.pow 10 exponent.toNat < doubleLimit
  else
    let places := (-exponent).toNat
    (Nat.toDigits 10 mantissa).length ≤ places || mantissa < doubleLimit * Nat.pow 10 places

/-- A fraction, if here is one; a point without digits is an error. -/
def fraction? : List Char → Option (List Char × List Char)
  | '.' :: cs => digits? Char.isDigit cs
  | cs => some ([], cs)

/-- An exponent, if here is one; a mark without digits is an error. -/
def exponent? : List Char → Option (Option Int × List Char)
  | c :: cs =>
    if c = 'e' || c = 'E' then
      match cs with
      | '-' :: cs => (digits? Char.isDigit cs).map fun (ds, rest) =>
          (some (-(valueIn 10 ds : Int)), rest)
      | '+' :: cs => (digits? Char.isDigit cs).map fun (ds, rest) =>
          (some (valueIn 10 ds : Int), rest)
      | cs => (digits? Char.isDigit cs).map fun (ds, rest) => (some (valueIn 10 ds : Int), rest)
    else some (none, c :: cs)
  | [] => some (none, [])

/-- The digits before the point: a lone zero, or a run without a leading zero. -/
def wholePart? : List Char → Option (List Char × List Char)
  | '0' :: cs => some (['0'], cs)
  | cs => digits? Char.isDigit cs

/-- A number in base ten behind its sign. -/
def unsignedNumber? (negative : Bool) (cs : List Char) : Option (Value × List Char) := do
  let (whole, rest) ← wholePart? cs
  let (fraction, afterFraction) ← fraction? rest
  let (exponent, afterExponent) ← exponent? afterFraction
  if fraction.isEmpty && exponent.isNone then
    return (← integerOf? negative (valueIn 10 whole), rest)
  let mantissa := valueIn 10 (whole ++ fraction)
  if negative || fitsDouble mantissa (exponent.getD 0 - fraction.length) then
    return (.decimal, afterExponent)
  none

/-- Infinity or no number. -/
def special? : List Char → Option (Value × List Char)
  | 'i' :: 'n' :: 'f' :: cs => some (.decimal, cs)
  | 'n' :: 'a' :: 'n' :: cs => some (.decimal, cs)
  | _ => none

/-- A number in any form. Only base ten takes a sign. -/
def number? : List Char → Option (Value × List Char)
  | '0' :: 'x' :: cs => based? 16 cs
  | '0' :: 'o' :: cs => based? 8 cs
  | '0' :: 'b' :: cs => based? 2 cs
  | '-' :: cs => (special? cs).or (unsignedNumber? true cs)
  | '+' :: cs => (special? cs).or (unsignedNumber? false cs)
  | cs => (special? cs).or (unsignedNumber? false cs)

end ArithTree.Toml
