/-!
# Numerals

Runs of ASCII digits read in base ten, with no sign for a literal, with an optional plus for a
position or slot, and with an optional plus or minus for a setting. A numeral may have any number of
leading zeros; only its value is bounded.
-/

namespace ArithTree.Text.Numeral

/-- The largest value of a literal and of a setting that can be written out. -/
def maxSigned : Nat := 0x7fffffffffffffff

/-- The largest position, slot or length. -/
def maxUnsigned : Nat := 0xffffffffffffffff

/-- The value of a non-empty run of digits. -/
def digits? (cs : List Char) : Option Nat :=
  if !cs.isEmpty && cs.all Char.isDigit then some (Nat.ofDigitChars 10 cs 0) else none

/-- The value of a non-empty run of digits, when it is at most `limit`. -/
def digitsUpTo? (limit : Nat) (cs : List Char) : Option Nat :=
  (digits? cs).filter (· ≤ limit)

/-- A position: at most one plus, then digits. -/
def unsigned? : List Char → Option Nat
  | '+' :: cs => digitsUpTo? maxUnsigned cs
  | cs => digitsUpTo? maxUnsigned cs

/-- A signed number: at most one sign, then digits. The negative range is one longer. -/
def signed? : List Char → Option Int
  | '-' :: cs => (digitsUpTo? (maxSigned + 1) cs).map fun n => -(n : Int)
  | '+' :: cs => (digitsUpTo? maxSigned cs).map Int.ofNat
  | cs => (digitsUpTo? maxSigned cs).map Int.ofNat

/-- Exactly the non-empty runs of digits have a value. -/
theorem digits?_isSome_iff (cs : List Char) :
    (digits? cs).isSome = true ↔ cs ≠ [] ∧ ∀ c ∈ cs, c.isDigit = true := by
  unfold digits?
  split
  · next h => simpa using h
  · next h => simpa using h

/-- What is written in base ten reads back. -/
theorem digits?_toDigits (n : Nat) : digits? (Nat.toDigits 10 n) = some n := by
  have digit : ∀ c ∈ Nat.toDigits 10 n, c.isDigit = true :=
    fun c h => Nat.isDigit_of_mem_toDigits (by omega) (by omega) h
  have nonempty : Nat.toDigits 10 n ≠ [] := Nat.toDigits_ne_nil
  have value := @Nat.ofDigitChars_toDigits 10 n (by omega) (by omega)
  simp [digits?, nonempty, value]
  exact digit

end ArithTree.Text.Numeral
