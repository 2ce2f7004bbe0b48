/-!
# Scores

A host rates candidates by distance. A distance is a binary floating-point number: either no number
at all, or one of a totally ordered set with both infinities, in which the two zeros are equal. Only
that order matters, so a score keeps a place in it.
-/

namespace ArithTree

inductive Score where
  | undefined
  | place (rank : Int)
  deriving DecidableEq, Repr

namespace Score

/-- The bit that tells the negative numbers from the others. -/
def signBit : Nat := 0x8000000000000000

/-- The place of a floating-point number. The bit patterns without the sign bit are ordered like the
numbers they stand for, and both zeros have rank zero. -/
def ofFloat (x : Float) : Score :=
  if x.isNaN then .undefined
  else
    let bits := x.toBits.toNat
    if bits < signBit then .place bits else .place (-((bits - signBit : Nat) : Int))

/-- Whether a score is to replace the best one so far: only by being smaller. -/
def improves (rank : Int) : Option (Nat × Int) → Bool
  | none => true
  | some (_, best) => rank < best

/-- Goes through scores numbered from `index` and keeps the best with its number. -/
def leastFrom (index : Nat) (best : Option (Nat × Int)) : List Score → Option (Nat × Int)
  | [] => best
  | .undefined :: rest => leastFrom (index + 1) best rest
  | .place rank :: rest =>
    leastFrom (index + 1) (if improves rank best then some (index, rank) else best) rest

/-- The number of the earliest among the smallest scores, undefined ones left out. -/
def earliestLeast? (scores : List Score) : Option Nat := (leastFrom 0 none scores).map (·.1)

end Score

end ArithTree
