import ArithTree.Toml.Library

/-!
# Writing TOML

Sections one after the other with a blank line between them, and one line for each of their fields.
Only plain documents are written.
-/

namespace ArithTree.Toml

open Text.Numeral (maxSigned)

def notPlain : String := "only sections of plain values are written"

def outOfRange : String := "out-of-range value for u64 type"

/-- A value behind an equals sign. -/
def Value.write : Value → Except String String
  | .text s => .ok ("\"" ++ s ++ "\"")
  | .boolean b => .ok (if b then "true" else "false")
  | .integer (.ofNat n) => if n ≤ maxSigned then .ok n.repr else .error outOfRange
  | .integer (.negSucc n) => if n ≤ maxSigned then .ok ("-" ++ (n + 1).repr) else .error outOfRange
  | _ => .error notPlain

def writeFields : Document → Except String String
  | [] => .ok ""
  | (key, value) :: fields => do
    let first ← value.write
    let rest ← writeFields fields
    return key ++ " = " ++ first ++ "\n" ++ rest

/-- A section with its header. -/
def writeSection : String × Value → Except String String
  | (name, .table fields) => do return "[" ++ name ++ "]\n" ++ (← writeFields fields)
  | _ => .error notPlain

def write : Document → Except String String
  | [] => .ok ""
  | [last] => writeSection last
  | first :: sections => do
    let first ← writeSection first
    let rest ← write sections
    return first ++ "\n" ++ rest

end ArithTree.Toml
