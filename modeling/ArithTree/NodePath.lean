import ArithTree.Text.Blank
import ArithTree.Text.Numeral

/-!
# Written child paths

A path is written as its positions with dots between them, and the empty path as the empty text.
Reading allows blanks around the whole and around each part, one plus before a position, and leading
zeros.
-/

namespace ArithTree.NodePath

/-- The runs between the dots, one more than there are dots. -/
def parts : List Char → List (List Char)
  | [] => [[]]
  | c :: cs =>
    match parts cs with
    | [] => [[c]]
    | part :: rest => if c = '.' then [] :: part :: rest else (c :: part) :: rest

/-- Reads a path; nothing when a part is no position. -/
def parse? (text : String) : Option (List Nat) :=
  match Text.trimBlanks text.toList with
  | [] => some []
  | cs => (parts cs).mapM fun part => Text.Numeral.unsigned? (Text.trimBlanks part)

/-- Writes a path. -/
def format (path : List Nat) : String := ".".intercalate (path.map Nat.repr)

end ArithTree.NodePath
