import ArithTree.Render.Drawing
import ArithTree.Render.Dump
import ArithTree.Render.Formula
import ArithTree.Text.Blank

/-!
# Output formats

The three ways to print a tree, by name. Each ends in a line end, if it prints anything at all.
-/

namespace ArithTree

inductive OutputFormat where
  | dump
  | drawing
  | formula
  deriving DecidableEq, Repr

namespace OutputFormat

def name : OutputFormat → String
  | .dump => "dump"
  | .drawing => "tree"
  | .formula => "infix"

/-- The format with exactly this name. -/
def ofName? (name : String) : Option OutputFormat :=
  [dump, drawing, formula].find? fun f => f.name = name

/-- Reads a name with blanks around it and ASCII letters in any case. An unknown name is handed back
as it was looked up. -/
def parse (text : String) : Except String OutputFormat :=
  let name := (Text.trim text).map Char.toLower
  match ofName? name with
  | some format => .ok format
  | none => .error name

theorem ofName?_name (f : OutputFormat) : ofName? f.name = some f := by
  cases f <;> decide +kernel

end OutputFormat

/-- Prints a tree. -/
def Store.render (s : Store) : OutputFormat → String
  | .dump => s.dump
  | .drawing => s.drawing
  | .formula => s.formula ++ "\n"

end ArithTree
