import ArithTree.Store.Unfolding

/-!
# The formula

The expression on one line: operands joined by their operator, a group in parentheses and nothing
else in parentheses. A literal shows its token alone, and a removed node shows as an empty operand.
-/

namespace ArithTree

mutual

def Unfolding.formula : Unfolding → String
  | .dangling _ => ""
  | .node _ (.literal l) _ => l.text
  | .node _ (.compound .group) below => "(" ++ String.join (Unfolding.formulas below) ++ ")"
  | .node _ (.compound .add) below => "+".intercalate (Unfolding.formulas below)
  | .node _ (.compound .multiply) below => "*".intercalate (Unfolding.formulas below)

def Unfolding.formulas : List Unfolding → List String
  | [] => []
  | u :: rest => u.formula :: Unfolding.formulas rest

end

namespace Store

/-- The formula of what is at `id` and below. -/
def formulaOf (s : Store) (id : NodeId) : String := (s.unfold id).formula

/-- The formula of the whole tree; nothing without a root. -/
def formula (s : Store) : String :=
  match s.root with
  | some root => s.formulaOf root
  | none => ""

end Store

end ArithTree
