import ArithTree.Literal

/-!
# Nodes

An expression is built from sums, products, parenthesised groups and literals. A node carries one of
these labels and is linked to others by handles: one link up to its parent and an ordered list of
links down to its children.
-/

namespace ArithTree

/-- What a compound node does with its children. -/
inductive Operator where
  | add
  | multiply
  | group
  deriving DecidableEq, Repr

/-- How the operator is shown in a dump and in a drawing. -/
def Operator.symbol : Operator → String
  | .add => "+"
  | .multiply => "*"
  | .group => "()"

/-- What a node stands for. -/
inductive Label where
  | compound (op : Operator)
  | literal (l : Literal)
  deriving DecidableEq

namespace Label

def operator? : Label → Option Operator
  | .compound op => some op
  | .literal _ => none

def literal? : Label → Option Literal
  | .compound _ => none
  | .literal l => some l

/-- The symbol of the operator, or the token. -/
def text : Label → String
  | .compound op => op.symbol
  | .literal l => l.text

end Label

/-- Names a node of one store. Handles are given out in order and never again. -/
abbrev NodeId := Nat

/-- A node with its links. Nothing ties the two kinds of link together: `parent` may name a node
that does not list this one, and a node may be listed twice. -/
structure Node where
  label : Label
  parent : Option NodeId
  children : List NodeId
  deriving DecidableEq

end ArithTree
