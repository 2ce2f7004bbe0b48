import ArithTree.Store.Unfolding

/-!
# The dump

One line per node, parents before children, indented by one tab per level. Removed nodes have no
line.
-/

namespace ArithTree

/-- The indentation of a level. -/
def indentation (level : Nat) : String := String.ofList (List.replicate level '\t')

mutual

def Unfolding.dump (level : Nat) : Unfolding → String
  | .dangling _ => ""
  | .node _ label below =>
    indentation level ++ label.text ++ "\n" ++ Unfolding.dumpAll (level + 1) below

def Unfolding.dumpAll (level : Nat) : List Unfolding → String
  | [] => ""
  | u :: rest => u.dump level ++ Unfolding.dumpAll level rest

end

namespace Store

/-- The dump from `id` downwards, with `id` itself on `level`. -/
def dumpOf (s : Store) (id : NodeId) (level : Nat) : String := (s.unfold id).dump level

/-- The dump of the whole tree; nothing without a root. -/
def dump (s : Store) : String :=
  match s.root with
  | some root => s.dumpOf root 0
  | none => ""

end Store

end ArithTree
