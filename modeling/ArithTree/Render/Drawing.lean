import ArithTree.Store.Unfolding

/-!
# The drawing

One line per occurrence below the root, with branches drawn in box characters. The line of the ghost
ends in a star, and that of a removed node holds its branch only.
-/

namespace ArithTree

/-- What a line shows besides its branch. -/
def Unfolding.caption (ghost : Option NodeId) : Unfolding → String
  | .dangling _ => ""
  | .node id label _ => if ghost = some id then label.text ++ " *" else label.text

mutual

/-- The lines below the line of an occurrence, each starting with `lead`. -/
def Unfolding.branches (ghost : Option NodeId) (lead : String) : Unfolding → String
  | .dangling _ => ""
  | .node _ _ below => Unfolding.branchesAll ghost lead below

/-- The last branch turns and leaves blanks below it, the others leave a stroke. -/
def Unfolding.branchesAll (ghost : Option NodeId) (lead : String) : List Unfolding → String
  | [] => ""
  | u :: rest =>
    let (turn, further) := if rest.isEmpty then ("└── ", "    ") else ("├── ", "│   ")
    lead ++ turn ++ u.caption ghost ++ "\n" ++ u.branches ghost (lead ++ further) ++
      Unfolding.branchesAll ghost lead rest

end

/-- The drawing of the whole tree. -/
def Store.drawing (s : Store) : String :=
  match s.root with
  | some root =>
    let u := s.unfold root
    u.caption s.ghost ++ "\n" ++ u.branches s.ghost ""
  | none => "Empty tree\n"

end ArithTree
