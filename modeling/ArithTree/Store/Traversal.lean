import ArithTree.Store.Unfolding

/-!
# Traversals with an explicit stack

Each traversal keeps a stack of handles that are still to be visited, looks at the topmost and puts
its children in front of the rest. A removed node on the stack is passed over. Every entry taken
from the stack is one occurrence of the unfolding, whose size therefore bounds the number of steps.
-/

namespace ArithTree.Store

/-- Live nodes from the pending ones downwards, each before what is below it. -/
def preorderFrom (s : Store) : Nat → List NodeId → List NodeId
  | 0, _ => []
  | _ + 1, [] => []
  | steps + 1, id :: pending =>
    match s.node? id with
    | none => s.preorderFrom steps pending
    | some node => id :: s.preorderFrom steps (node.children ++ pending)

/-- The live nodes below the root, each before its children and the children left to right. A node
that is listed twice is visited twice. -/
def preorder (s : Store) : List NodeId :=
  match s.root with
  | some root => s.preorderFrom (s.unfold root).size [root]
  | none => []

/-- A node on the stack of `postorder` is entered first and left when all below it has been left. -/
inductive Visit where
  | enter (id : NodeId)
  | leave (id : NodeId)

def postorderFrom (s : Store) : Nat → List Visit → List NodeId
  | 0, _ => []
  | _ + 1, [] => []
  | steps + 1, .enter id :: pending =>
    match s.node? id with
    | none => s.postorderFrom steps pending
    | some node => s.postorderFrom steps (node.children.map .enter ++ .leave id :: pending)
  | steps + 1, .leave id :: pending =>
    if s.contains id then id :: s.postorderFrom steps pending else s.postorderFrom steps pending

/-- The live nodes below the root, each after its children. -/
def postorder (s : Store) : List NodeId :=
  match s.root with
  | some root => s.postorderFrom (2 * (s.unfold root).size) [.enter root]
  | none => []

/-- The literals below the root from left to right. -/
def literals (s : Store) : List Literal :=
  s.preorder.filterMap fun id => (s.label? id).bind Label.literal?

/-- Looks for `target` among the pending nodes and below them. A removed node is found as well, if
something still lists it. -/
def reaches (s : Store) (target : NodeId) : Nat → List NodeId → Bool
  | 0, _ => false
  | _ + 1, [] => false
  | steps + 1, id :: pending =>
    if id = target then true else s.reaches target steps (s.children id ++ pending)

/-- The ghost, if there is one and it is met at `top` or below. -/
def findGhost? (s : Store) (top : NodeId) : Option NodeId :=
  match s.ghost with
  | some ghost => if s.reaches ghost (s.unfold top).size [top] then some ghost else none
  | none => none

end ArithTree.Store
