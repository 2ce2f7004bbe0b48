import ArithTree.Store.Basic

/-!
# Unfoldings

Following child links from a handle and writing out every occurrence gives an ordered tree, the
unfolding. A shared node occurs once per listing, and a link to a removed node is a leaf that
carries nothing but the handle. Everything that is printed, measured or copied is a function of an
unfolding.
-/

namespace ArithTree

inductive Unfolding where
  | dangling (id : NodeId)
  | node (id : NodeId) (label : Label) (below : List Unfolding)

namespace Unfolding

/-- The handle at the top. -/
def id : Unfolding → NodeId
  | .dangling id => id
  | .node id _ _ => id

mutual

/-- Number of occurrences, the dangling ones included. -/
def size : Unfolding → Nat
  | .dangling _ => 1
  | .node _ _ below => 1 + sizeAll below

def sizeAll : List Unfolding → Nat
  | [] => 0
  | u :: rest => u.size + sizeAll rest

end

mutual

/-- Number of occurrences on the longest way down. A dangling link counts like a leaf. -/
def height : Unfolding → Nat
  | .dangling _ => 1
  | .node _ _ below => 1 + heightAll below

def heightAll : List Unfolding → Nat
  | [] => 0
  | u :: rest => max u.height (heightAll rest)

end

end Unfolding

namespace Store

/-- The unfolding below `id`, cut after `depth` live nodes on any way down. -/
def unfoldWithin (s : Store) : Nat → NodeId → Unfolding
  | 0, id => .dangling id
  | depth + 1, id =>
    match s.node? id with
    | none => .dangling id
    | some node => .node id node.label (node.children.map (s.unfoldWithin depth))

/-- The unfolding below `id`. A way down that meets no node twice has at most as many live nodes as
there are slots, so nothing is cut where the child links below `id` close no circle. -/
def unfold (s : Store) (id : NodeId) : Unfolding := s.unfoldWithin s.slots.size id

/-- Number of levels below the root, the root included; zero without a root. -/
def depth (s : Store) : Nat :=
  match s.root with
  | some root => (s.unfold root).height
  | none => 0

theorem unfoldWithin_id (s : Store) (depth : Nat) (id : NodeId) :
    (s.unfoldWithin depth id).id = id := by
  cases depth with
  | zero => rfl
  | succ depth =>
    unfold unfoldWithin
    cases s.node? id <;> rfl

theorem unfold_id (s : Store) (id : NodeId) : (s.unfold id).id = id := unfoldWithin_id s _ id

end Store

end ArithTree
