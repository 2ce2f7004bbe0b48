import ArithTree.Store.Traversal

/-!
# Flattening

A sum that is a child of a sum says nothing that its children would not say in its place; the same
holds of products and of groups. Flattening puts the children of such a node in the place of the
node, so that no compound has a child with its own operator. A sum never takes in the children of a
group, so parentheses between different operators stay.
-/

namespace ArithTree.Store

/-- Goes through a child list, removes every child with operator `op` and puts what was listed below
it in its place. -/
def absorb (op : Operator) : List NodeId → Store → List NodeId × Store
  | [], s => ([], s)
  | child :: rest, s =>
    if s.operator? child = some op then
      let (below, emptied) := s.takeChildren child
      let (others, left) := absorb op rest (emptied.remove child)
      (below ++ others, left)
    else
      let (others, left) := absorb op rest s
      (child :: others, left)

/-- Takes the children of every child with the operator of `id` into the child list of `id`. -/
def splice (s : Store) (id : NodeId) : Store :=
  match s.operator? id with
  | some op =>
    let (children, left) := absorb op (s.children id) s
    left.replaceChildren id children
  | none => s

/-- Splices every node below the root, children before parents, so that each child is already flat
when it is taken in. -/
def flatten (s : Store) : Store := s.postorder.foldl splice s

end ArithTree.Store
