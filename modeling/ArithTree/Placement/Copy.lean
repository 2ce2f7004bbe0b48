import ArithTree.Store.Unfolding

/-!
# Copies

A copy of a tree is made from its unfolding, into an empty store and parents first. It has one node
for each live occurrence and none for a dangling one, so it is a proper tree whatever the links of
the source are. On the way, one node may be taken to another slot among its siblings.
-/

namespace ArithTree

/-- Takes `node` to position `slot` of the child list that holds it. -/
structure Relocation where
  node : NodeId
  slot : Nat
  deriving DecidableEq, Repr

/-- Why a tree cannot be copied with a relocation. A node that is listed twice in one list is taken
out twice and put back once, and the slot may then lie behind the end. -/
inductive PlacementError where
  | noMoreCombinations (index siblings : Nat)
  | listedTwice
  deriving DecidableEq, Repr

namespace Unfolding

/-- The child list after the relocation. A list that does not hold the node stays as it is; in one
that does, the slot is checked against the length it has before the node is taken out. -/
def reorder (r : Relocation) (children : List Unfolding) : Except PlacementError (List Unfolding) :=
  match children.find? fun u => u.id = r.node with
  | none => .ok children
  | some moved =>
    if children.length ≤ r.slot then .error (.noMoreCombinations r.slot children.length)
    else
      let others := children.filter fun u => u.id ≠ r.node
      if others.length < r.slot then .error .listedTwice
      else .ok (others.insertIdx r.slot moved)

mutual

/-- The unfolding after the relocation. A fault in a child list comes before the faults below it. -/
def rearrange (r : Relocation) : Unfolding → Except PlacementError Unfolding
  | .dangling id => .ok (.dangling id)
  | .node id label below =>
    match reorder r below with
    | .error e => .error e
    | .ok _ =>
      match rearrangeAll r below with
      | .error e => .error e
      | .ok rearranged =>
        match reorder r rearranged with
        | .error e => .error e
        | .ok reordered => .ok (.node id label reordered)

def rearrangeAll (r : Relocation) : List Unfolding → Except PlacementError (List Unfolding)
  | [] => .ok []
  | u :: rest =>
    match rearrange r u with
    | .error e => .error e
    | .ok u =>
      match rearrangeAll r rest with
      | .error e => .error e
      | .ok rest => .ok (u :: rest)

end

mutual

/-- Adds a copy of the live occurrences to a store and returns the copy of the top. A child that is
a copy of `marked` becomes the ghost. -/
def graft (marked : Option NodeId) : Unfolding → Store → Option NodeId × Store
  | .dangling _, s => (none, s)
  | .node _ label below, s =>
    let (copy, s) := s.insert label none
    (some copy, graftAll marked copy below s)

/-- Adds copies of the live ones among `below` and makes them the last children of `parent`. -/
def graftAll (marked : Option NodeId) (parent : NodeId) : List Unfolding → Store → Store
  | [], s => s
  | u :: rest, s =>
    match graft marked u s with
    | (none, s) => graftAll marked parent rest s
    | (some copy, s) =>
      let s := s.append parent copy
      graftAll marked parent rest (if marked = some u.id then s.mark copy else s)

end

end Unfolding

/-- The tree below `id` in a store of its own, without a ghost; an empty store if `id` is not
live. -/
def Store.deepCopy (s : Store) (id : NodeId) : Store :=
  match (s.unfold id).graft none .empty with
  | (some root, copy) => copy.setRoot root
  | (none, copy) => copy

end ArithTree
