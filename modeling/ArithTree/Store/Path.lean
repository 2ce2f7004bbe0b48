import ArithTree.Store.Basic

/-!
# Child paths

The place of a node in the tree is the list of child positions that leads to it from the root. A
path is found by climbing links up and is followed by going down child lists; on a broken store the
two need not agree.
-/

namespace ArithTree.Store

/-- First position of `id` in the child list of its parent. -/
def position? (s : Store) (id : NodeId) : Option Nat :=
  match s.parent? id with
  | some parent => (s.children parent).idxOf? id
  | none => none

/-- Climbs from `id` to a node without a link up, which has to be the root, and puts the positions
met on the way in front of `path`. -/
def climb (s : Store) : Nat → NodeId → List Nat → Option (List Nat)
  | 0, _, _ => none
  | steps + 1, id, path =>
    match s.parent? id with
    | some parent =>
      match s.position? id with
      | some position => s.climb steps parent (position :: path)
      | none => none
    | none => if s.root = some id then some path else none

/-- The path of `id`, or nothing when it does not hang below the root. Only live nodes have a link
up, so a climb that meets no node twice takes at most one step per slot and a last one. -/
def pathOf? (s : Store) (id : NodeId) : Option (List Nat) := s.climb (s.slots.size + 1) id []

/-- Follows child positions downwards. -/
def descend (s : Store) (id : NodeId) : List Nat → Option NodeId
  | [] => some id
  | position :: path =>
    match (s.children id)[position]? with
    | some child => s.descend child path
    | none => none

/-- The handle at the end of a path from the root. -/
def nodeAt? (s : Store) (path : List Nat) : Option NodeId :=
  match s.root with
  | some root => s.descend root path
  | none => none

end ArithTree.Store
