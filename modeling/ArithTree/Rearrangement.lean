import ArithTree.Failure
import ArithTree.NodePath

/-!
# Rearranging by path

Requests that name a node by its written path: where it is, where it could go among its siblings,
and moving it to one slot.
-/

namespace ArithTree

/-- A placement, the slot the moved node is on, and its path. -/
structure Candidate where
  slot : Nat
  path : List Nat
  placement : Placement

/-- The tree of an expression. -/
def Store.ofText (options : ParserOptions) (text : String) : Except Failure Store :=
  match Parser.parse options text with
  | .ok tree => .ok tree
  | .error e => .error (.parse e)

namespace Store

/-- The node at a written path. A path that cannot be read is reported without the blanks around it,
one that leads nowhere as it was given. -/
def resolve (s : Store) (path : String) : Except Failure NodeId :=
  match NodePath.parse? path with
  | none => .error (.invalidPath (Text.trim path))
  | some positions =>
    match s.nodeAt? positions with
    | some id => .ok id
    | none => .error (.invalidPath path)

/-- The node at a written path, unless it is the root. -/
def resolveMovable (s : Store) (path : String) : Except Failure NodeId :=
  match s.resolve path with
  | .error e => .error e
  | .ok id => if s.root = some id then .error (.drag .rootNotMovable) else .ok id

/-- Every placement of the node at a written path, in the order of slots. -/
def candidatesAt (s : Store) (path : String) : Except Failure (List Candidate) :=
  match s.resolveMovable path with
  | .error e => .error e
  | .ok id =>
    match s.placements id with
    | .error _ => .error (.drag .listedTwice)
    | .ok all =>
      .ok (all.mapIdx fun index p => ⟨p.slot?.getD index, (p.tree.pathOf? p.ghost).getD [], p⟩)

/-- The placement of the node at a written path on one slot, with the node still marked as the
ghost. -/
def relocate (s : Store) (path : String) (slot : Nat) : Except Failure Placement :=
  match s.resolveMovable path with
  | .error e => .error e
  | .ok id =>
    match s.root with
    | none => .error (.invalidPath path)
    | some root =>
      match s.place root ⟨id, slot⟩ with
      | .ok p => .ok p
      | .error (.noMoreCombinations index _) =>
        .error (.slotOutOfRange index ((s.parent? id).elim 0 fun parent =>
          (s.children parent).length))
      | .error .listedTwice => .error (.drag .listedTwice)

end Store

end ArithTree
