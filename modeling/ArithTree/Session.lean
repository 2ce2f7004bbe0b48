import ArithTree.Placement

/-!
# Drag sessions

A session holds a tree and a focus. A drag makes every placement of the focused node, lets the host
score them against its pointer as often as it likes, and ends by dropping the closest one or by
cancelling. Each step returns its answer together with the session after it; a step that fails
leaves the session alone.

A drop puts a new tree in the place of the old one. Handles belong to one tree, so the host says
which tree it means by a `TreeId`, and one from before a drop is refused.
-/

namespace ArithTree

/-- Which tree a handle belongs to: the tree a session was started on, and how many drops have
replaced it since. -/
structure TreeId where
  origin : Nat
  revision : Nat
  deriving DecidableEq, Repr

def TreeId.next (id : TreeId) : TreeId := { id with revision := id.revision + 1 }

inductive DragError where
  | rootNotMovable
  | notDragging
  | dragInProgress
  | unknownNode
  | emptyTree
  | listedTwice
  deriving DecidableEq, Repr

/-- The placements of the focused node and the number of the one to be dropped. -/
structure Drag where
  candidates : List Placement
  chosen : Nat

structure Session where
  id : TreeId
  tree : Store
  focus : NodeId
  drag : Option Drag

namespace Session

/-- Starts a session with the focus on the root. -/
def start (id : TreeId) (tree : Store) : Except DragError Session :=
  match tree.root with
  | some root => .ok ⟨id, tree, root, none⟩
  | none => .error .emptyTree

def isDragging (s : Session) : Bool := s.drag.isSome

/-- Puts the focus on a node that hangs below the root of the present tree. -/
def focusOn (tree : TreeId) (node : NodeId) (s : Session) : Except DragError Unit × Session :=
  if s.isDragging then (.error .dragInProgress, s)
  else if tree ≠ s.id ∨ s.tree.pathOf? node = none then (.error .unknownNode, s)
  else (.ok (), { s with focus := node })

/-- Moves the focus to a child and returns it. -/
def focusChild (index : Nat) (s : Session) : Except DragError NodeId × Session :=
  if s.isDragging then (.error .dragInProgress, s)
  else
    match (s.tree.children s.focus)[index]? with
    | none => (.error .unknownNode, s)
    | some child =>
      match s.focusOn s.id child with
      | (.ok (), s) => (.ok child, s)
      | (.error e, s) => (.error e, s)

/-- Moves the focus up and returns it; nothing at the root or during a drag. -/
def focusParent (s : Session) : Option NodeId × Session :=
  if s.isDragging then (none, s)
  else
    match s.tree.parent? s.focus with
    | some parent => (some parent, { s with focus := parent })
    | none => (none, s)

/-- Starts a drag of the focused node and returns the number of candidates. The candidate for the
slot the node is on comes first to be dropped. -/
def beginDrag (s : Session) : Except DragError Nat × Session :=
  if s.isDragging then (.error .dragInProgress, s)
  else if s.tree.root = some s.focus then (.error .rootNotMovable, s)
  else
    match s.tree.placements s.focus with
    | .error _ => (.error .listedTwice, s)
    | .ok candidates =>
      let chosen := (s.tree.position? s.focus).getD 0
      (.ok candidates.length, { s with drag := some ⟨candidates, chosen⟩ })

/-- The placements of the drag; none without one. -/
def candidates (s : Session) : List Placement :=
  match s.drag with
  | some drag => drag.candidates
  | none => []

/-- The placement that a drop would commit. -/
def chosen? (s : Session) : Option Placement :=
  match s.drag with
  | some drag => drag.candidates[drag.chosen]?
  | none => none

/-- Scores the candidates anew, chooses the closest if any score is defined, and returns the choice;
nothing without a drag. -/
def update {m : Type → Type} [Monad m] (score : Placement → m Score) (s : Session) :
    m (Option Nat × Session) :=
  match s.drag with
  | none => return (none, s)
  | some drag => do
    let chosen := (← Placement.closest? drag.candidates score).getD drag.chosen
    return (some chosen, { s with drag := some { drag with chosen } })

/-- Commits the chosen placement: it becomes the tree, without a ghost, and the focus follows the
moved node. Without a placement to commit the drag is over all the same. -/
def drop (s : Session) : Except DragError NodeId × Session :=
  match s.drag with
  | none => (.error .notDragging, s)
  | some drag =>
    match drag.candidates[drag.chosen]? with
    | none => (.error .notDragging, { s with drag := none })
    | some p => (.ok p.ghost, ⟨s.id.next, p.tree.clearGhost, p.ghost, none⟩)

/-- Ends the drag and keeps the tree. -/
def cancel (s : Session) : Session := { s with drag := none }

end Session

end ArithTree
