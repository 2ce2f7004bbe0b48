import ArithTree.Placement.Copy
import ArithTree.Score
import ArithTree.Store.Path

/-!
# Placements

A placement is a copy of a tree with one node taken to another slot among its siblings. The copy of
that node is the ghost. Slots zero, one, two and so on give every rearrangement, the present order
included, until there is no such slot.
-/

namespace ArithTree

structure Placement where
  tree : Store
  ghost : NodeId

/-- The position the relocated node has landed on. -/
def Placement.slot? (p : Placement) : Option Nat := p.tree.position? p.ghost

namespace Store

/-- The copy below `top` with the relocation. The top itself has no siblings, and neither has a node
that is not below it. -/
def place (s : Store) (top : NodeId) (r : Relocation) : Except PlacementError Placement :=
  match (s.unfold top).rearrange r with
  | .error e => .error e
  | .ok u =>
    let (root, copy) := u.graft (some r.node) .empty
    match root, copy.ghost with
    | some root, some ghost => .ok ⟨copy.setRoot root, ghost⟩
    | _, _ => .error (.noMoreCombinations r.slot 0)

/-- The length of the longest child list. -/
def widest (s : Store) : Nat :=
  s.slots.foldl (fun widest slot => max widest (slot.elim 0 (·.children.length))) 0

end Store

/-- The placements of a node that are still to come. -/
structure Enumeration where
  tree : Store
  node : NodeId
  nextSlot : Nat
  done : Bool

namespace Enumeration

def start (tree : Store) (node : NodeId) : Enumeration := ⟨tree, node, 0, false⟩

/-- The next placement, or nothing from the first slot that does not exist. -/
def next (e : Enumeration) : Except PlacementError (Option Placement × Enumeration) :=
  if e.done then .ok (none, e)
  else
    match e.tree.root with
    | none => .ok (none, { e with done := true })
    | some root =>
      match e.tree.place root ⟨e.node, e.nextSlot⟩ with
      | .ok p => .ok (some p, { e with nextSlot := e.nextSlot + 1 })
      | .error (.noMoreCombinations _ _) => .ok (none, { e with done := true })
      | .error .listedTwice => .error .listedTwice

/-- At most `count` of the placements to come, and what is left. -/
def take : Nat → Enumeration → Except PlacementError (List Placement × Enumeration)
  | 0, e => .ok ([], e)
  | count + 1, e =>
    match e.next with
    | .error fault => .error fault
    | .ok (none, e) => .ok ([], e)
    | .ok (some p, e) =>
      match take count e with
      | .error fault => .error fault
      | .ok (rest, e) => .ok (p :: rest, e)

/-- All placements to come. A slot has to exist in some child list, so there are no more of them
than the longest list has children. -/
def toList (e : Enumeration) : Except PlacementError (List Placement) :=
  match take (e.tree.widest + 1) e with
  | .error fault => .error fault
  | .ok (all, _) => .ok all

end Enumeration

/-- Every placement of `node` among its siblings, in the order of slots; none for the root. -/
def Store.placements (s : Store) (node : NodeId) : Except PlacementError (List Placement) :=
  if s.root = some node then .ok [] else (Enumeration.start s node).toList

/-- Scores every candidate once and in order, and picks the earliest among the closest. Scoring may
keep a state of its own. -/
def Placement.closest? {m : Type → Type} [Monad m] (candidates : List Placement)
    (score : Placement → m Score) : m (Option Nat) := do
  return Score.earliestLeast? (← candidates.mapM score)

end ArithTree
