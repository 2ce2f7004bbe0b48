import ArithTree.Node

/-!
# The store of one expression tree

A store holds the nodes of one tree by handle, the handle of the root, and at most one ghost marker,
the sign of a node that is being moved. Links are plain handles and no operation checks them: they
may name removed nodes, close a cycle or share a node, and every operation is defined on such a
store too.

A handle that has been removed never names a node again, because slots are only ever added.
-/

namespace ArithTree

/-- The slot of a handle is empty once its node has been removed. -/
structure Store where
  slots : Array (Option Node)
  root : Option NodeId
  ghost : Option NodeId

namespace Store

def empty : Store := ⟨#[], none, none⟩

/-! ## Reading -/

/-- The node a handle names, if it is live. -/
def node? (s : Store) (id : NodeId) : Option Node := s.slots[id]?.join

def contains (s : Store) (id : NodeId) : Bool := (s.node? id).isSome

def label? (s : Store) (id : NodeId) : Option Label := (s.node? id).map (·.label)

/-- The operator of a compound node. -/
def operator? (s : Store) (id : NodeId) : Option Operator := (s.label? id).bind Label.operator?

/-- The link up, also where the node it names has been removed. -/
def parent? (s : Store) (id : NodeId) : Option NodeId := (s.node? id).bind (·.parent)

/-- The links down, in order; none for a removed node. -/
def children (s : Store) (id : NodeId) : List NodeId :=
  match s.node? id with
  | some node => node.children
  | none => []

/-- Number of live nodes, reachable or not. -/
def size (s : Store) : Nat := s.slots.countP Option.isSome

def isEmpty (s : Store) : Bool := s.size == 0

def isGhost (s : Store) (id : NodeId) : Bool := s.ghost == some id

/-! ## Writing -/

/-- Changes a live node in place; nothing happens to a removed one. -/
def update (s : Store) (id : NodeId) (f : Node → Node) : Store :=
  { s with slots := s.slots.modify id (Option.map f) }

/-- Sets the link up and touches no child list. -/
def setParent (s : Store) (id : NodeId) (parent : Option NodeId) : Store :=
  s.update id fun node => { node with parent }

/-- Lists `child` last under `parent`, without touching the link up. -/
def list (s : Store) (parent child : NodeId) : Store :=
  s.update parent fun node => { node with children := node.children ++ [child] }

/-- Adds a node under a fresh handle and lists it last under `parent`, if that is live. The new
node's link up is `parent` in any case, and the root stays as it is. -/
def insert (s : Store) (label : Label) (parent : Option NodeId) : NodeId × Store :=
  let id := s.slots.size
  let grown := { s with slots := s.slots.push (some ⟨label, parent, []⟩) }
  match parent with
  | some p => (id, grown.list p id)
  | none => (id, grown)

/-- Makes `child` the last child of `parent`; its former parent goes on listing it. -/
def append (s : Store) (parent child : NodeId) : Store :=
  (s.list parent child).setParent child (some parent)

/-- Gives `parent` a new child list and every node on it a new link up. Former children keep their
link up. -/
def replaceChildren (s : Store) (parent : NodeId) (children : List NodeId) : Store :=
  (children.foldl (fun s child => s.setParent child (some parent)) s).update parent
    fun node => { node with children }

/-- Empties the child list of `id` and returns what was on it, with the links up left as they
are. -/
def takeChildren (s : Store) (id : NodeId) : List NodeId × Store :=
  (s.children id, s.update id fun node => { node with children := [] })

/-- Makes `id` the root, live or not, and cuts its link up. -/
def setRoot (s : Store) (id : NodeId) : Store :=
  { s.setParent id none with root := some id }

def mark (s : Store) (id : NodeId) : Store := { s with ghost := some id }

def clearGhost (s : Store) : Store := { s with ghost := none }

/-! ## Removing -/

/-- Empties one slot, and takes the root or the ghost marker off the handle. -/
def erase (s : Store) (id : NodeId) : Store where
  slots := s.slots.setIfInBounds id none
  root := if s.root = some id then none else s.root
  ghost := if s.ghost = some id then none else s.ghost

/-- Erasing a live node leaves one node fewer, erasing anything else changes no number. -/
theorem size_erase (s : Store) (id : NodeId) :
    (s.erase id).size = s.size - if (s.node? id).isSome then 1 else 0 := by
  unfold size erase node? Array.setIfInBounds
  by_cases h : id < s.slots.size
  · rw [dif_pos h, Array.countP_set]
    simp [h]
  · simp [h]

private theorem size_pos_of_live (s : Store) (id : NodeId) (h : (s.node? id).isSome) :
    0 < s.size := by
  unfold node? at h
  by_cases hb : id < s.slots.size
  · simp only [hb, getElem?_pos, Option.join_some] at h
    exact Array.countP_pos_iff.mpr ⟨_, Array.getElem_mem hb, h⟩
  · simp [hb] at h

/-- Erases every node that is pending or reached from there by child links. A node that was met
before has no children left, so links in a circle come to an end. -/
def removeAll (s : Store) : List NodeId → Store
  | [] => s
  | id :: pending =>
    let below := s.children id
    (s.erase id).removeAll (below ++ pending)
termination_by pending => (s.size, pending.length)
decreasing_by
  cases h : s.node? id with
  | some node =>
    apply Prod.Lex.left
    have live : (s.node? id).isSome := by simp [h]
    have := size_pos_of_live s id live
    rw [size_erase, if_pos live]
    omega
  | none =>
    have same : (s.erase id).size = s.size := by simp [size_erase, h]
    rw [same]
    apply Prod.Lex.right
    simp [children, h]

/-- Removes `id` with everything below it. Of the survivors only the node named by its link up
changes: it no longer lists `id`. -/
def remove (s : Store) (id : NodeId) : Store :=
  let unlisted := match s.parent? id with
    | some p => s.update p fun node => { node with children := node.children.filter (· ≠ id) }
    | none => s
  unlisted.removeAll [id]

end Store

end ArithTree
