import ArithTree.Node

/-!
# Shapes

A shape is what is left of a tree when its handles are forgotten: labels and the order of
children. Two trees are the same up to their handles when they have one shape. Here are also the
merging of runs of one operator, as flattening does it, and the shapes that are normal, those in
which a formula can be read back.
-/

namespace ArithTree

inductive Shape where
  | node (label : Label) (below : List Shape)

namespace Shape

def label : Shape → Label
  | .node label _ => label

def children : Shape → List Shape
  | .node _ below => below

/-- A statement about shapes holds when it passes from all children to their parent. -/
@[elab_as_elim]
theorem induct {motive : Shape → Prop}
    (node : ∀ label below, (∀ t ∈ below, motive t) → motive (.node label below)) (t : Shape) :
    motive t := by
  cases t with
  | node label below => exact node label below fun u _ => induct node u
termination_by sizeOf t
decreasing_by
  have := List.sizeOf_lt_of_mem ‹u ∈ below›
  simp only [Shape.node.sizeOf_spec]
  omega

mutual

/-- Number of nodes. -/
def size : Shape → Nat
  | .node _ below => 1 + sizeAll below

def sizeAll : List Shape → Nat
  | [] => 0
  | t :: rest => t.size + sizeAll rest

end

/-! ## Merging -/

mutual

/-- The operands of the maximal run of `op` that starts at the top, each with its own runs merged. A
shape whose top is no such compound is one operand. -/
def operands (op : Option Operator) : Shape → List Shape
  | .node label below =>
    if op.isSome ∧ label.operator? = op then operandsAll op below
    else [.node label (operandsAll label.operator? below)]

def operandsAll (op : Option Operator) : List Shape → List Shape
  | [] => []
  | t :: rest => operands op t ++ operandsAll op rest

end

/-- Every maximal run of directly nested compounds with one operator made into one compound. -/
def merged : Shape → Shape
  | .node label below => .node label (operandsAll label.operator? below)

@[simp] theorem label_merged (t : Shape) : t.merged.label = t.label := by
  cases t with
  | node label below => rfl

theorem operands_none (t : Shape) : operands none t = [t.merged] := by
  cases t with
  | node label below => simp [operands, merged]

/-- A run that goes on at the top gives its operands. -/
theorem operands_of_eq {op : Operator} {t : Shape} (h : t.label.operator? = some op) :
    operands (some op) t = t.merged.children := by
  cases t with
  | node label below =>
    rw [Shape.label] at h
    simp [operands, merged, Shape.children, h]

/-- A run that does not go on at the top gives one operand. -/
theorem operands_of_ne {op : Option Operator} {t : Shape} (h : t.label.operator? ≠ op) :
    operands op t = [t.merged] := by
  cases t with
  | node label below =>
    rw [Shape.label] at h
    simp [operands, merged, h]

theorem merged_single (op : Operator) (t : Shape) :
    merged (.node (.compound op) [t]) = .node (.compound op) (operands (some op) t) := by
  rw [merged, Label.operator?, operandsAll, operandsAll, List.append_nil]

theorem merged_pair (op : Operator) (l r : Shape) :
    merged (.node (.compound op) [l, r]) =
      .node (.compound op) (operands (some op) l ++ operands (some op) r) := by
  rw [merged, Label.operator?, operandsAll, operandsAll, operandsAll, List.append_nil]

/-! ## Conditions on every node -/

mutual

/-- The condition is met by the label of every node together with the labels below it. -/
def Everywhere (P : Label → List Label → Prop) : Shape → Prop
  | .node label below => P label (below.map Shape.label) ∧ EverywhereAll P below

def EverywhereAll (P : Label → List Label → Prop) : List Shape → Prop
  | [] => True
  | t :: rest => t.Everywhere P ∧ EverywhereAll P rest

end

/-! ## Normal shapes -/

/-- The local condition on the labels below a node: a sum has at least two operands and none of
them is a sum, a product has at least two and each is a group or a literal, a group holds one node
that is no group, and a literal holds nothing. -/
def Admits : Label → List Label → Prop
  | .compound .add, below => 2 ≤ below.length ∧ ∀ l ∈ below, l ≠ .compound .add
  | .compound .multiply, below =>
    2 ≤ below.length ∧ ∀ l ∈ below, l ≠ .compound .add ∧ l ≠ .compound .multiply
  | .compound .group, below => ∃ l, below = [l] ∧ l ≠ .compound .group
  | .literal _, below => below = []

mutual

/-- The condition holds at every node. -/
def Normal : Shape → Prop
  | .node label below => Admits label (below.map Shape.label) ∧ NormalAll below

def NormalAll : List Shape → Prop
  | [] => True
  | t :: rest => t.Normal ∧ NormalAll rest

end

theorem normalAll_iff (ts : List Shape) : NormalAll ts ↔ ∀ t ∈ ts, t.Normal := by
  induction ts with
  | nil => simp [NormalAll]
  | cons t rest ih => simp [NormalAll, ih]

mutual

theorem normal_iff_everywhere : ∀ t : Shape, t.Normal ↔ t.Everywhere Admits
  | .node label below => by rw [Normal, Everywhere, normalAll_iff_everywhereAll below]

theorem normalAll_iff_everywhereAll : ∀ ts : List Shape, NormalAll ts ↔ EverywhereAll Admits ts
  | [] => Iff.rfl
  | t :: rest => by
    rw [NormalAll, EverywhereAll, normal_iff_everywhere t, normalAll_iff_everywhereAll rest]

end

theorem normal_node (label : Label) (below : List Shape) :
    (Shape.node label below).Normal ↔
      Admits label (below.map Shape.label) ∧ ∀ t ∈ below, t.Normal := by
  rw [Normal, normalAll_iff]

end Shape

end ArithTree
