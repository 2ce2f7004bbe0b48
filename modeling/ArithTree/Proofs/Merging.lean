import ArithTree.Proofs.Occurrences

/-!
# Merging unfoldings

The unfolding that flattening leaves: children first, and then every child with the operator of
its parent gives way to its own children. Handles of the nodes that stay are kept
(`ids_merged_sublist`), and the shape is the merged shape (`shape?_merged`).
-/

namespace ArithTree.Unfolding

def operator? : Unfolding → Option Operator
  | .dangling _ => none
  | .node _ label _ => label.operator?

/-- What stands for `u` in the child list of a compound with operator `op`. -/
def absorbed (op : Option Operator) (u : Unfolding) : List Unfolding :=
  if op.isSome ∧ u.operator? = op then u.children else [u]

mutual

/-- Every run of one operator made into one compound, from the bottom up. -/
def merged : Unfolding → Unfolding
  | .dangling id => .dangling id
  | .node id label below => .node id label ((mergedAll below).flatMap (absorbed label.operator?))

def mergedAll : List Unfolding → List Unfolding
  | [] => []
  | u :: rest => u.merged :: mergedAll rest

end

theorem mergedAll_eq_map (us : List Unfolding) : mergedAll us = us.map merged := by
  induction us with
  | nil => rfl
  | cons u rest ih => rw [mergedAll, ih, List.map_cons]

@[simp] theorem id_merged (u : Unfolding) : u.merged.id = u.id := by
  cases u <;> rfl

theorem map_id_mergedAll (us : List Unfolding) : (mergedAll us).map id = us.map id := by
  rw [mergedAll_eq_map, List.map_map]
  exact List.map_congr_left fun u _ => id_merged u

theorem absorbed_none (u : Unfolding) : absorbed none u = [u] := by
  simp [absorbed]

theorem flatMap_absorbed_none (us : List Unfolding) : us.flatMap (absorbed none) = us := by
  rw [show absorbed none = fun u => [u] from funext absorbed_none, List.flatMap_singleton']

theorem absorbed_of_eq {op : Operator} {u : Unfolding} (h : u.operator? = some op) :
    absorbed (some op) u = u.children := by
  simp [absorbed, h]

theorem absorbed_of_ne {op : Option Operator} {u : Unfolding} (h : u.operator? ≠ op) :
    absorbed op u = [u] := by
  simp [absorbed, h]

/-! ## Handles -/

theorem ids_absorbed_sublist (op : Option Operator) (u : Unfolding) :
    (idsAll (absorbed op u)).Sublist u.ids := by
  unfold absorbed
  split
  · exact ids_children_sublist u
  · simp only [idsAll_singleton, List.Sublist.refl]

theorem ids_flatMap_absorbed_sublist (op : Option Operator) (us : List Unfolding) :
    (idsAll (us.flatMap (absorbed op))).Sublist (idsAll us) := by
  induction us with
  | nil => exact List.Sublist.refl []
  | cons u rest ih =>
    rw [List.flatMap_cons, idsAll_append, idsAll]
    exact (ids_absorbed_sublist op u).append ih

mutual

theorem ids_merged_sublist : ∀ u : Unfolding, u.merged.ids.Sublist u.ids
  | .dangling _ => List.Sublist.refl _
  | .node _ label below =>
    ((ids_flatMap_absorbed_sublist label.operator? (mergedAll below)).trans
      (ids_mergedAll_sublist below)).cons_cons _

theorem ids_mergedAll_sublist : ∀ us : List Unfolding, (idsAll (mergedAll us)).Sublist (idsAll us)
  | [] => List.Sublist.refl _
  | u :: rest => (ids_merged_sublist u).append (ids_mergedAll_sublist rest)

end

/-! ## Shapes -/

theorem operator?_of_shape? {u : Unfolding} {t : Shape} (h : u.shape? = some t) :
    u.operator? = t.label.operator? := by
  cases u with
  | dangling id => cases h
  | node id label below =>
    rw [shape?, Option.some.injEq] at h
    rw [← h]
    rfl

theorem shapes_children_of_shape? {u : Unfolding} {t : Shape} (h : u.shape? = some t) :
    shapes u.children = t.children := by
  cases u with
  | dangling id => cases h
  | node id label below =>
    rw [shape?, Option.some.injEq] at h
    rw [← h]
    rfl

/-- Absorbing a merged child gives the operands that its shape contributes. -/
theorem shapes_absorbed {op : Option Operator} {u : Unfolding} {t : Shape}
    (h : u.shape? = some t.merged) : shapes (absorbed op u) = Shape.operands op t := by
  have hop : u.operator? = t.label.operator? := by
    rw [operator?_of_shape? h, Shape.label_merged]
  by_cases hrun : t.label.operator? = op
  · cases op with
    | none =>
      rw [absorbed_none, shapes, h, shapes, Shape.operands_none]
    | some op =>
      rw [absorbed_of_eq (hop.trans hrun), shapes_children_of_shape? h, Shape.operands_of_eq hrun]
  · rw [absorbed_of_ne (fun e => hrun (hop ▸ e)), shapes, h, shapes, Shape.operands_of_ne hrun]

mutual

theorem shape?_merged : ∀ u : Unfolding, u.merged.shape? = u.shape?.map Shape.merged
  | .dangling _ => rfl
  | .node _ label below => by
    rw [merged, shape?, shape?, Option.map_some, Shape.merged,
      shapes_flatMap_absorbed label.operator? below]

theorem shapes_flatMap_absorbed (op : Option Operator) : ∀ us : List Unfolding,
    shapes ((mergedAll us).flatMap (absorbed op)) = Shape.operandsAll op (shapes us)
  | [] => rfl
  | u :: rest => by
    have hu := shape?_merged u
    rw [mergedAll, List.flatMap_cons, shapes_append, shapes_flatMap_absorbed op rest]
    cases ht : u.shape? with
    | none =>
      rw [ht, Option.map_none] at hu
      have hop : absorbed op u.merged = [u.merged] := by
        cases u with
        | dangling id => cases op <;> simp [absorbed, merged, operator?]
        | node id label below => cases ht
      simp only [hop, shapes, hu, ht, List.nil_append]
    | some t =>
      rw [ht, Option.map_some] at hu
      simp only [shapes_absorbed hu, shapes, ht, Shape.operandsAll]

end

end ArithTree.Unfolding
