import ArithTree.Proofs.Shape
import ArithTree.Store.Unfolding

/-!
# Occurrences in an unfolding

The handles of an unfolding in preorder, its shape, and the unfolding with other handles in the same
places. Two unfoldings of one shape are the same up to their handles (`eq_rename_of_shape?`).
-/

namespace ArithTree.Unfolding

def children : Unfolding → List Unfolding
  | .dangling _ => []
  | .node _ _ below => below

/-! ## Handles -/

mutual

/-- The handles of all occurrences, each before what is below it. -/
def ids : Unfolding → List NodeId
  | .dangling id => [id]
  | .node id _ below => id :: idsAll below

def idsAll : List Unfolding → List NodeId
  | [] => []
  | u :: rest => u.ids ++ idsAll rest

end

theorem idsAll_eq_flatMap (us : List Unfolding) : idsAll us = us.flatMap ids := by
  induction us with
  | nil => rfl
  | cons u rest ih => rw [idsAll, ih, List.flatMap_cons]

theorem mem_idsAll {us : List Unfolding} {x : NodeId} : x ∈ idsAll us ↔ ∃ u ∈ us, x ∈ u.ids := by
  rw [idsAll_eq_flatMap, List.mem_flatMap]

theorem idsAll_append (us vs : List Unfolding) : idsAll (us ++ vs) = idsAll us ++ idsAll vs := by
  simp only [idsAll_eq_flatMap, List.flatMap_append]

theorem idsAll_singleton (u : Unfolding) : idsAll [u] = u.ids := by
  simp [idsAll]

theorem ids_eq (u : Unfolding) : u.ids = u.id :: idsAll u.children := by
  cases u <;> rfl

theorem ids_children_sublist (u : Unfolding) : (idsAll u.children).Sublist u.ids := by
  rw [u.ids_eq]
  exact List.sublist_cons_self _ _

theorem id_mem_ids (u : Unfolding) : u.id ∈ u.ids := by
  cases u <;> simp [ids, id]

theorem id_mem_idsAll {us : List Unfolding} {u : Unfolding} (h : u ∈ us) : u.id ∈ idsAll us :=
  mem_idsAll.mpr ⟨u, h, u.id_mem_ids⟩

/-- The tops stand in the list of all handles in their order. -/
theorem map_id_sublist (us : List Unfolding) : (us.map id).Sublist (idsAll us) := by
  induction us with
  | nil => exact List.Sublist.refl []
  | cons u rest ih =>
    have top : [u.id].Sublist u.ids := List.singleton_sublist.mpr u.id_mem_ids
    exact top.append ih

theorem ids_sublist_idsAll {us : List Unfolding} {u : Unfolding} (h : u ∈ us) :
    u.ids.Sublist (idsAll us) := by
  rw [idsAll_eq_flatMap, List.flatMap_def]
  exact List.sublist_flatten_of_mem (List.mem_map_of_mem h)

/-- Where no handle occurs twice, a handle tells the child it is found in. -/
theorem eq_of_mem_ids {us : List Unfolding} (h : (idsAll us).Nodup) {u v : Unfolding} (hu : u ∈ us)
    (hv : v ∈ us) {x : NodeId} (hxu : x ∈ u.ids) (hxv : x ∈ v.ids) : u = v := by
  induction us with
  | nil => cases hu
  | cons w rest ih =>
    rw [idsAll, List.nodup_append] at h
    have apart : ∀ y ∈ w.ids, y ∉ idsAll rest := fun y hy hr => h.2.2 y hy y hr rfl
    rcases List.mem_cons.mp hu with hu | hu <;> rcases List.mem_cons.mp hv with hv | hv
    · rw [hu, hv]
    · exact absurd (mem_idsAll.mpr ⟨v, hv, hxv⟩) (apart x (hu ▸ hxu))
    · exact absurd (mem_idsAll.mpr ⟨u, hu, hxu⟩) (apart x (hv ▸ hxv))
    · exact ih h.2.1 hu hv

mutual

theorem length_ids : ∀ u : Unfolding, u.ids.length = u.size
  | .dangling _ => rfl
  | .node _ _ below => by
    rw [ids, size, List.length_cons, length_idsAll below, Nat.add_comm]

theorem length_idsAll : ∀ us : List Unfolding, (idsAll us).length = sizeAll us
  | [] => rfl
  | u :: rest => by
    rw [idsAll, sizeAll, List.length_append, length_ids u, length_idsAll rest]

end

mutual

/-- No way down is longer than the whole. -/
theorem height_le_size : ∀ u : Unfolding, u.height ≤ u.size
  | .dangling _ => Nat.le_refl 1
  | .node _ _ below => Nat.add_le_add_left (heightAll_le_sizeAll below) 1

theorem heightAll_le_sizeAll : ∀ us : List Unfolding, heightAll us ≤ sizeAll us
  | [] => Nat.le_refl 0
  | u :: rest => by
    have hu := height_le_size u
    have hrest := heightAll_le_sizeAll rest
    rw [heightAll, sizeAll]
    omega

end

/-! ## Shapes -/

mutual

/-- The live occurrences without their handles; nothing for a dangling link. -/
def shape? : Unfolding → Option Shape
  | .dangling _ => none
  | .node _ label below => some (.node label (shapes below))

def shapes : List Unfolding → List Shape
  | [] => []
  | u :: rest =>
    match u.shape? with
    | some t => t :: shapes rest
    | none => shapes rest

end

theorem shapes_append (us vs : List Unfolding) : shapes (us ++ vs) = shapes us ++ shapes vs := by
  induction us with
  | nil => rfl
  | cons u rest ih =>
    rw [List.cons_append, shapes, shapes, ih]
    cases u.shape? <;> rfl

mutual

/-- No link in the unfolding is dangling. -/
def Whole : Unfolding → Prop
  | .dangling _ => False
  | .node _ _ below => WholeAll below

def WholeAll : List Unfolding → Prop
  | [] => True
  | u :: rest => u.Whole ∧ WholeAll rest

end

theorem Whole.exists_shape? {u : Unfolding} (h : u.Whole) : ∃ t, u.shape? = some t := by
  cases u with
  | dangling id => exact h.elim
  | node id label below => exact ⟨_, rfl⟩

mutual

/-- Where nothing dangles, the shape has a node for each occurrence. -/
theorem length_ids_of_shape? : ∀ (u : Unfolding) {t : Shape}, u.Whole → u.shape? = some t →
    u.ids.length = t.size
  | .dangling _, _, h, _ => h.elim
  | .node _ label below, t, h, ht => by
    rw [shape?, Option.some.injEq] at ht
    rw [← ht, ids, Shape.size, List.length_cons, length_idsAll_of_shapes below h, Nat.add_comm]

theorem length_idsAll_of_shapes : ∀ us : List Unfolding, WholeAll us →
    (idsAll us).length = Shape.sizeAll (shapes us)
  | [], _ => rfl
  | u :: rest, h => by
    obtain ⟨t, ht⟩ := h.1.exists_shape?
    simp only [idsAll, shapes, ht, Shape.sizeAll, List.length_append]
    rw [length_ids_of_shape? u h.1 ht, length_idsAll_of_shapes rest h.2]

end

/-! ## Other handles -/

mutual

/-- The unfolding with `f id` in the place of each handle `id`. -/
def rename (f : NodeId → NodeId) : Unfolding → Unfolding
  | .dangling id => .dangling (f id)
  | .node id label below => .node (f id) label (renameAll f below)

def renameAll (f : NodeId → NodeId) : List Unfolding → List Unfolding
  | [] => []
  | u :: rest => u.rename f :: renameAll f rest

end

theorem renameAll_eq_map (f : NodeId → NodeId) (us : List Unfolding) :
    renameAll f us = us.map (rename f) := by
  induction us with
  | nil => rfl
  | cons u rest ih => rw [renameAll, ih, List.map_cons]

@[simp] theorem id_rename (f : NodeId → NodeId) (u : Unfolding) : (u.rename f).id = f u.id := by
  cases u <;> rfl

mutual

theorem ids_rename (f : NodeId → NodeId) : ∀ u : Unfolding, (u.rename f).ids = u.ids.map f
  | .dangling _ => rfl
  | .node _ _ below => by rw [rename, ids, ids, idsAll_renameAll f below, List.map_cons]

theorem idsAll_renameAll (f : NodeId → NodeId) : ∀ us : List Unfolding,
    idsAll (renameAll f us) = (idsAll us).map f
  | [] => rfl
  | u :: rest => by
    rw [renameAll, idsAll, idsAll, ids_rename f u, idsAll_renameAll f rest, List.map_append]

end

mutual

theorem shape?_rename (f : NodeId → NodeId) : ∀ u : Unfolding, (u.rename f).shape? = u.shape?
  | .dangling _ => rfl
  | .node _ _ below => by rw [rename, shape?, shape?, shapes_renameAll f below]

theorem shapes_renameAll (f : NodeId → NodeId) : ∀ us : List Unfolding,
    shapes (renameAll f us) = shapes us
  | [] => rfl
  | u :: rest => by rw [renameAll, shapes, shapes, shape?_rename f u, shapes_renameAll f rest]

end

mutual

/-- **Renaming lemma.** Unfoldings of one shape differ by the handles only, and the handles of the
second are those of the first under any map that takes the one preorder to the other. -/
theorem eq_rename_of_shape? (f : NodeId → NodeId) : ∀ u v : Unfolding, u.Whole → v.Whole →
    u.shape? = v.shape? → v.ids = u.ids.map f → v = u.rename f
  | .dangling _, _, hu, _, _, _ => hu.elim
  | .node _ _ _, .dangling _, _, hv, _, _ => hv.elim
  | .node a label us, .node b label' vs, hu, hv, hs, hi => by
    simp only [shape?, Option.some.injEq, Shape.node.injEq] at hs
    simp only [ids, List.map_cons, List.cons.injEq] at hi
    rw [rename, eq_renameAll_of_shapes f us vs hu hv hs.2 hi.2, hi.1, hs.1]

theorem eq_renameAll_of_shapes (f : NodeId → NodeId) : ∀ us vs : List Unfolding, WholeAll us →
    WholeAll vs → shapes us = shapes vs → idsAll vs = (idsAll us).map f → vs = renameAll f us
  | [], [], _, _, _, _ => rfl
  | [], v :: vs, _, hv, hs, _ => by
    obtain ⟨t, ht⟩ := hv.1.exists_shape?
    simp [shapes, ht] at hs
  | u :: us, [], hu, _, hs, _ => by
    obtain ⟨t, ht⟩ := hu.1.exists_shape?
    simp [shapes, ht] at hs
  | u :: us, v :: vs, hu, hv, hs, hi => by
    obtain ⟨t, ht⟩ := hu.1.exists_shape?
    obtain ⟨t', ht'⟩ := hv.1.exists_shape?
    simp only [shapes, ht, ht', List.cons.injEq] at hs
    simp only [idsAll, List.map_append] at hi
    have hlen : v.ids.length = (u.ids.map f).length := by
      rw [List.length_map, length_ids_of_shape? u hu.1 ht, length_ids_of_shape? v hv.1 ht', hs.1]
    obtain ⟨htop, hrest⟩ := List.append_inj hi hlen
    have hshape : u.shape? = v.shape? := by rw [ht, ht', hs.1]
    rw [renameAll, ← eq_rename_of_shape? f u v hu.1 hv.1 hshape htop,
      ← eq_renameAll_of_shapes f us vs hu.2 hv.2 hs.2 hrest]

end

/-- The shape and the handles tell the unfolding. -/
theorem eq_of_shape? {u v : Unfolding} (hu : u.Whole) (hv : v.Whole) (hshape : u.shape? = v.shape?)
    (hids : u.ids = v.ids) : u = v := by
  have hself : u.ids = u.ids.map fun x => x := (List.map_id' _).symm
  rw [eq_rename_of_shape? (fun x => x) u v hu hv hshape (hids.symm.trans hself)]
  exact eq_rename_of_shape? _ u u hu hu rfl hself

end ArithTree.Unfolding
