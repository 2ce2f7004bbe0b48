import ArithTree.Proofs.Holding

/-!
# Growing stores

The search for a derivation and the making of a copy both build trees without a parent next to
what is in the store already. `Grows before after us` says that nothing has changed but for the
new trees `us`. New nodes (`Grows.insert`), links between new trees (`Grows.append`), steps one
after the other (`Grows.trans`) and the removal of a new tree (`Grows.remove`) keep to that form.
-/

namespace ArithTree.Store

open Unfolding hiding id

/-- `after` has the live nodes of `before`, unchanged, and those of the new trees `us`. -/
structure Grows (before after : Store) (us : List Unfolding) : Prop where
  size : before.slots.size ≤ after.slots.size
  old : ∀ x < before.slots.size, after.node? x = before.node? x
  holds : after.HoldsAll none us
  nodup : (idsAll us).Nodup
  fresh : ∀ x ∈ idsAll us, before.slots.size ≤ x
  live : ∀ x, before.slots.size ≤ x → after.contains x = true → x ∈ idsAll us

theorem Grows.refl (s : Store) : Grows s s [] where
  size := Nat.le_refl _
  old _ _ := rfl
  holds := trivial
  nodup := List.nodup_nil
  fresh x hx := by cases hx
  live x hx hl := by
    rw [Store.contains, node?_eq_none_of_size_le hx] at hl
    cases hl

theorem HoldsAll.append {s : Store} {up : Option NodeId} {us vs : List Unfolding}
    (hu : s.HoldsAll up us) (hv : s.HoldsAll up vs) : s.HoldsAll up (us ++ vs) := by
  rw [holdsAll_iff] at hu hv ⊢
  intro w hw
  rcases List.mem_append.mp hw with hw | hw
  · exact hu w hw
  · exact hv w hw

theorem HoldsAll.lt_size {s : Store} {up : Option NodeId} {us : List Unfolding}
    (h : s.HoldsAll up us) {x : NodeId} (hx : x ∈ idsAll us) : x < s.slots.size := by
  obtain ⟨u, hu, hx⟩ := mem_idsAll.mp hx
  exact ((holdsAll_iff s up us).mp h u hu).lt_size hx

theorem Grows.trans {a b c : Store} {us vs : List Unfolding} (h : Grows a b us)
    (h' : Grows b c vs) : Grows a c (us ++ vs) where
  size := Nat.le_trans h.size h'.size
  old x hx := by rw [h'.old x (Nat.lt_of_lt_of_le hx h.size), h.old x hx]
  holds := (h.holds.congr fun x hx => h'.old x (h.holds.lt_size hx)).append h'.holds
  nodup := by
    rw [idsAll_append]
    refine h.nodup.append h'.nodup fun x hx hx' => ?_
    exact absurd (h.holds.lt_size hx) (Nat.not_lt.mpr (h'.fresh x hx'))
  fresh x hx := by
    rw [idsAll_append] at hx
    rcases List.mem_append.mp hx with hx | hx
    · exact h.fresh x hx
    · exact Nat.le_trans h.size (h'.fresh x hx)
  live x hx hl := by
    rw [idsAll_append]
    by_cases hb : x < b.slots.size
    · rw [Store.contains, h'.old x hb] at hl
      exact List.mem_append_left _ (h.live x hx hl)
    · exact List.mem_append_right _ (h'.live x (Nat.le_of_not_lt hb) hl)

/-- A new node without links. -/
theorem Grows.insert {a b : Store} {us : List Unfolding} (h : Grows a b us) (label : Label) :
    Grows a (b.insert label none).2 (.node b.slots.size label [] :: us) where
  size := by
    have : (b.insert label none).2.slots.size = b.slots.size + 1 := Array.size_push ..
    exact this ▸ Nat.le_succ_of_le h.size
  old x hx := by
    rw [node?_insert_none, if_neg (Nat.ne_of_lt (Nat.lt_of_lt_of_le hx h.size)), h.old x hx]
  holds := by
    refine ⟨⟨by rw [node?_insert_none, if_pos rfl]; rfl, trivial⟩, h.holds.congr fun x hx => ?_⟩
    rw [node?_insert_none, if_neg (Nat.ne_of_lt (h.holds.lt_size hx))]
  nodup := by
    refine List.nodup_cons.mpr ⟨fun hx => ?_, h.nodup⟩
    exact Nat.lt_irrefl _ (h.holds.lt_size hx)
  fresh x hx := by
    rcases List.mem_cons.mp hx with rfl | hx
    · exact h.size
    · exact h.fresh x hx
  live x hx hl := by
    by_cases he : x = b.slots.size
    · exact he ▸ List.mem_cons_self ..
    · rw [Store.contains, node?_insert_none, if_neg he] at hl
      exact List.mem_cons_of_mem _ (h.live x hx hl)

theorem node?_append (s : Store) {p c : NodeId} (h : p ≠ c) (x : NodeId) :
    (s.append p c).node? x =
      if x = c then (s.node? c).map fun node => { node with parent := some p }
      else if x = p then (s.node? p).map fun node => { node with children := node.children ++ [c] }
      else s.node? x := by
  rw [append, node?_setParent, node?_list, node?_list, if_neg h.symm]

/-- The first new tree becomes the last child of another that stands before it. -/
theorem Grows.append {a b : Store} {id : NodeId} {label : Label} {done : List Unfolding}
    {u : Unfolding} {us : List Unfolding} (h : Grows a b (.node id label done :: u :: us)) :
    Grows a (b.append id u.id) (.node id label (done ++ [u]) :: us) := by
  have same : idsAll (.node id label (done ++ [u]) :: us) =
      idsAll (.node id label done :: u :: us) := by
    simp [idsAll, ids, idsAll_append]
  have hnodup := h.nodup
  simp only [idsAll, ids, List.cons_append, List.nodup_cons, List.mem_append, List.nodup_append,
    not_or] at hnodup
  obtain ⟨⟨hdone, hu, hus⟩, -, ⟨huu, -, hdis⟩, hdisjoint⟩ := hnodup
  obtain ⟨⟨hid, hheld⟩, htop, hrest⟩ := h.holds
  have hne : id ≠ u.id := fun e => hu (e ▸ u.id_mem_ids)
  have read : ∀ x, x ≠ u.id → x ≠ id → (b.append id u.id).node? x = b.node? x := by
    intro x hxu hxi
    rw [node?_append b hne, if_neg hxu, if_neg hxi]
  refine ⟨?_, fun x hx => ?_, ⟨⟨?_, ?_⟩, ?_⟩, same ▸ h.nodup, same ▸ h.fresh, fun x hx hl => ?_⟩
  · simpa [Store.append, setParent, list] using h.size
  · have hi := h.fresh id (by simp [idsAll, ids])
    have hc := h.fresh u.id (by simp [idsAll, ids, u.id_mem_ids])
    rw [read x (Nat.ne_of_lt (Nat.lt_of_lt_of_le hx hc)) (Nat.ne_of_lt (Nat.lt_of_lt_of_le hx hi)),
      h.old x hx]
  · rw [node?_append b hne, if_neg hne, if_pos rfl, hid]
    simp
  · refine HoldsAll.append (hheld.congr fun x hx => read x ?_ ?_) ⟨?_, trivial⟩
    · rintro rfl
      exact hdisjoint u.id hx u.id (Or.inl u.id_mem_ids) rfl
    · rintro rfl
      exact hdone hx
    · refine htop.reparent huu ?_ fun x hx hxu => read x hxu ?_
      · rw [node?_append b hne, if_pos rfl]
      · rintro rfl
        exact hu hx
  · refine hrest.congr fun x hx => read x ?_ ?_
    · rintro rfl
      exact hdis u.id u.id_mem_ids u.id hx rfl
    · rintro rfl
      exact hus hx
  · rw [same]
    refine h.live x hx ?_
    by_cases hxu : x = u.id
    · obtain ⟨l, cs, hn⟩ := htop.top
      exact hxu ▸ contains_of_node? hn
    · by_cases hxi : x = id
      · exact hxi ▸ contains_of_node? hid
      · rwa [Store.contains, read x hxu hxi] at hl

/-! ## Removal of a tree -/

/-- Removing the top of a tree that has no parent removes the tree and nothing else. -/
theorem Holds.node?_remove {s : Store} {u : Unfolding} (h : s.Holds none u) (x : NodeId) :
    (s.remove u.id).node? x = if x ∈ u.ids then none else s.node? x := by
  split
  · next hx => exact node?_remove_of_below ((h.below_iff x).mpr hx)
  · next hx =>
    rw [node?_remove_of_not_below fun hb => hx ((h.below_iff x).mp hb), node?_unlist, h.parent?_top,
      if_neg (by simp)]

/-- What has been built and is removed again leaves no trace. -/
theorem Grows.remove {a b : Store} {u : Unfolding} (h : Grows a b [u]) :
    Grows a (b.remove u.id) [] := by
  have hu : b.Holds none u := h.holds.1
  have mem : ∀ x, x ∈ idsAll [u] ↔ x ∈ u.ids := by
    intro x
    rw [idsAll_singleton]
  have hsize : (b.remove u.id).slots.size = b.slots.size := by
    rw [Store.remove, hu.parent?_top]
    exact size_slots_removeAll b _
  refine ⟨hsize ▸ h.size, fun x hx => ?_, trivial, List.nodup_nil, fun x hx => (by cases hx),
    fun x hx hl => ?_⟩
  · have hnew : x ∉ u.ids := fun hm => absurd hx (Nat.not_lt.mpr (h.fresh x ((mem x).mpr hm)))
    rw [hu.node?_remove, if_neg hnew, h.old x hx]
  · rw [Store.contains, hu.node?_remove] at hl
    split at hl
    · cases hl
    · next hm => exact absurd ((mem x).mp (h.live x hx hl)) hm

end ArithTree.Store
