import ArithTree.Proofs.Growth
import ArithTree.Proofs.Paths

/-!
# Well-formed trees are unfoldings

A store whose links are consistent below the root holds the unfolding of the root, without
repetition (`Rooted.presents`), and a store that holds an unfolding without repetition has
consistent links (`Presents.rooted`). Statements about well-formed trees can so be proved by
recursion on an unfolding.
-/

namespace ArithTree.Store

open Unfolding hiding id

/-- The tree of the store is `u`. -/
structure Presents (s : Store) (u : Unfolding) : Prop where
  root : s.root = some u.id
  holds : s.Holds none u
  nodup : u.ids.Nodup

section

variable {s : Store} {u : Unfolding} {root : NodeId}

theorem Presents.unfold_eq (h : s.Presents u) : s.unfold u.id = u := unfold_of_holds h.holds h.nodup

/-! ## From the unfolding to the links -/

/-- A node on the child list of a held node has its link up there. -/
theorem Holds.parent?_of_mem_children {up : Option NodeId} (h : s.Holds up u) {p c : NodeId}
    (hp : p ∈ u.ids) (hc : c ∈ s.children p) : s.parent? c = some p := by
  obtain ⟨v, up', rfl, hv, -⟩ := h.occurrence hp
  cases v with
  | dangling id => exact hv.elim
  | node id label below =>
    rw [Unfolding.id, children_of_node? hv.1] at hc
    obtain ⟨w, hw, rfl⟩ := List.mem_map.mp hc
    exact ((holdsAll_iff s _ below).mp hv.2 w hw).parent?_top

theorem Holds.nodup_children {up : Option NodeId} (h : s.Holds up u) (hnodup : u.ids.Nodup)
    {p : NodeId} (hp : p ∈ u.ids) : (s.children p).Nodup := by
  obtain ⟨v, up', rfl, hv, hsub, -⟩ := h.occurrence hp
  cases v with
  | dangling id => exact hv.elim
  | node id label below =>
    rw [Unfolding.id, children_of_node? hv.1]
    exact (List.nodup_cons.mp (hnodup.sublist hsub)).2.sublist (map_id_sublist below)

/-- An unfolding that is held without repetition is a tree with consistent links. -/
theorem Presents.rooted (h : s.Presents u) : s.Rooted u.id where
  marked := h.root
  live := h.holds.contains u.id_mem_ids
  top := h.holds.parent?_top
  listed p _ hp hc := h.holds.parent?_of_mem_children ((h.holds.below_iff p).mp hp) hc
  once p hp := h.holds.nodup_children h.nodup ((h.holds.below_iff p).mp hp)

theorem Presents.wellFormed (h : s.Presents u) (hlive : ∀ x, s.contains x = true → x ∈ u.ids) :
    s.WellFormed u.id where
  toRooted := h.rooted
  reached x hx := (h.holds.below_iff x).mpr (hlive x hx)

/-- Where the tree takes up all slots, there is nothing beside it. -/
theorem Presents.wellFormed_of_numbered (h : s.Presents u)
    (hids : u.ids = List.range s.slots.size) :
    s.WellFormed u.id :=
  h.wellFormed fun _ hx => hids ▸ List.mem_range.mpr (lt_size_of_contains hx)

/-! ## From the links to the unfolding -/

/-- Below the end of a path of length `n`, nothing is cut at the depth `slots.size - n`. -/
theorem Acyclic.reads_unfoldWithin {top : NodeId} (h : s.Acyclic top) (depth : Nat) :
    ∀ {p : List Nat} {x : NodeId}, s.descend top p = some x → s.slots.size ≤ p.length + depth →
      s.Reads (s.unfoldWithin depth x) := by
  induction depth with
  | zero =>
    intro p x hp hlen
    have hdead : ¬ s.contains x = true := fun hx =>
      absurd (h.length_path_lt hp hx) (Nat.not_lt.mpr hlen)
    exact Option.not_isSome_iff_eq_none.mp hdead
  | succ depth ih =>
    intro p x hp hlen
    cases hn : s.node? x with
    | none =>
      simp only [unfoldWithin, hn]
      exact hn
    | some node =>
      have hids : (node.children.map (s.unfoldWithin depth)).map Unfolding.id = node.children := by
        rw [List.map_map, show Unfolding.id ∘ s.unfoldWithin depth = id from
          funext fun c => unfoldWithin_id s depth c, List.map_id]
      simp only [unfoldWithin, hn]
      refine ⟨⟨node.parent, by rw [hids, hn]⟩, (readsAll_iff s _).mpr fun v hv => ?_⟩
      obtain ⟨c, hc, rfl⟩ := List.mem_map.mp hv
      obtain ⟨i, hi⟩ := List.mem_iff_getElem?.mp hc
      refine ih (descend_snoc_iff.mpr ⟨x, hp, children_of_node? hn ▸ hi⟩) ?_
      rw [List.length_append, List.length_singleton]
      omega

/-- Where child links close no circle, they give the unfolding. -/
theorem Acyclic.reads_unfold {top : NodeId} (h : s.Acyclic top) : s.Reads (s.unfold top) :=
  h.reads_unfoldWithin s.slots.size (p := []) rfl (Nat.le_add_left _ _)

mutual

/-- What child links give is held if every link up goes to the node that lists the child. -/
theorem Reads.holds {top : NodeId}
    (hlisted : ∀ p c, s.Below top p → c ∈ s.children p → s.parent? c = some p) :
    ∀ {u : Unfolding}, s.Reads u → s.Below top u.id → s.contains u.id = true →
      s.Holds (s.parent? u.id) u
  | .dangling id, hu, _, hlive => by
    have hdead : s.node? id = none := hu
    rw [Unfolding.id, Store.contains, hdead] at hlive
    cases hlive
  | .node id label below, hu, hbelow, _ => by
    obtain ⟨⟨up, hn⟩, hus⟩ := hu
    have hup : s.parent? id = up := by
      rw [parent?, hn]
      rfl
    refine ⟨hup ▸ hn, ReadsAll.holdsAll hlisted hus fun c hc => ?_⟩
    have hstep : c ∈ s.children id := (children_of_node? hn).symm ▸ hc
    exact ⟨hbelow.tail hstep, hlisted id c hbelow hstep⟩

theorem ReadsAll.holdsAll {top : NodeId}
    (hlisted : ∀ p c, s.Below top p → c ∈ s.children p → s.parent? c = some p) :
    ∀ {us : List Unfolding} {p : NodeId}, s.ReadsAll us →
      (∀ c ∈ us.map Unfolding.id, s.Below top c ∧ s.parent? c = some p) → s.HoldsAll (some p) us
  | [], _, _, _ => trivial
  | u :: rest, p, hus, hbelow => by
    rw [List.map_cons, List.forall_mem_cons] at hbelow
    have hu := Reads.holds hlisted hus.1 hbelow.1.1 (contains_of_parent? hbelow.1.2)
    exact ⟨hbelow.1.2 ▸ hu, ReadsAll.holdsAll hlisted hus.2 hbelow.2⟩

end

/-- No handle occurs twice in what is held at the end of a path from the root. -/
theorem Rooted.nodup_ids (h : s.Rooted root) : ∀ (u : Unfolding) {up : Option NodeId}
    {p : List Nat}, s.Holds up u → s.descend root p = some u.id → u.ids.Nodup
  | .dangling id, _, _, hu, _ => hu.elim
  | .node id label below, up, p, hu, hp => by
    obtain ⟨hn, hbelow⟩ := hu
    have hcs := children_of_node? hn
    have hheld := (holdsAll_iff s _ below).mp hbelow
    -- a handle in a child has a path that passes this child
    have path_through {i : Nat} {w : Unfolding} {y : NodeId} (hi : below[i]? = some w)
        (hy : y ∈ w.ids) : ∃ q, s.descend root (p ++ i :: q) = some y := by
      obtain ⟨q, hq⟩ := below_iff_descend.mp ((hheld w (List.mem_of_getElem? hi)).below_of_mem y hy)
      refine ⟨q, descend_append_iff.mpr ⟨id, hp, descend_cons_iff.mpr ⟨w.id, ?_, hq⟩⟩⟩
      rw [hcs, List.getElem?_map, hi]
      rfl
    rw [ids, List.nodup_cons, idsAll_eq_flatMap, List.nodup_flatMap]
    refine ⟨fun hmem => ?_, fun w hw => ?_, ?_⟩
    · obtain ⟨w, hw, hy⟩ := List.mem_flatMap.mp hmem
      obtain ⟨i, hi⟩ := List.mem_iff_getElem?.mp hw
      obtain ⟨q, hq⟩ := path_through hi hy
      have := congrArg List.length (h.path_unique hp hq)
      simp at this
    · obtain ⟨i, hi⟩ := List.mem_iff_getElem?.mp hw
      refine h.nodup_ids w (p := p ++ [i]) (hheld w hw) (descend_snoc_iff.mpr ⟨id, hp, ?_⟩)
      rw [hcs, List.getElem?_map, hi]
      rfl
    · rw [List.pairwise_iff_getElem]
      intro i j hi hj hij y hyi hyj
      obtain ⟨q, hq⟩ := path_through (List.getElem?_eq_getElem hi) hyi
      obtain ⟨r, hr⟩ := path_through (List.getElem?_eq_getElem hj) hyj
      have := List.append_cancel_left (h.path_unique hq hr)
      rw [List.cons.injEq] at this
      omega
termination_by u => sizeOf u
decreasing_by
  have := List.sizeOf_lt_of_mem hw
  simp only [Unfolding.node.sizeOf_spec]
  omega

/-- What is below a node of the tree is a tree that the store holds. -/
theorem Rooted.holds_unfold (h : s.Rooted root) {x : NodeId} (hx : s.Below root x) :
    s.Holds (s.parent? x) (s.unfold x) ∧ (s.unfold x).ids.Nodup := by
  have hacyclic : s.Acyclic x := fun p c hp => h.acyclic (hx.trans hp)
  have hheld := hacyclic.reads_unfold.holds h.listed (by rwa [unfold_id])
    (by rw [unfold_id]; exact h.contains hx)
  rw [unfold_id] at hheld
  obtain ⟨p, hp⟩ := below_iff_descend.mp hx
  exact ⟨hheld, h.nodup_ids _ hheld (hp.trans (congrArg some (unfold_id s x).symm))⟩

/-- **Presentation lemma.** Consistent links make the unfolding of the root a tree that the store
holds. -/
theorem Rooted.presents (h : s.Rooted root) : s.Presents (s.unfold root) := by
  obtain ⟨hheld, hnodup⟩ := h.holds_unfold Relation.ReflTransGen.refl
  rw [h.top] at hheld
  exact ⟨by rw [unfold_id, h.marked], hheld, hnodup⟩

theorem Rooted.mem_ids_iff (h : s.Rooted root) (x : NodeId) :
    x ∈ (s.unfold root).ids ↔ s.Below root x := by
  rw [← h.presents.holds.below_iff, unfold_id]

theorem WellFormed.mem_ids_iff (h : s.WellFormed root) (x : NodeId) :
    x ∈ (s.unfold root).ids ↔ s.contains x = true := by
  rw [h.toRooted.mem_ids_iff]
  exact ⟨h.toRooted.contains, h.reached x⟩

/-! ## Trees that have been built -/

/-- A tree becomes the tree of the store when its top is made the root. -/
theorem Holds.presents_setRoot (hu : s.Holds none u) (hnodup : u.ids.Nodup) :
    (∀ x, (s.setRoot u.id).node? x = s.node? x) ∧ (s.setRoot u.id).Presents u := by
  have hread : ∀ x, (s.setRoot u.id).node? x = s.node? x := by
    intro x
    obtain ⟨label, cs, hn⟩ := hu.top
    have : (s.setRoot u.id).node? x = (s.setParent u.id none).node? x := rfl
    rw [this, node?_setParent]
    split
    · next hx => rw [hx, hn]; rfl
    · rfl
  exact ⟨hread, rfl, hu.congr fun x _ => hread x, hnodup⟩

/-- What has been built in an empty store becomes the tree when its top is made the root. -/
theorem Grows.presents (h : Store.empty.Grows s [u]) : (s.setRoot u.id).Presents u ∧
    ∀ x, (s.setRoot u.id).contains x = true → x ∈ u.ids := by
  have hnodup := h.nodup
  rw [idsAll_singleton] at hnodup
  obtain ⟨hread, hpresents⟩ := h.holds.1.presents_setRoot hnodup
  refine ⟨hpresents, fun x hx => ?_⟩
  rw [Store.contains, hread] at hx
  have := h.live x (Nat.zero_le x) hx
  rwa [idsAll_singleton] at this

end

end ArithTree.Store
