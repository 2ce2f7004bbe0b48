import ArithTree.Placement.Copy
import ArithTree.Proofs.Renaming

/-!
# Copies are trees of the same shape

Grafting an unfolding without dangling links adds one new tree of its shape to a store, with its
nodes in preorder (`graft_spec`), and the copy of the marked child becomes the ghost. Where the mark
is not among the children of any occurrence, no ghost is set (`ghost_graft`). Dangling links leave
nothing in a copy (`graft_pruned`), so the copy of a live node is a tree on every store
(`deepCopy_spec`).
-/

namespace ArithTree.Unfolding

open Store

/-! ## Marks -/

@[simp] theorem ghost_append (s : Store) (p c : NodeId) : (s.append p c).ghost = s.ghost := rfl

@[simp] theorem ghost_insert (s : Store) (label : Label) :
    (s.insert label none).2.ghost = s.ghost := rfl

mutual

/-- A mark that is on no child leaves the ghost as it is. -/
theorem ghost_graft (marked : Option NodeId) : ∀ (u : Unfolding) (s : Store),
    (∀ x ∈ idsAll u.children, marked ≠ some x) → (graft marked u s).2.ghost = s.ghost
  | .dangling _, _, _ => rfl
  | .node _ label below, s, h => by
    rw [graft]
    exact (ghost_graftAll marked _ below _ h).trans (ghost_insert s label)

theorem ghost_graftAll (marked : Option NodeId) (parent : NodeId) :
    ∀ (us : List Unfolding) (s : Store), (∀ x ∈ idsAll us, marked ≠ some x) →
      (graftAll marked parent us s).ghost = s.ghost
  | [], _, _ => rfl
  | u :: rest, s, h => by
    rw [idsAll, u.ids_eq] at h
    have hu := ghost_graft marked u s fun x hx =>
      h x (List.mem_append_left _ (List.mem_cons_of_mem _ hx))
    have hrest : ∀ x ∈ idsAll rest, marked ≠ some x := fun x hx => h x (List.mem_append_right _ hx)
    rw [graftAll]
    generalize graft marked u s = r at hu ⊢
    obtain ⟨_ | copy, s'⟩ := r
    · exact (ghost_graftAll marked parent rest s' hrest).trans hu
    · simp only
      rw [if_neg (h u.id (List.mem_append_left _ (List.mem_cons_self ..)))]
      exact (ghost_graftAll marked parent rest _ hrest).trans hu

end

/-! ## Copies -/

/-- The ghost after copying `us` to `vs`: the copy of a marked occurrence. -/
def GhostSet (marked : Option NodeId) (us vs : List Unfolding) (ghost : Option NodeId) : Prop :=
  ∀ x ∈ idsAll us, marked = some x →
    ∀ f : NodeId → NodeId, idsAll vs = (idsAll us).map f → ghost = some (f x)

theorem grows_mark {a s : Store} {us : List Unfolding} (h : a.Grows s us) (id : NodeId) :
    a.Grows (s.mark id) us :=
  ⟨h.size, h.old, h.holds.congr fun _ _ => rfl, h.nodup, h.fresh, h.live⟩

/-- The new trees have the next handles, in preorder. -/
def Numbered (s t : Store) (vs : List Unfolding) : Prop :=
  idsAll vs = List.range' s.slots.size (idsAll vs).length ∧
    t.slots.size = s.slots.size + (idsAll vs).length

theorem Numbered.append {a b c : Store} {us vs : List Unfolding} (h : Numbered a b us)
    (h' : Numbered b c vs) : Numbered a c (us ++ vs) := by
  obtain ⟨hids, hsize⟩ := h
  obtain ⟨hids', hsize'⟩ := h'
  rw [Numbered, idsAll_append, List.length_append, ← List.range'_append_1, ← hids, ← hsize, ← hids',
    hsize', hsize, Nat.add_assoc]
  exact ⟨rfl, rfl⟩

/-- A new node comes before what is put below it. -/
theorem Numbered.node {s t : Store} {label : Label} {vs : List Unfolding}
    (h : Numbered (s.insert label none).2 t vs) :
    Numbered s t [.node s.slots.size label vs] := by
  obtain ⟨hids, hsize⟩ := h
  have hnew : (s.insert label none).2.slots.size = s.slots.size + 1 := Array.size_push ..
  rw [hnew] at hids hsize
  rw [Numbered, idsAll_singleton, ids, List.length_cons, List.range'_succ, ← hids]
  exact ⟨rfl, by omega⟩

theorem length_ids_of_same_shape {u v : Unfolding} (hu : u.Whole) (hv : v.Whole)
    (h : v.shape? = u.shape?) : v.ids.length = u.ids.length := by
  obtain ⟨t, ht⟩ := hu.exists_shape?
  rw [length_ids_of_shape? u hu ht, length_ids_of_shape? v hv (h.trans ht)]

mutual

/-- **Copying lemma.** Grafting adds one tree of the same shape. -/
theorem graft_spec (marked : Option NodeId) : ∀ (u : Unfolding) (s : Store), u.Whole →
    ∃ v, (graft marked u s).1 = some v.id ∧ v.shape? = u.shape? ∧ s.Grows (graft marked u s).2 [v] ∧
      Numbered s (graft marked u s).2 [v] ∧
      GhostSet marked u.children v.children (graft marked u s).2.ghost
  | .dangling _, _, h => h.elim
  | .node id label below, s, h => by
    have hnew := (Grows.refl s).insert label
    obtain ⟨vs, hgrows, hshapes, hnumbered, hghost⟩ := graftAll_spec marked below [] hnew h
    refine ⟨.node s.slots.size label vs, rfl, ?_, hgrows, hnumbered.node, hghost⟩
    rw [shape?, shape?, hshapes]

theorem graftAll_spec (marked : Option NodeId) : ∀ (us done : List Unfolding) {a s : Store}
    {id : NodeId} {label : Label}, a.Grows s [.node id label done] → WholeAll us →
    ∃ vs, a.Grows (graftAll marked id us s) [.node id label (done ++ vs)] ∧ shapes vs = shapes us ∧
      Numbered s (graftAll marked id us s) vs ∧
      GhostSet marked us vs (graftAll marked id us s).ghost
  | [], done, a, s, id, label, hgrows, _ =>
    ⟨[], by rwa [List.append_nil], rfl, ⟨rfl, rfl⟩, fun x hx => (by cases hx)⟩
  | u :: rest, done, a, s, id, label, hgrows, h => by
    obtain ⟨v, hv, hshape, hgrows', hnumbered, hghost⟩ := graft_spec marked u s h.1
    rw [graftAll]
    generalize graft marked u s = r at hv hgrows' hnumbered hghost ⊢
    obtain ⟨_, s'⟩ := r
    simp only at hv hgrows' hnumbered hghost
    subst hv
    simp only
    have happend := (hgrows.trans hgrows').append
    generalize hs :
      (if marked = some u.id then (s'.append id v.id).mark v.id else s'.append id v.id) = s''
    have hgrows'' : a.Grows s'' [.node id label (done ++ [v])] := by
      rw [← hs]
      split
      · exact grows_mark happend v.id
      · exact happend
    have hsize : s''.slots.size = s'.slots.size := by
      rw [← hs]
      split <;> simp [mark, Store.append, setParent, list]
    obtain ⟨vs, hall, hshapes, hnumbered', hghosts⟩ :=
      graftAll_spec marked rest (done ++ [v]) hgrows'' h.2
    rw [Numbered, hsize] at hnumbered'
    refine ⟨v :: vs, by simpa using hall, ?_, hnumbered.append hnumbered',
      fun x hx hmarked f hf => ?_⟩
    · rw [shapes, shapes, hshape, hshapes]
    · have hlen := length_ids_of_same_shape h.1 hgrows'.holds.1.whole hshape
      simp only [idsAll, List.map_append] at hf
      obtain ⟨htop, hrest⟩ := List.append_inj hf (by rw [List.length_map, hlen])
      by_cases hlater : x ∈ idsAll rest
      · exact hghosts x hlater hmarked f hrest
      · -- the rest does not touch the ghost any more
        have hkept := ghost_graftAll marked id rest s'' fun y hy hm => by
          obtain rfl : x = y := Option.some.inj (hmarked.symm.trans hm)
          exact hlater hy
        have hxu : x ∈ u.ids := (List.mem_append.mp hx).resolve_right hlater
        rw [v.ids_eq, u.ids_eq, List.map_cons, List.cons.injEq] at htop
        rw [hkept, ← hs]
        by_cases he : x = u.id
        · rw [if_pos (he ▸ hmarked), he, ← htop.1]
          rfl
        · rw [if_neg fun hm => he (Option.some.inj (hmarked.symm.trans hm)), ghost_append]
          rw [u.ids_eq] at hxu
          exact hghost x ((List.mem_cons.mp hxu).resolve_left he) hmarked f htop.2

end

/-- The copy of a tree in an empty store: the same tree with other handles, and a marked node that
is not the top has its copy as the ghost. -/
theorem graft_empty {u : Unfolding} (hwhole : u.Whole) (hnodup : u.ids.Nodup) {x : NodeId}
    (hx : x ∈ idsAll u.children) :
    ∃ v f, (graft (some x) u .empty).1 = some v.id ∧
      (graft (some x) u .empty).2.ghost = some (f x) ∧ v.shape? = u.shape? ∧
      v.ids = u.ids.map f ∧ Store.empty.Grows (graft (some x) u .empty).2 [v] := by
  obtain ⟨v, hv, hshape, hgrows, -, hghost⟩ := graft_spec (some x) u .empty hwhole
  have hids := map_pairing hnodup (length_ids_of_same_shape hwhole hgrows.holds.1.whole hshape)
  refine ⟨v, pairing u.ids v.ids, hv, hghost x hx rfl _ ?_, hshape, hids.symm, hgrows⟩
  have htail := congrArg List.tail hids
  rwa [u.ids_eq, v.ids_eq, List.map_cons, List.tail_cons, List.tail_cons, ← u.ids_eq, ← v.ids_eq,
    eq_comm] at htail

/-- A copy of a whole tree is a well-formed tree that is equal to it up to handles, and a marked
node that is not the top has its copy as the ghost. -/
theorem graft_renaming {s : Store} {u : Unfolding} (h : s.Presents u)
    (hlive : ∀ x, s.contains x = true → x ∈ u.ids) {x : NodeId} (hx : x ∈ idsAll u.children) :
    ∃ top f, (graft (some x) u .empty).1 = some top ∧
      (graft (some x) u .empty).2.ghost = some (f x) ∧
      ((graft (some x) u .empty).2.setRoot top).WellFormed top ∧
      s.Renaming f ((graft (some x) u .empty).2.setRoot top) := by
  obtain ⟨v, f, hv, hghost, hshape, hids, hgrows⟩ := graft_empty h.holds.whole h.nodup hx
  obtain ⟨hcopy, hcopyLive⟩ := hgrows.presents
  exact ⟨v.id, f, hv, hghost, hcopy.wellFormed hcopyLive,
    renaming_of_ids h hcopy hlive hcopyLive hshape.symm hids⟩

/-! ## Dangling links -/

mutual

/-- The unfolding without the dangling links below its top. -/
def pruned : Unfolding → Unfolding
  | .dangling id => .dangling id
  | .node id label below => .node id label (prunedAll below)

def prunedAll : List Unfolding → List Unfolding
  | [] => []
  | u :: rest =>
    match u.shape? with
    | some _ => u.pruned :: prunedAll rest
    | none => prunedAll rest

end

@[simp] theorem id_pruned (u : Unfolding) : u.pruned.id = u.id := by
  cases u <;> rfl

mutual

theorem shape?_pruned : ∀ u : Unfolding, u.pruned.shape? = u.shape?
  | .dangling _ => rfl
  | .node _ _ below => by rw [pruned, shape?, shape?, shapes_prunedAll below]

theorem shapes_prunedAll : ∀ us : List Unfolding, shapes (prunedAll us) = shapes us
  | [] => rfl
  | u :: rest => by
    have hu := shape?_pruned u
    cases ht : u.shape? with
    | none => simp only [prunedAll, shapes, ht, shapes_prunedAll rest]
    | some t => simp only [prunedAll, shapes, ht, hu, shapes_prunedAll rest]

end

mutual

theorem whole_pruned : ∀ (u : Unfolding) {t : Shape}, u.shape? = some t → u.pruned.Whole
  | .dangling _, _, h => by cases h
  | .node _ _ below, _, _ => wholeAll_prunedAll below

theorem wholeAll_prunedAll : ∀ us : List Unfolding, WholeAll (prunedAll us)
  | [] => trivial
  | u :: rest => by
    cases ht : u.shape? with
    | none =>
      simp only [prunedAll, ht]
      exact wholeAll_prunedAll rest
    | some t =>
      simp only [prunedAll, ht]
      exact ⟨whole_pruned u ht, wholeAll_prunedAll rest⟩

end

mutual

/-- Dangling links leave nothing in the copy. -/
theorem graft_pruned (marked : Option NodeId) : ∀ (u : Unfolding) (s : Store),
    graft marked u.pruned s = graft marked u s
  | .dangling _, _ => rfl
  | .node _ label below, s => by
    simp only [pruned, graft, graftAll_prunedAll marked _ below]

theorem graftAll_prunedAll (marked : Option NodeId) (parent : NodeId) :
    ∀ (us : List Unfolding) (s : Store),
      graftAll marked parent (prunedAll us) s = graftAll marked parent us s
  | [], _ => rfl
  | u :: rest, s => by
    cases ht : u.shape? with
    | none =>
      cases u with
      | dangling id =>
        simp only [prunedAll, ht, graftAll, graft]
        exact graftAll_prunedAll marked parent rest s
      | node id label below => cases ht
    | some t =>
      simp only [prunedAll, ht, graftAll, graft_pruned marked u s, id_pruned]
      generalize graft marked u s = result
      obtain ⟨_ | copy, s'⟩ := result
      · exact graftAll_prunedAll marked parent rest s'
      · exact graftAll_prunedAll marked parent rest _

end

end ArithTree.Unfolding

namespace ArithTree.Store

open Unfolding hiding id

/-! ## The copy of a node -/

section

variable {s : Store} {id : NodeId}

theorem deepCopy_of_dead (h : s.node? id = none) : s.deepCopy id = .empty := by
  rw [deepCopy, unfold_of_node?_none h]
  rfl

/-- **Copies are trees.** The copy of a live node of any store is a tree with the shape that the
node unfolds to. Its nodes have the first handles, in preorder, and there is nothing else. -/
theorem deepCopy_spec {t : Shape} (h : (s.unfold id).shape? = some t) :
    ∃ v, (s.deepCopy id).Presents v ∧ (∀ x, (s.deepCopy id).contains x = true → x ∈ v.ids) ∧
      v.shape? = some t ∧ Numbered .empty (s.deepCopy id) [v] ∧ (s.deepCopy id).ghost = none := by
  obtain ⟨v, hv, hshape, hgrows, hnumbered, -⟩ :=
    graft_spec none (s.unfold id).pruned .empty (whole_pruned _ h)
  have hghost := ghost_graft none (s.unfold id).pruned .empty fun _ _ e => (by cases e)
  rw [graft_pruned] at hv hgrows hnumbered hghost
  rw [shape?_pruned, h] at hshape
  rw [deepCopy]
  generalize graft none (s.unfold id) .empty = result at hv hgrows hnumbered hghost ⊢
  obtain ⟨top, copy⟩ := result
  simp only at hv hgrows hnumbered hghost ⊢
  subst hv
  obtain ⟨hcopy, hlive⟩ := hgrows.presents
  refine ⟨v, hcopy, hlive, hshape, ⟨hnumbered.1, ?_⟩, hghost⟩
  rw [← hnumbered.2]
  exact size_slots_update copy v.id _

end

end ArithTree.Store
