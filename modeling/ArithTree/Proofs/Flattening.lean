import ArithTree.Proofs.Merging
import ArithTree.Proofs.Traversals
import ArithTree.Proofs.WellFormed
import ArithTree.Store.Flatten

/-!
# Flattening merges

Flattening a tree leaves the merged tree in its place (`flatten_spec`): the nodes that stay keep
their handles and labels, those that were absorbed are removed, and nothing else changes. The
order of the splices is the postorder of the unfolding (`postorder_eq`), and each splice finds its
children merged.
-/

namespace ArithTree

open Unfolding hiding id children operator? size

namespace Store

/-! ## Removing an emptied child -/

/-- Nothing but the node itself is reached from a node without children. -/
theorem below_leaf_iff {s : Store} {id x : NodeId} (hc : s.children id = []) :
    s.Below id x ↔ x = id := by
  constructor
  · intro hb
    rcases Relation.ReflTransGen.cases_head hb with rfl | ⟨c, hcid, -⟩
    · rfl
    · rw [hc] at hcid
      cases hcid
  · rintro rfl
    exact Relation.ReflTransGen.refl

/-- Removing a node without children empties its slot and takes it off the list of its parent. -/
theorem node?_remove_leaf {s : Store} {id p : NodeId} (hc : s.children id = [])
    (hp : s.parent? id = some p) (x : NodeId) :
    (s.remove id).node? x =
      if x = id then none
      else if x = p then
        (s.node? p).map fun node => { node with children := node.children.filter (· ≠ id) }
      else s.node? x := by
  by_cases hx : x = id
  · rw [if_pos hx]
    exact node?_remove_of_below ((below_leaf_iff hc).mpr hx)
  · rw [if_neg hx, node?_remove_of_not_below fun hb => hx ((below_leaf_iff hc).mp hb), node?_unlist,
      hp]
    by_cases hxp : x = p
    · rw [if_pos (congrArg some hxp.symm), if_pos hxp, hxp]
    · rw [if_neg fun he => hxp (Option.some.inj he).symm, if_neg hxp]

/-! ## One splice -/

/-- The handles of the children that a compound with operator `op` absorbs. -/
def absorbedIds (op : Operator) (us : List Unfolding) : List NodeId :=
  (us.filter fun u => u.operator? = some op).map Unfolding.id

/-- The nodes in `gone` have been removed, and the child list of `p` may be another. -/
structure Absorbs (s t : Store) (p : NodeId) (gone : List NodeId) : Prop where
  shrinks : Shrinks s t
  removed : ∀ x ∈ gone, t.node? x = none
  kept : ∀ x, x ∉ gone → x ≠ p → t.node? x = s.node? x
  parent : ∃ f : List NodeId → List NodeId, t.node? p =
    (s.node? p).map fun node => { node with children := f node.children }

theorem Holds.operator?_top {s : Store} {up : Option NodeId} {u : Unfolding} (h : s.Holds up u) :
    s.operator? u.id = u.operator? := by
  cases u with
  | dangling id => exact h.elim
  | node id label below =>
    rw [Store.operator?, Unfolding.id, label?_of_node? h.1]
    rfl

theorem Holds.children_top {s : Store} {up : Option NodeId} {u : Unfolding} (h : s.Holds up u) :
    s.children u.id = u.children.map Unfolding.id := by
  cases u with
  | dangling id => exact h.elim
  | node id label below => exact children_of_node? h.1

/-- Emptying a child and removing it. -/
theorem absorbs_child {s : Store} {p : NodeId} {u : Unfolding} (h : s.Holds (some p) u)
    (hne : p ≠ u.id) : Absorbs s ((s.takeChildren u.id).2.remove u.id) p [u.id] := by
  have hread : ∀ x, (s.takeChildren u.id).2.node? x =
      if x = u.id then (s.node? u.id).map fun node => { node with children := [] } else s.node? x :=
    fun x => node?_update s u.id x _
  obtain ⟨label, cs, hn⟩ := h.top
  have hc : (s.takeChildren u.id).2.children u.id = [] :=
    children_of_node? (by rw [hread, if_pos rfl, hn]; rfl)
  have hp : (s.takeChildren u.id).2.parent? u.id = some p := by
    rw [parent?, hread, if_pos rfl, hn]
    rfl
  have hremove := node?_remove_leaf hc hp
  refine ⟨(shrinks_update s u.id _).trans (shrinks_remove _ _), ?_, ?_, ?_⟩
  · intro x hx
    rw [hremove, if_pos (List.mem_singleton.mp hx)]
  · intro x hx hxp
    have hxu : x ≠ u.id := fun e => hx (List.mem_singleton.mpr e)
    rw [hremove, if_neg hxu, if_neg hxp, hread, if_neg hxu]
  · exact ⟨_, by rw [hremove, if_neg hne, if_pos rfl, hread, if_neg hne]⟩

theorem Absorbs.trans {r s t : Store} {p : NodeId} {gone gone' : List NodeId}
    (h : Absorbs r s p gone) (h' : Absorbs s t p gone') (hp : p ∉ gone) :
    Absorbs r t p (gone ++ gone') where
  shrinks := h.shrinks.trans h'.shrinks
  removed x hx := by
    by_cases hx' : x ∈ gone'
    · exact h'.removed x hx'
    · have hgone := (List.mem_append.mp hx).resolve_right hx'
      rw [h'.kept x hx' fun e => hp (e ▸ hgone), h.removed x hgone]
  kept x hx hxp := by
    rw [List.mem_append, not_or] at hx
    rw [h'.kept x hx.2 hxp, h.kept x hx.1 hxp]
  parent := by
    obtain ⟨f, hf⟩ := h.parent
    obtain ⟨g, hg⟩ := h'.parent
    exact ⟨fun cs => g (f cs), by rw [hg, hf, Option.map_map]; rfl⟩

theorem absorb_spec (op : Operator) (p : NodeId) (us : List Unfolding) : ∀ s : Store,
    s.HoldsAll (some p) us → (idsAll us).Nodup → p ∉ idsAll us →
      (absorb op (us.map Unfolding.id) s).1 = (us.flatMap (absorbed (some op))).map Unfolding.id ∧
        Absorbs s (absorb op (us.map Unfolding.id) s).2 p (absorbedIds op us) := by
  induction us with
  | nil =>
    intro s _ _ _
    refine ⟨rfl, .refl s, ?_, fun _ _ _ => rfl, ⟨fun cs => cs, by simp [absorb]⟩⟩
    intro x hx
    cases hx
  | cons u rest ih =>
    intro s h hnodup hp
    obtain ⟨hu, hrest⟩ := h
    rw [idsAll, List.nodup_append] at hnodup
    rw [idsAll, List.mem_append, not_or] at hp
    have hpu : p ≠ u.id := fun e => hp.1 (e ▸ u.id_mem_ids)
    rw [List.map_cons, absorb, hu.operator?_top, List.flatMap_cons, List.map_append, absorbedIds]
    split
    · next hop =>
      have hchild := absorbs_child hu hpu
      have hheld : ((s.takeChildren u.id).2.remove u.id).HoldsAll (some p) rest := by
        refine hrest.congr fun x hx => hchild.kept x ?_ ?_
        · rw [List.mem_singleton]
          rintro rfl
          exact hnodup.2.2 u.id u.id_mem_ids u.id hx rfl
        · rintro rfl
          exact hp.2 hx
      obtain ⟨hlist, habs⟩ := ih _ hheld hnodup.2.1 hp.2
      rw [absorbed_of_eq hop, List.filter_cons_of_pos (by simpa using hop)]
      refine ⟨?_, hchild.trans habs fun e => hpu (List.mem_singleton.mp e)⟩
      rw [← hu.children_top, ← hlist]
      rfl
    · next hop =>
      obtain ⟨hlist, habs⟩ := ih s hrest hnodup.2.1 hp.2
      rw [absorbed_of_ne hop, List.filter_cons_of_neg (by simpa using hop)]
      refine ⟨?_, habs⟩
      rw [← hlist]
      rfl

theorem shrinks_setParent (s : Store) (id : NodeId) (up : Option NodeId) :
    Shrinks s (s.setParent id up) :=
  shrinks_update s id _

/-- Every node on the list gets the link up, and nothing else changes. -/
theorem setParents_spec (p : NodeId) (cs : List NodeId) : ∀ s : Store,
    Shrinks s (cs.foldl (fun s c => s.setParent c (some p)) s) ∧
      ∀ x, (cs.foldl (fun s c => s.setParent c (some p)) s).node? x =
        if x ∈ cs then (s.node? x).map fun node => { node with parent := some p }
        else s.node? x := by
  induction cs with
  | nil => exact fun s => ⟨.refl s, fun x => by simp⟩
  | cons c cs ih =>
    intro s
    obtain ⟨hshrinks, hread⟩ := ih (s.setParent c (some p))
    refine ⟨(shrinks_setParent s c _).trans hshrinks, fun x => ?_⟩
    rw [List.foldl_cons, hread, node?_setParent]
    by_cases hx : x = c
    · subst hx
      rw [if_pos rfl, if_pos (List.mem_cons_self ..), Option.map_map]
      split <;> rfl
    · rw [if_neg hx]
      simp only [List.mem_cons, hx, false_or]

theorem replaceChildren_spec {s : Store} {p : NodeId} {cs : List NodeId} (hp : p ∉ cs) :
    Shrinks s (s.replaceChildren p cs) ∧ ∀ x, (s.replaceChildren p cs).node? x =
      if x = p then (s.node? p).map fun node => { node with children := cs }
      else if x ∈ cs then (s.node? x).map fun node => { node with parent := some p }
      else s.node? x := by
  obtain ⟨hshrinks, hread⟩ := setParents_spec p cs s
  refine ⟨hshrinks.trans (shrinks_update _ p _), fun x => ?_⟩
  rw [replaceChildren, node?_update, hread, hread, if_neg hp]

/-- In the place of the handles `old` there are only `new` ones left, and all other nodes are as
they were. -/
structure Rewrites (s t : Store) (old new : List NodeId) : Prop where
  shrinks : Shrinks s t
  removed : ∀ x ∈ old, x ∉ new → t.node? x = none
  outside : ∀ x, x ∉ old → t.node? x = s.node? x

theorem Rewrites.refl (s : Store) (ids : List NodeId) : Rewrites s s ids ids :=
  ⟨.refl s, fun _ hx hn => absurd hx hn, fun _ _ => rfl⟩

theorem Rewrites.trans {r s t : Store} {old mid new : List NodeId} (h : Rewrites r s old mid)
    (h' : Rewrites s t mid new) (hsub : mid ⊆ old) : Rewrites r t old new where
  shrinks := h.shrinks.trans h'.shrinks
  removed x hx hn := by
    by_cases hm : x ∈ mid
    · exact h'.removed x hm hn
    · rw [h'.outside x hm, h.removed x hx hm]
  outside x hx := by rw [h'.outside x fun hm => hx (hsub hm), h.outside x hx]

theorem Rewrites.append {r s t : Store} {old new old' new' : List NodeId} (h : Rewrites r s old new)
    (h' : Rewrites s t old' new') : Rewrites r t (old ++ old') (new ++ new') where
  shrinks := h.shrinks.trans h'.shrinks
  removed x hx hn := by
    rw [List.mem_append, not_or] at hn
    by_cases ho : x ∈ old'
    · exact h'.removed x ho hn.2
    · rw [h'.outside x ho, h.removed x ((List.mem_append.mp hx).resolve_right ho) hn.1]
  outside x hx := by
    rw [List.mem_append, not_or] at hx
    rw [h'.outside x hx.2, h.outside x hx.1]

/-- A handle is either absorbed or found below what is left. -/
theorem mem_absorbedIds_or (op : Operator) {us : List Unfolding} {x : NodeId} (hx : x ∈ idsAll us) :
    x ∈ absorbedIds op us ∨ x ∈ idsAll (us.flatMap (absorbed (some op))) := by
  obtain ⟨u, hu, hxu⟩ := mem_idsAll.mp hx
  have left : ∀ v ∈ absorbed (some op) u, x ∈ v.ids →
      x ∈ idsAll (us.flatMap (absorbed (some op))) := fun v hv hxv =>
    mem_idsAll.mpr ⟨v, List.mem_flatMap.mpr ⟨u, hu, hv⟩, hxv⟩
  by_cases hop : u.operator? = some op
  · cases u with
    | dangling id => cases hop
    | node id label below =>
      rcases List.mem_cons.mp hxu with rfl | hxu
      · refine Or.inl (List.mem_map.mpr ⟨_, List.mem_filter.mpr ⟨hu, ?_⟩, rfl⟩)
        simpa using hop
      · obtain ⟨v, hv, hxv⟩ := mem_idsAll.mp hxu
        exact Or.inr (left v (by rwa [absorbed_of_eq hop]) hxv)
  · exact Or.inr (left u (by simp [absorbed_of_ne hop]) hxu)

theorem not_mem_absorbedIds {op : Operator} {us : List Unfolding} (hnodup : (idsAll us).Nodup)
    {x : NodeId} (hx : x ∈ idsAll (us.flatMap (absorbed (some op)))) : x ∉ absorbedIds op us := by
  intro hgone
  obtain ⟨u, hu, rfl⟩ := List.mem_map.mp hgone
  obtain ⟨hu, hop⟩ := List.mem_filter.mp hu
  have hop : u.operator? = some op := of_decide_eq_true hop
  obtain ⟨v, hv, hxv⟩ := mem_idsAll.mp hx
  obtain ⟨w, hw, hvw⟩ := List.mem_flatMap.mp hv
  have hxw : u.id ∈ w.ids :=
    (ids_absorbed_sublist (some op) w).subset (mem_idsAll.mpr ⟨v, hvw, hxv⟩)
  obtain rfl := eq_of_mem_ids hnodup hu hw u.id_mem_ids hxw
  rw [absorbed_of_eq hop] at hvw
  have hu' := hnodup.sublist (ids_sublist_idsAll hu)
  cases u with
  | dangling id => cases hop
  | node id label below =>
    exact (List.nodup_cons.mp hu').1 (mem_idsAll.mpr ⟨v, hvw, hxv⟩)

/-- **Splice lemma.** A splice lets the node take in what its children with the same operator
hold, and removes these children. -/
theorem splice_spec {s : Store} {up : Option NodeId} {id : NodeId} {label : Label}
    {us : List Unfolding} (h : s.Holds up (.node id label us))
    (hnodup : (ids (.node id label us)).Nodup) :
    (s.splice id).Holds up (.node id label (us.flatMap (absorbed label.operator?))) ∧
      Rewrites s (s.splice id) (id :: idsAll us)
        (id :: idsAll (us.flatMap (absorbed label.operator?))) := by
  obtain ⟨hn, hus⟩ := h
  rw [ids, List.nodup_cons] at hnodup
  have hop : s.operator? id = label.operator? := by
    rw [Store.operator?, label?_of_node? hn]
    rfl
  rw [splice, hop, children_of_node? hn]
  cases ho : label.operator? with
  | none =>
    rw [flatMap_absorbed_none]
    exact ⟨⟨hn, hus⟩, .refl s _⟩
  | some op =>
    obtain ⟨hlist, habs⟩ := absorb_spec op id us s hus hnodup.2 hnodup.1
    generalize ht : (absorb op (us.map Unfolding.id) s).2 = t at habs
    simp only [hlist, ht]
    have hsub := ids_flatMap_absorbed_sublist (some op) us
    have hnew := hnodup.2.sublist hsub
    have hkeep : ∀ x ∈ idsAll (us.flatMap (absorbed (some op))),
        x ≠ id ∧ t.node? x = s.node? x := by
      intro x hx
      have hne : x ≠ id := by
        rintro rfl
        exact hnodup.1 (hsub.subset hx)
      exact ⟨hne, habs.kept x (not_mem_absorbedIds hnodup.2 hx) hne⟩
    have hid : id ∉ (us.flatMap (absorbed (some op))).map Unfolding.id := fun hm =>
      (hkeep id ((map_id_sublist _).subset hm)).1 rfl
    obtain ⟨hshrinks, hread⟩ := replaceChildren_spec (s := t) hid
    refine ⟨⟨?_, ?_⟩, habs.shrinks.trans hshrinks, fun x hx hkept => ?_, fun x hx => ?_⟩
    · obtain ⟨f, hf⟩ := habs.parent
      rw [hread, if_pos rfl, hf, hn]
      rfl
    · -- what is left keeps its place or moves up by one level, and only its top is written
      rw [holdsAll_iff] at hus ⊢
      intro v hv
      obtain ⟨u, hu, hvu⟩ := List.mem_flatMap.mp hv
      obtain ⟨up', hheld⟩ : ∃ up', s.Holds up' v := by
        have := hus u hu
        unfold absorbed at hvu
        split at hvu
        · cases u with
          | dangling i => exact this.elim
          | node i l below => exact ⟨_, (holdsAll_iff s _ below).mp this.2 v hvu⟩
        · exact ⟨_, List.mem_singleton.mp hvu ▸ this⟩
      have hmem : ∀ x ∈ v.ids, x ∈ idsAll (us.flatMap (absorbed (some op))) := fun x hx =>
        mem_idsAll.mpr ⟨v, hv, hx⟩
      refine hheld.reparent (hnew.sublist (ids_sublist_idsAll hv)) ?_ fun x hx hne => ?_
      · obtain ⟨hne, hsame⟩ := hkeep v.id (hmem _ v.id_mem_ids)
        rw [hread, if_neg hne, if_pos (List.mem_map_of_mem hv), hsame]
      · obtain ⟨hni, hsame⟩ := hkeep x (hmem x hx)
        rw [hread, if_neg hni, if_neg, hsame]
        intro hm
        obtain ⟨w, hw, rfl⟩ := List.mem_map.mp hm
        exact hne (eq_of_mem_ids hnew hw hv w.id_mem_ids hx ▸ rfl)
    · rw [List.mem_cons, not_or] at hkept
      have hold := (List.mem_cons.mp hx).resolve_left hkept.1
      have hgone := (mem_absorbedIds_or op hold).resolve_right hkept.2
      rw [hread, if_neg hkept.1, if_neg, habs.removed x hgone]
      exact fun hm => hkept.2 ((map_id_sublist _).subset hm)
    · rw [List.mem_cons, not_or] at hx
      have hgone : x ∉ absorbedIds op us := fun hm => by
        obtain ⟨u, hu, rfl⟩ := List.mem_map.mp hm
        exact hx.2 (id_mem_idsAll (List.mem_filter.mp hu).1)
      rw [hread, if_neg hx.1, if_neg, habs.kept x hgone hx.1]
      exact fun hm => hx.2 (hsub.subset ((map_id_sublist _).subset hm))

/-! ## The whole tree -/

mutual

/-- Splicing all nodes of a tree, children before parents, merges it. -/
theorem fold_splice_spec : ∀ (u : Unfolding) {s : Store} {up : Option NodeId},
    s.Holds up u → u.ids.Nodup →
    (u.postorder.foldl splice s).Holds up u.merged ∧
      Rewrites s (u.postorder.foldl splice s) u.ids u.merged.ids
  | .dangling _, _, _, h, _ => h.elim
  | .node id label below, s, up, h, hnodup => by
    obtain ⟨hn, hbelow⟩ := h
    rw [ids, List.nodup_cons] at hnodup
    obtain ⟨hmerged, hrewrites⟩ := fold_splice_spec_all below hbelow hnodup.2
    have hsub := ids_mergedAll_sublist below
    have htop : ((postorderAll below).foldl splice s).Holds up
        (.node id label (mergedAll below)) := by
      refine ⟨?_, hmerged⟩
      rw [hrewrites.outside id hnodup.1, hn, map_id_mergedAll]
    have hnodup' : (ids (.node id label (mergedAll below))).Nodup :=
      List.nodup_cons.mpr ⟨fun hm => hnodup.1 (hsub.subset hm), hnodup.2.sublist hsub⟩
    obtain ⟨hspliced, hrewrites'⟩ := splice_spec htop hnodup'
    rw [Unfolding.postorder, List.foldl_append, List.foldl_cons, List.foldl_nil]
    refine ⟨hspliced, ?_⟩
    exact ((Rewrites.refl s [id]).append hrewrites).trans hrewrites' (hsub.cons_cons id).subset

theorem fold_splice_spec_all : ∀ (us : List Unfolding) {s : Store} {up : Option NodeId},
    s.HoldsAll up us → (idsAll us).Nodup →
    ((postorderAll us).foldl splice s).HoldsAll up (mergedAll us) ∧
      Rewrites s ((postorderAll us).foldl splice s) (idsAll us) (idsAll (mergedAll us))
  | [], s, _, _, _ => ⟨trivial, .refl s _⟩
  | u :: rest, s, up, h, hnodup => by
    rw [idsAll, List.nodup_append] at hnodup
    obtain ⟨hu, hrewrites⟩ := fold_splice_spec u h.1 hnodup.1
    have apart : ∀ x ∈ u.ids, x ∉ idsAll rest := fun x hx hr => hnodup.2.2 x hx x hr rfl
    have hrest : (u.postorder.foldl splice s).HoldsAll up rest :=
      h.2.congr fun x hx => hrewrites.outside x fun hm => apart x hm hx
    obtain ⟨hrest', hrewrites'⟩ := fold_splice_spec_all rest hrest hnodup.2.1
    rw [postorderAll, List.foldl_append]
    refine ⟨⟨hu.congr fun x hx => hrewrites'.outside x ?_, hrest'⟩, hrewrites.append hrewrites'⟩
    exact apart x ((ids_merged_sublist u).subset hx)

end

/-- **Flattening lemma.** Flattening leaves the merged tree in the place of the tree, without a
trace of what was absorbed. -/
theorem flatten_spec {s : Store} {up : Option NodeId} {u : Unfolding} (h : s.Holds up u)
    (hnodup : u.ids.Nodup) (hroot : s.root = some u.id) :
    s.flatten.Holds up u.merged ∧ Rewrites s s.flatten u.ids u.merged.ids := by
  rw [flatten, postorder_eq h hnodup hroot]
  exact fold_splice_spec u h hnodup

/-- The root stays the root. -/
theorem Presents.flatten {s : Store} {u : Unfolding} (h : s.Presents u) :
    s.flatten.Presents u.merged ∧ Rewrites s s.flatten u.ids u.merged.ids := by
  obtain ⟨hheld, hrewrites⟩ := flatten_spec h.holds h.nodup h.root
  refine ⟨⟨?_, hheld, h.nodup.sublist (ids_merged_sublist u)⟩, hrewrites⟩
  rw [hrewrites.shrinks.root.set u.id h.root (h.holds.contains u.id_mem_ids), if_pos, id_merged]
  rw [← id_merged]
  exact hheld.contains u.merged.id_mem_ids

end Store

end ArithTree
