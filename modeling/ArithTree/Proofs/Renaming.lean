import ArithTree.Proofs.WellFormed

/-!
# Trees that are equal up to handles

Handles say where a node is kept, not what the tree is. Two stores hold one tree when their live
nodes can be paired such that labels and all links agree (`Renaming`). Well-formed trees of one
shape can always be paired (`renaming_of_shape?`).
-/

namespace ArithTree.Store

open Unfolding hiding id

/-- `f` pairs the live nodes of `s` with those of `t` and keeps labels, links up, child lists and
the root. -/
structure Renaming (f : NodeId → NodeId) (s t : Store) : Prop where
  injective : ∀ x y, s.contains x = true → s.contains y = true → f x = f y → x = y
  onto : ∀ y, t.contains y = true → ∃ x, s.contains x = true ∧ f x = y
  node : ∀ x node, s.node? x = some node →
    t.node? (f x) = some ⟨node.label, node.parent.map f, node.children.map f⟩
  root : t.root = s.root.map f

/-- The labels and the order of children below the root; nothing without a live root. -/
def shape? (s : Store) : Option Shape := s.root.bind fun root => (s.unfold root).shape?

theorem Presents.shape?_eq {s : Store} {u : Unfolding} (h : s.Presents u) :
    s.shape? = u.shape? := by
  rw [shape?, h.root, Option.bind_some, h.unfold_eq]

theorem Rooted.exists_shape? {s : Store} {root : NodeId} (h : s.Rooted root) :
    ∃ t, s.shape? = some t := by
  rw [h.presents.shape?_eq]
  exact h.presents.holds.whole.exists_shape?

section

variable {f : NodeId → NodeId} {s t : Store}

/-! ## Numbers of nodes -/

theorem toList_slots (s : Store) : s.slots.toList = (List.range s.slots.size).map s.node? := by
  refine List.ext_getElem (by simp) fun i h _ => ?_
  have hi : i < s.slots.size := by simpa using h
  simp [node?, hi]

/-- A tree without anything beside it has one live node for each occurrence. -/
theorem size_eq_length_ids {u : Unfolding} (hnodup : u.ids.Nodup)
    (hlive : ∀ x, s.contains x = true ↔ x ∈ u.ids) : s.size = u.ids.length := by
  have hcount : s.size = ((List.range s.slots.size).filter s.contains).length := by
    rw [size, ← Array.countP_toList, toList_slots, List.countP_map, List.countP_eq_length_filter]
    rfl
  have hperm : ((List.range s.slots.size).filter s.contains).Perm u.ids := by
    rw [List.perm_ext_iff_of_nodup (List.nodup_range.filter _) hnodup]
    intro x
    rw [List.mem_filter, List.mem_range, ← hlive]
    exact ⟨fun h => h.2, fun h => ⟨lt_size_of_contains h, h⟩⟩
  rw [hcount, hperm.length_eq]

/-- Well-formed trees of one shape have as many nodes as the shape. -/
theorem WellFormed.size_eq {root : NodeId} (h : s.WellFormed root) {d : Shape}
    (hd : s.shape? = some d) : s.size = d.size := by
  have hp := h.toRooted.presents
  rw [hp.shape?_eq] at hd
  rw [size_eq_length_ids hp.nodup fun x => (h.mem_ids_iff x).symm,
    length_ids_of_shape? _ hp.holds.whole hd]

/-! ## Pairing by shape -/

mutual

/-- Where an unfolding and the same with other handles are held, the nodes differ by their
handles. -/
theorem Holds.node?_rename : ∀ {up : Option NodeId} {u : Unfolding}, s.Holds up u →
    t.Holds (up.map f) (u.rename f) → ∀ x ∈ u.ids, ∀ n, s.node? x = some n →
      t.node? (f x) = some ⟨n.label, n.parent.map f, n.children.map f⟩
  | _, .dangling _, h, _, _, _, _, _ => h.elim
  | up, .node id label below, h, h', x, hx, n, hn => by
    rw [ids] at hx
    rcases List.mem_cons.mp hx with rfl | hx
    · obtain rfl := Option.some.inj (h.1.symm.trans hn)
      rw [h'.1, renameAll_eq_map, List.map_map, List.map_map]
      simp [Function.comp_def]
    · exact HoldsAll.node?_rename h.2 h'.2 x hx n hn

theorem HoldsAll.node?_rename : ∀ {up : Option NodeId} {us : List Unfolding}, s.HoldsAll up us →
    t.HoldsAll (up.map f) (renameAll f us) → ∀ x ∈ idsAll us, ∀ n, s.node? x = some n →
      t.node? (f x) = some ⟨n.label, n.parent.map f, n.children.map f⟩
  | _, [], _, _, _, hx, _, _ => by cases hx
  | _, _ :: _, h, h', x, hx, n, hn => by
    rcases List.mem_append.mp hx with hx | hx
    · exact Holds.node?_rename h.1 h'.1 x hx n hn
    · exact HoldsAll.node?_rename h.2 h'.2 x hx n hn

end

/-- Two trees of one shape are paired by any map that takes the one preorder to the other. -/
theorem renaming_of_ids {u v : Unfolding} (hu : s.Presents u) (hv : t.Presents v)
    (hlu : ∀ x, s.contains x = true → x ∈ u.ids) (hlv : ∀ x, t.contains x = true → x ∈ v.ids)
    (hshape : u.shape? = v.shape?) (hids : v.ids = u.ids.map f) : Renaming f s t := by
  have heq := eq_rename_of_shape? f u v hu.holds.whole hv.holds.whole hshape hids
  refine ⟨fun x y hx hy hxy => ?_, fun y hy => ?_, fun x node hn => ?_, ?_⟩
  · exact List.inj_on_of_nodup_map (hids ▸ hv.nodup) (hlu x hx) (hlu y hy) hxy
  · have hmem := hlv y hy
    rw [hids] at hmem
    obtain ⟨x, hx, rfl⟩ := List.mem_map.mp hmem
    exact ⟨x, hu.holds.contains hx, rfl⟩
  · refine hu.holds.node?_rename (heq ▸ hv.holds) x (hlu x ?_) node hn
    exact contains_of_node? hn
  · rw [hv.root, hu.root, heq, id_rename, Option.map_some]

/-- The map that takes the handles `xs` to the handles `ys` one by one. -/
def pairing (xs ys : List NodeId) (x : NodeId) : NodeId := ys.getD (xs.idxOf x) 0

theorem map_pairing {xs ys : List NodeId} (hnodup : xs.Nodup) (hlen : ys.length = xs.length) :
    xs.map (pairing xs ys) = ys := by
  refine List.ext_getElem (by simp [hlen]) fun i hi hi' => ?_
  rw [List.length_map] at hi
  simp [pairing, hnodup.idxOf_getElem i hi, hi']

/-- **Pairing lemma.** Well-formed trees with one shape are equal up to handles. -/
theorem renaming_of_shape? {root root' : NodeId} (hs : s.WellFormed root) (ht : t.WellFormed root')
    (hshape : s.shape? = t.shape?) : ∃ f, Renaming f s t := by
  obtain ⟨d, hd⟩ := hs.toRooted.exists_shape?
  have hps := hs.toRooted.presents
  have hpt := ht.toRooted.presents
  rw [hps.shape?_eq, hpt.shape?_eq] at hshape
  rw [hps.shape?_eq] at hd
  have hlen : (t.unfold root').ids.length = (s.unfold root).ids.length := by
    rw [length_ids_of_shape? _ hps.holds.whole hd,
      length_ids_of_shape? _ hpt.holds.whole (hshape ▸ hd)]
  exact ⟨_, renaming_of_ids hps hpt (fun x hx => (hs.mem_ids_iff x).mpr hx)
    (fun x hx => (ht.mem_ids_iff x).mpr hx) hshape (map_pairing hps.nodup hlen).symm⟩

/-! ## What a pairing keeps -/

theorem Renaming.children (h : Renaming f s t) {x : NodeId} (hx : s.contains x = true) :
    t.children (f x) = (s.children x).map f := by
  obtain ⟨n, hn⟩ := Option.isSome_iff_exists.mp hx
  rw [children_of_node? (h.node x n hn), children_of_node? hn]

mutual

/-- A tree is held in both stores, with other handles. -/
theorem Holds.rename (h : Renaming f s t) : ∀ {up : Option NodeId} {u : Unfolding}, s.Holds up u →
    t.Holds (up.map f) (u.rename f)
  | _, .dangling _, hu => hu.elim
  | _, .node id label below, hu => by
    refine ⟨?_, HoldsAll.rename h hu.2⟩
    rw [h.node id _ hu.1, renameAll_eq_map, List.map_map, List.map_map]
    simp [Function.comp_def]

theorem HoldsAll.rename (h : Renaming f s t) : ∀ {up : Option NodeId} {us : List Unfolding},
    s.HoldsAll up us → t.HoldsAll (up.map f) (renameAll f us)
  | _, [], _ => trivial
  | _, _ :: _, hu => ⟨Holds.rename h hu.1, HoldsAll.rename h hu.2⟩

end

/-- What is below paired nodes differs by the handles only. -/
theorem Renaming.unfold_eq (h : Renaming f s t) {up : Option NodeId} {u : Unfolding}
    (hu : s.Holds up u) (hnodup : u.ids.Nodup) : t.unfold (f u.id) = u.rename f := by
  rw [← id_rename f u]
  refine unfold_of_holds (hu.rename h) ?_
  rw [ids_rename]
  exact hnodup.map_on fun x hx y hy hxy => h.injective x y (hu.contains hx) (hu.contains hy) hxy

/-- Trees that are equal up to handles have one shape. -/
theorem Renaming.shape?_eq (h : Renaming f s t) {root : NodeId} (hs : s.Rooted root) :
    s.shape? = t.shape? := by
  have hp := hs.presents
  have hroot : t.root = some (f root) := by rw [h.root, hs.marked, Option.map_some]
  have hunfold := h.unfold_eq hp.holds hp.nodup
  rw [unfold_id] at hunfold
  rw [hp.shape?_eq, shape?, hroot, Option.bind_some, hunfold, shape?_rename]

/-- Paired nodes are on the same path. -/
theorem Renaming.nodeAt? (h : Renaming f s t) {root : NodeId} (hs : s.Rooted root) {p : List Nat} :
    ∀ {x : NodeId}, s.nodeAt? p = some x → t.nodeAt? p = some (f x) := by
  have hroot : t.root = some (f root) := by rw [h.root, hs.marked, Option.map_some]
  simp only [Store.nodeAt?, hs.marked, hroot]
  induction p using List.reverseRecOn with
  | nil =>
    intro x hx
    obtain rfl : root = x := Option.some.inj hx
    rfl
  | append_singleton p i ih =>
    intro x hx
    obtain ⟨y, hy, hi⟩ := descend_snoc_iff.mp hx
    refine descend_snoc_iff.mpr ⟨f y, ih hy, ?_⟩
    rw [h.children (hs.contains (below_iff_descend.mpr ⟨p, hy⟩)), List.getElem?_map, hi,
      Option.map_some]

end

end ArithTree.Store
