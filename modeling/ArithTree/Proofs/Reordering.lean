import ArithTree.Proofs.Forests
import ArithTree.Proofs.Normality
import ArithTree.Proofs.Placements

/-!
# Trees that differ by the order of children

Moving a node among its siblings changes one child list, and only its order. `Reorders` says that
two trees are equal up to handles and up to the order of every child list. This is symmetric and
transitive, and so is equality up to handles only (`Renaming.symm`). Such trees have the same number
of nodes and the same labels as often (`Reorders.labels`), and one is normal when the other is
(`Reorders.normal`).
-/

namespace ArithTree

namespace Shape

/-- No condition on the labels below a node depends on their order. -/
theorem Admits.perm {label : Label} {below below' : List Label} (h : Admits label below)
    (hperm : below'.Perm below) : Admits label below' := by
  match label with
  | .compound .add => exact ⟨hperm.length_eq ▸ h.1, fun l hl => h.2 l (hperm.subset hl)⟩
  | .compound .multiply => exact ⟨hperm.length_eq ▸ h.1, fun l hl => h.2 l (hperm.subset hl)⟩
  | .compound .group =>
    obtain ⟨l, rfl, hl⟩ := h
    exact ⟨l, List.perm_singleton.mp hperm, hl⟩
  | .literal _ =>
    obtain rfl : below = [] := h
    exact hperm.eq_nil

end Shape

namespace Store

/-- `f` pairs the live nodes of `s` with those of `t` and keeps labels, links up, the root, and
child lists up to their order. -/
structure Reorders (f : NodeId → NodeId) (s t : Store) : Prop where
  injective : ∀ x y, s.contains x = true → s.contains y = true → f x = f y → x = y
  onto : ∀ y, t.contains y = true → ∃ x, s.contains x = true ∧ f x = y
  node : ∀ x node, s.node? x = some node → ∃ children, children.Perm (node.children.map f) ∧
    t.node? (f x) = some ⟨node.label, node.parent.map f, children⟩
  root : t.root = s.root.map f

/-- The labels of the tree, each as often as it occurs. -/
def labels (s : Store) : List Label := s.preorder.filterMap s.label?

section

variable {f g : NodeId → NodeId} {s t u : Store} {root : NodeId}

/-! ## Chains of moves -/

theorem Reorders.refl (s : Store) : s.Reorders id s where
  injective _ _ _ _ h := h
  onto y hy := ⟨y, hy, rfl⟩
  node x node hn := ⟨node.children, by rw [List.map_id], by simpa using hn⟩
  root := by simp

theorem Reorders.contains (h : s.Reorders f t) {x : NodeId} (hx : s.contains x = true) :
    t.contains (f x) = true := by
  obtain ⟨n, hn⟩ := Option.isSome_iff_exists.mp hx
  obtain ⟨children, -, hread⟩ := h.node x n hn
  exact contains_of_node? hread

theorem Reorders.trans (h : s.Reorders f t) (h' : t.Reorders g u) : s.Reorders (g ∘ f) u where
  injective x y hx hy hxy := h.injective x y hx hy
    (h'.injective (f x) (f y) (h.contains hx) (h.contains hy) hxy)
  onto z hz := by
    obtain ⟨y, hy, rfl⟩ := h'.onto z hz
    obtain ⟨x, hx, rfl⟩ := h.onto y hy
    exact ⟨x, hx, rfl⟩
  node x n hn := by
    obtain ⟨middle, hmiddle, hread⟩ := h.node x n hn
    obtain ⟨children, hchildren, hread'⟩ := h'.node (f x) _ hread
    refine ⟨children, hchildren.trans ?_, ?_⟩
    · rw [← List.map_map]
      exact hmiddle.map g
    · rw [Function.comp_apply, hread', Option.map_map]
  root := by rw [h'.root, h.root, Option.map_map]

theorem Renaming.reorders (h : s.Renaming f t) : s.Reorders f t where
  injective := h.injective
  onto := h.onto
  node x n hn := ⟨n.children.map f, List.Perm.refl _, h.node x n hn⟩
  root := h.root

/-- What has been rearranged can be rearranged back, each node to where it was. -/
theorem Reorders.symm (hf : s.Reorders f t) (hs : s.WellFormed root) :
    ∃ g, t.Reorders g s ∧ ∀ x, s.contains x = true → g (f x) = x := by
  have back : ∀ y, ∃ x, t.contains y = true → s.contains x = true ∧ f x = y := by
    intro y
    by_cases hy : t.contains y = true
    · obtain ⟨x, hx⟩ := hf.onto y hy
      exact ⟨x, fun _ => hx⟩
    · exact ⟨0, fun h => absurd h hy⟩
  choose g hg using back
  have hgf : ∀ x, s.contains x = true → g (f x) = x := fun x hx =>
    hf.injective _ _ (hg _ (hf.contains hx)).1 hx (hg _ (hf.contains hx)).2
  refine ⟨g, ⟨fun x y hx hy hxy => ?_, fun x hx => ⟨f x, hf.contains hx, hgf x hx⟩, ?_, ?_⟩, hgf⟩
  · rw [← (hg x hx).2, ← (hg y hy).2, hxy]
  · intro y m hm
    obtain ⟨x, hx, rfl⟩ := hf.onto y (contains_of_node? hm)
    obtain ⟨n, hn⟩ := Option.isSome_iff_exists.mp hx
    obtain ⟨children, hperm, hread⟩ := hf.node x n hn
    obtain rfl := Option.some.inj (hread.symm.trans hm)
    have hbelow := hs.reached x hx
    have hparent : (n.parent.map f).map g = n.parent := by
      cases hp : n.parent with
      | none => rfl
      | some p =>
        have hup : s.parent? x = some p := by rw [parent?, hn, Option.bind_some, hp]
        have hlive := hs.contains (hs.mem_children_of_parent? hbelow hup).1
        rw [Option.map_some, Option.map_some, hgf p hlive]
    have hchildren : (n.children.map f).map g = n.children := by
      rw [List.map_map]
      refine (List.map_congr_left fun c hc => ?_).trans (List.map_id _)
      rw [← children_of_node? hn] at hc
      exact hgf c (contains_of_parent? (hs.listed x c hbelow hc))
    refine ⟨n.children, ?_, ?_⟩
    · exact hchildren ▸ (hperm.map g).symm
    · rw [hgf x hx, hparent, hn]
  · rw [hf.root, hs.marked, Option.map_some, Option.map_some, hgf root hs.live]

/-- Where all child lists are as wanted, the trees are equal up to handles. -/
theorem Reorders.renaming (h : s.Reorders f t)
    (hsame : ∀ x, s.contains x = true → t.children (f x) = (s.children x).map f) :
    s.Renaming f t where
  injective := h.injective
  onto := h.onto
  node x n hn := by
    obtain ⟨children, -, hread⟩ := h.node x n hn
    have heq := hsame x (contains_of_node? hn)
    rw [children_of_node? hread, children_of_node? hn] at heq
    obtain rfl : children = n.children.map f := heq
    exact hread
  root := h.root

theorem Renaming.trans (h : s.Renaming f t) (h' : t.Renaming g u) : s.Renaming (g ∘ f) u :=
  (h.reorders.trans h'.reorders).renaming fun x hx => by
    rw [Function.comp_apply, h'.children (h.reorders.contains hx), h.children hx, List.map_map]

/-- Equality up to handles is symmetric. -/
theorem Renaming.symm (h : s.Renaming f t) (hs : s.WellFormed root) :
    ∃ g, t.Renaming g s ∧ ∀ x, s.contains x = true → g (f x) = x := by
  obtain ⟨g, hg, hback⟩ := h.reorders.symm hs
  refine ⟨g, hg.renaming fun y hy => ?_, hback⟩
  obtain ⟨x, hx, rfl⟩ := h.onto y hy
  rw [hback x hx, h.children hx, List.map_map]
  refine ((List.map_congr_left fun c hc => ?_).trans (List.map_id _)).symm
  exact hback c (contains_of_parent? (hs.listed x c (hs.reached x hx) hc))

/-- A move within a child list keeps the nodes on it. -/
theorem perm_moved {l : List NodeId} {x : NodeId} {slot : Nat} (hnodup : l.Nodup) (hx : x ∈ l)
    (hslot : slot < l.length) : ((l.filter (· ≠ x)).insertIdx slot x).Perm l := by
  have hle : slot ≤ (l.erase x).length := by
    rw [List.length_erase_of_mem hx]
    omega
  rw [filter_ne_eq_erase hnodup]
  exact (List.perm_insertIdx x _ hle).trans (List.perm_cons_erase hx).symm

theorem reorders_relocated {parent : NodeId} {r : Relocation}
    (hnodup : (s.children parent).Nodup) (hlisted : r.node ∈ s.children parent)
    (hlt : r.slot < (s.children parent).length) : s.Reorders id (s.relocated parent r) where
  injective _ _ _ _ h := h
  onto y hy := ⟨y, (contains_relocated s parent r y).symm.trans hy, rfl⟩
  node x n hn := by
    have hread := Unfolding.node?_relocated s parent r x
    by_cases hx : x = parent
    · subst hx
      rw [children_of_node? hn] at hnodup hlisted hlt
      refine ⟨(n.children.filter (· ≠ r.node)).insertIdx r.slot r.node, ?_, ?_⟩
      · rw [List.map_id]
        exact perm_moved hnodup hlisted hlt
      · rw [id, hread, if_pos rfl, hn, Option.map_id]
        rfl
    · exact ⟨n.children, by rw [List.map_id], by rw [id, hread, if_neg hx, hn, Option.map_id]; rfl⟩
  root := by rw [Option.map_id]; rfl

/-- A placement differs from the tree it was made of by the order of one child list. -/
theorem Relocates.reorders {parent : NodeId} {r : Relocation} {p : Placement}
    (h : s.Relocates parent r p) (hnodup : (s.children parent).Nodup)
    (hlisted : r.node ∈ s.children parent) (hlt : r.slot < (s.children parent).length) :
    ∃ f, s.Reorders f p.tree := by
  obtain ⟨f, hf, -⟩ := h.moved
  exact ⟨_, (reorders_relocated hnodup hlisted hlt).trans hf.reorders⟩

/-! ## What a reordering keeps -/

theorem Reorders.label? (h : s.Reorders f t) {x : NodeId} (hx : s.contains x = true) :
    t.label? (f x) = s.label? x := by
  obtain ⟨n, hn⟩ := Option.isSome_iff_exists.mp hx
  obtain ⟨children, -, hread⟩ := h.node x n hn
  rw [label?_of_node? hread, label?_of_node? hn]

theorem Reorders.children (h : s.Reorders f t) {x : NodeId} (hx : s.contains x = true) :
    (t.children (f x)).Perm ((s.children x).map f) := by
  obtain ⟨n, hn⟩ := Option.isSome_iff_exists.mp hx
  obtain ⟨children, hperm, hread⟩ := h.node x n hn
  rw [children_of_node? hread, children_of_node? hn]
  exact hperm

/-- Going through reordered trees meets the same nodes. -/
theorem Reorders.preorder (h : s.Reorders f t) {root' : NodeId} (hs : s.WellFormed root)
    (ht : t.WellFormed root') : t.preorder.Perm (s.preorder.map f) := by
  have hnodup : (s.preorder.map f).Nodup := by
    refine List.Nodup.map_on (fun x hx y hy hxy => h.injective x y ?_ ?_ hxy) hs.nodup_preorder
    · exact hs.mem_preorder_iff.mp hx
    · exact hs.mem_preorder_iff.mp hy
  rw [List.perm_ext_iff_of_nodup ht.nodup_preorder hnodup]
  intro y
  rw [ht.mem_preorder_iff, List.mem_map]
  constructor
  · intro hy
    obtain ⟨x, hx, rfl⟩ := h.onto y hy
    exact ⟨x, hs.mem_preorder_iff.mpr hx, rfl⟩
  · rintro ⟨x, hx, rfl⟩
    exact h.contains (hs.mem_preorder_iff.mp hx)

theorem Reorders.size (h : s.Reorders f t) {root' : NodeId} (hs : s.WellFormed root)
    (ht : t.WellFormed root') : t.size = s.size := by
  rw [← ht.length_preorder, ← hs.length_preorder, (h.preorder hs ht).length_eq, List.length_map]

/-- Operators and literals occur as often as before. -/
theorem Reorders.labels (h : s.Reorders f t) {root' : NodeId} (hs : s.WellFormed root)
    (ht : t.WellFormed root') : t.labels.Perm s.labels := by
  have hsame : (s.preorder.map f).filterMap t.label? = s.labels := by
    rw [List.filterMap_map]
    exact List.filterMap_congr fun x hx => h.label? (hs.mem_preorder_iff.mp hx)
  rw [← hsame]
  exact (h.preorder hs ht).filterMap _

/-- A reordered normal tree is normal. -/
theorem Reorders.normal (h : s.Reorders f t) {root' : NodeId} (hs : s.WellFormed root)
    (hnormal : s.Normal root) (ht : t.Rooted root') : t.Normal root' where
  toRooted := ht
  admits y label hy hlabel := by
    obtain ⟨x, hx, rfl⟩ := h.onto y (ht.contains hy)
    have hbelow := hs.reached x hx
    have hsame : ((s.children x).map f).filterMap t.label? =
        (s.children x).filterMap s.label? := by
      rw [List.filterMap_map]
      refine List.filterMap_congr fun c hc => h.label? ?_
      exact contains_of_parent? (hs.listed x c hbelow hc)
    rw [h.label? hx] at hlabel
    refine (hnormal.admits x label hbelow hlabel).perm ?_
    rw [← hsame]
    exact (h.children hx).filterMap _

/-! ## The ghost -/

theorem WellFormed.clearGhost (h : s.WellFormed root) : s.clearGhost.WellFormed root :=
  ⟨⟨h.marked, h.live, h.top, h.listed, h.once⟩, h.reached⟩

theorem Reorders.clearGhost (h : s.Reorders f t) : s.Reorders f t.clearGhost :=
  ⟨h.injective, h.onto, h.node, h.root⟩

/-- Links are read the same with the ghost as without. -/
theorem climb_clearGhost (s : Store) (steps : Nat) : ∀ (id : NodeId) (path : List Nat),
    s.clearGhost.climb steps id path = s.climb steps id path := by
  induction steps with
  | zero => exact fun _ _ => rfl
  | succ steps ih =>
    intro id path
    have hparent : s.clearGhost.parent? id = s.parent? id := rfl
    have hposition : s.clearGhost.position? id = s.position? id := rfl
    have hroot : s.clearGhost.root = s.root := rfl
    simp only [climb, hparent, hposition, hroot, ih]

@[simp] theorem pathOf?_clearGhost (s : Store) (id : NodeId) :
    s.clearGhost.pathOf? id = s.pathOf? id := climb_clearGhost s _ id []

end

end Store

end ArithTree
