import ArithTree.Proofs.Composition
import ArithTree.Proofs.Moves

/-!
# Moves in different lists commute

Moving a node changes one child list. Two moves that change different lists can be made in either
order (`moves_commute`), also when one of the nodes is above the other. The second move then starts
from the copy of its node, which need not be where the node was: a path that goes through the list
of the first move changes by one position (`NodePath.carried`, `Rooted.descend_carried`).
-/

namespace ArithTree

namespace NodePath

/-- Where the child at `c` stands once the child at `a` has been taken out and put back at `b`. -/
def shifted (a b c : Nat) : Nat :=
  if c = a then b
  else if a < c ∧ c ≤ b then c - 1
  else if b ≤ c ∧ c < a then c + 1
  else c

/-- The path of a node once the child at `a` of the node at the end of `way` has been put at `b`. A
path that does not go on behind `way` stays as it is. -/
def carried (a b : Nat) : List Nat → List Nat → List Nat
  | [], c :: path => shifted a b c :: path
  | k :: way, c :: path => if c = k then c :: carried a b way path else c :: path
  | _, [] => []

/-- After the move a node is on the shifted position. -/
theorem getElem?_shifted {l : List NodeId} (hnodup : l.Nodup) {a b c : Nat} {x : NodeId}
    (ha : l[a]? = some x) (hb : b < l.length) (hc : c < l.length) :
    ((l.filter (· ≠ x)).insertIdx b x)[shifted a b c]? = l[c]? := by
  obtain ⟨hlt, rfl⟩ := List.getElem?_eq_some_iff.mp ha
  have hlen := List.length_eraseIdx_of_lt hlt
  rw [filter_ne_eq_erase hnodup, hnodup.erase_getElem, List.getElem?_insertIdx, shifted]
  by_cases hca : c = a
  · subst hca
    rw [if_pos rfl, if_neg (Nat.lt_irrefl b), if_pos rfl, if_pos (by omega),
      List.getElem?_eq_getElem hlt]
  · rw [if_neg hca]
    split
    · rw [if_pos (by omega), List.getElem?_eraseIdx, if_neg (by omega)]
      congr 1
      omega
    · split
      · rw [if_neg (by omega), if_neg (by omega), List.getElem?_eraseIdx, if_pos (by omega)]
        rfl
      · rcases Nat.lt_or_gt_of_ne hca with hlow | hhigh
        · rw [if_pos (by omega), List.getElem?_eraseIdx, if_pos hlow]
        · rw [if_neg (by omega), if_neg (by omega), List.getElem?_eraseIdx, if_neg (by omega)]
          congr 1
          omega

end NodePath

namespace Store

open NodePath

section

variable {f : NodeId → NodeId} {s t : Store} {root parent parent' : NodeId} {r r' : Relocation}

/-! ## Paths after a move -/

/-- Below nodes that are not above the changed list, nothing changes. -/
theorem descend_relocated_of_not_below {y : NodeId} (h : ¬ s.Below y parent) (path : List Nat) :
    (s.relocated parent r).descend y path = s.descend y path := by
  induction path generalizing y with
  | nil => rfl
  | cons i path ih =>
    have hy : y ≠ parent := by
      rintro rfl
      exact h .refl
    simp only [descend, children_relocated_of_ne s r hy]
    cases hi : (s.children y)[i]? with
    | none => rfl
    | some c => exact ih fun hc => h (hc.head (List.mem_of_getElem? hi))

/-- **Paths after a move.** A node that is reached before the move is reached after it, on the path
with the position on the changed list adjusted. -/
theorem Rooted.descend_carried (h : s.Rooted root) {a : Nat}
    (ha : (s.children parent)[a]? = some r.node) (hb : r.slot < (s.children parent).length)
    {way : List Nat} : ∀ {top x : NodeId} {path : List Nat}, s.Below root top →
      s.descend top way = some parent → s.descend top path = some x →
        (s.relocated parent r).descend top (carried a r.slot way path) = some x := by
  induction way with
  | nil =>
    intro top x path htop hway hpath
    obtain rfl : top = parent := Option.some.inj hway
    cases path with
    | nil => exact hpath
    | cons c path =>
      obtain ⟨y, hy, hx⟩ := descend_cons_iff.mp hpath
      obtain ⟨hc, -⟩ := List.getElem?_eq_some_iff.mp hy
      refine descend_cons_iff.mpr ⟨y, ?_, ?_⟩
      · rw [children_relocated_self s r (h.contains htop),
          getElem?_shifted (h.once top htop) ha hb hc,
          hy]
      · rw [descend_relocated_of_not_below (h.acyclic htop (List.mem_of_getElem? hy)), hx]
  | cons k way ih =>
    intro top x path htop hway hpath
    obtain ⟨z, hz, hway⟩ := descend_cons_iff.mp hway
    have hdown := below_iff_descend.mpr ⟨way, hway⟩
    have hne : top ≠ parent := by
      rintro rfl
      exact h.acyclic htop (List.mem_of_getElem? hz) hdown
    cases path with
    | nil => exact hpath
    | cons c path =>
      obtain ⟨y, hy, hx⟩ := descend_cons_iff.mp hpath
      have hsame : ((s.relocated parent r).children top)[c]? = some y := by
        rw [children_relocated_of_ne s r hne, hy]
      rw [carried]
      split
      · next hck =>
        rw [hck] at hy
        obtain rfl : z = y := Option.some.inj (hz.symm.trans hy)
        exact descend_cons_iff.mpr
          ⟨z, hsame, ih (htop.tail (List.mem_of_getElem? hz)) hway hx⟩
      · next hck =>
        -- the way to the changed list goes through another child
        have hapart : ¬ s.Below y parent := by
          intro hy'
          obtain ⟨up, hup⟩ := below_iff_descend.mp htop
          obtain ⟨way', hway'⟩ := below_iff_descend.mp hy'
          have hthrough : ∀ {i : Nat} {c' : NodeId} {q : List Nat}, (s.children top)[i]? = some c' →
              s.descend c' q = some parent → s.descend root (up ++ i :: q) = some parent :=
            fun hi hq => descend_append_iff.mpr ⟨top, hup, descend_cons_iff.mpr ⟨_, hi, hq⟩⟩
          have heq := List.append_cancel_left
            (h.path_unique (hthrough hz hway) (hthrough hy hway'))
          exact hck (List.cons.inj heq).1.symm
        refine descend_cons_iff.mpr ⟨y, hsame, ?_⟩
        rw [descend_relocated_of_not_below hapart, hx]

/-! ## Two moves in one store -/

theorem parent?_relocated (s : Store) (parent : NodeId) (r : Relocation) (x : NodeId) :
    (s.relocated parent r).parent? x = s.parent? x := by
  rw [parent?, parent?, Unfolding.node?_relocated]
  split
  · next hx =>
    subst hx
    cases s.node? x <;> rfl
  · rfl

/-- A tree with a node moved is a tree. -/
theorem WellFormed.relocated (h : s.WellFormed root) (hparent : s.parent? r.node = some parent)
    (hlt : r.slot < (s.children parent).length) : (s.relocated parent r).WellFormed root := by
  have hbelow := h.reached r.node (contains_of_parent? hparent)
  obtain ⟨-, hlisted⟩ := h.mem_children_of_parent? hbelow hparent
  obtain ⟨u, -, hmoved, hlive, rfl⟩ := rearrange_presents h hparent hlisted hlt
  exact hmoved.wellFormed fun x => (hlive x).mp

/-- Two lists can be changed in either order. -/
theorem node?_relocated_comm (s : Store) (hne : parent ≠ parent') (r r' : Relocation) (x : NodeId) :
    ((s.relocated parent r).relocated parent' r').node? x =
      ((s.relocated parent' r').relocated parent r).node? x := by
  simp only [Unfolding.node?_relocated]
  by_cases hx : x = parent
  · subst hx
    simp [hne]
  · simp [hx, hne.symm]

/-! ## Copies -/

/-- Moving `node` to `slot` gives `p`, whether the node is given by its handle or by a written path.
The tree of `p` is that of `s` with one child list changed, `copy` takes every node to its copy, and
the path of a copy is that of the node, adjusted. -/
structure Moved (s : Store) (node : NodeId) (slot : Nat) (copy : NodeId → NodeId)
    (p : Placement) : Prop where
  placed : ∃ root, s.root = some root ∧ s.place root ⟨node, slot⟩ = .ok p
  named : ∀ text, s.resolve text = .ok node → s.relocate text slot = .ok p
  changed : ∃ parent, s.parent? node = some parent ∧
    (s.relocated parent ⟨node, slot⟩).Renaming copy p.tree
  ghost : p.tree.ghost = some p.ghost ∧ p.ghost = copy node
  path : ∃ way position, s.pathOf? node = some (way ++ [position]) ∧ ∀ x path,
    s.pathOf? x = some path → p.tree.pathOf? (copy x) = some (carried position slot way path)

/-- **Moving lemma.** A node with a parent can be moved to every slot of its list. -/
theorem WellFormed.exists_moved (h : s.WellFormed root) {node : NodeId} {slot : Nat}
    (hparent : s.parent? node = some parent) (hlt : slot < (s.children parent).length) :
    ∃ copy p, s.Moved node slot copy p ∧ ∃ root', p.tree.WellFormed root' := by
  obtain ⟨p, hplace, hp⟩ := place_of_lt (r := ⟨node, slot⟩) h hparent hlt
  obtain ⟨copy, hcopy, hghost⟩ := hp.moved
  obtain ⟨root', hwf⟩ := hp.wellFormed
  have hmoved := (h.relocated (r := ⟨node, slot⟩) hparent hlt).toRooted
  have hbelow := h.reached node (contains_of_parent? hparent)
  obtain ⟨way, position, hway, hposition⟩ := h.exists_position hbelow hparent
  refine ⟨copy, p, ⟨⟨root, h.marked, hplace⟩, fun text htext => ?_, ⟨parent, hparent, hcopy⟩,
    ⟨hp.ghost, hghost⟩, way, position, ?_, fun x path hx => ?_⟩, root', hwf⟩
  · refine relocate_of_place ?_ h.marked hplace
    have hne : s.root ≠ some node := by
      rw [h.marked, Ne, Option.some.injEq]
      exact (h.ne_root hparent).symm
    simp only [resolveMovable, htext, if_neg hne]
  · rw [h.pathOf?_eq_some_iff, h.nodeAt?_eq]
    exact descend_snoc_iff.mpr ⟨parent, hway, hposition⟩
  · rw [h.pathOf?_eq_some_iff, h.nodeAt?_eq] at hx
    have hcarried := h.descend_carried (r := ⟨node, slot⟩) hposition hlt .refl hway hx
    rw [hwf.toRooted.pathOf?_eq_some_iff]
    exact hcopy.nodeAt? hmoved (by rwa [hmoved.nodeAt?_eq])

/-- A second move, in another list, starts from the copy of its node and gives the tree with both
lists changed. -/
theorem Moved.exists_next (h : s.WellFormed root) {node node' : NodeId} {slot slot' : Nat}
    {copy : NodeId → NodeId} {p : Placement} (hp : s.Moved node slot copy p)
    (hwf : ∃ root', p.tree.WellFormed root') (hparent : s.parent? node = some parent)
    (hparent' : s.parent? node' = some parent') (hne : parent ≠ parent')
    (hslot : slot < (s.children parent).length) (hslot' : slot' < (s.children parent').length) :
    ∃ copy' p', p.tree.Moved (copy node') slot' copy' p' ∧
      ((s.relocated parent ⟨node, slot⟩).relocated parent' ⟨node', slot'⟩).Renaming (copy' ∘ copy)
        p'.tree := by
  obtain ⟨root', hwf⟩ := hwf
  obtain ⟨up, hup, hcopy⟩ := hp.changed
  obtain rfl : parent = up := Option.some.inj (hparent.symm.trans hup)
  have hmoved := h.relocated (r := ⟨node, slot⟩) hparent hslot
  have hup' := (parent?_relocated s parent ⟨node, slot⟩ node').trans hparent'
  have hlive := contains_of_parent? hup'
  have hbelow := (hmoved.mem_children_of_parent? (hmoved.reached node' hlive) hup').1
  have hlist := children_relocated_of_ne s ⟨node, slot⟩ hne.symm
  -- the copy of the node is listed by the copy of its parent, among as many
  have hupCopy : p.tree.parent? (copy node') = some (copy parent') := by
    obtain ⟨n, hn⟩ := Option.isSome_iff_exists.mp hlive
    rw [parent?, hn, Option.bind_some] at hup'
    rw [parent?, hcopy.node node' n hn, Option.bind_some, hup', Option.map_some]
  have hslotCopy : slot' < (p.tree.children (copy parent')).length := by
    rwa [hcopy.children (hmoved.contains hbelow), List.length_map, hlist]
  obtain ⟨copy', p', hp', -⟩ := hwf.exists_moved hupCopy hslotCopy
  obtain ⟨up', hup'', hcopy'⟩ := hp'.changed
  obtain rfl : copy parent' = up' := Option.some.inj (hupCopy.symm.trans hup'')
  refine ⟨copy', p', hp', (hcopy.relocated (r := ⟨node', slot'⟩) hlive (hmoved.contains hbelow)
    fun c hc => ?_).trans hcopy'⟩
  exact contains_of_parent? (hmoved.listed parent' c hbelow hc)

end

/-- **Moves in different lists commute.** In a well-formed tree let two nodes have different
parents; one node may be above the other. Moving the first to a slot of its list, and then the copy
of the second to a slot of its own, gives the tree of moving the second and then the copy of the
first, up to handles and but for the ghost. Every node of the one tree is paired with the copy of
the same node. -/
theorem moves_commute (s : Store) (root : NodeId) (h : s.WellFormed root) (x y px py : NodeId)
    (hx : s.parent? x = some px) (hy : s.parent? y = some py) (hne : px ≠ py) (i j : Nat)
    (hi : i < (s.children px).length) (hj : j < (s.children py).length) :
    ∃ (copyX copyY copyX' copyY' : NodeId → NodeId) (p q p' q' : Placement),
      s.Moved x i copyX p ∧ p.tree.Moved (copyX y) j copyY' p' ∧
      s.Moved y j copyY q ∧ q.tree.Moved (copyY x) i copyX' q' ∧
      ∃ f, p'.tree.Renaming f q'.tree ∧
        ∀ z, s.contains z = true → f (copyY' (copyX z)) = copyX' (copyY z) := by
  obtain ⟨copyX, p, hp, hwfp⟩ := h.exists_moved hx hi
  obtain ⟨copyY, q, hq, hwfq⟩ := h.exists_moved hy hj
  obtain ⟨copyY', p', hp', hfirst⟩ := hp.exists_next h hwfp hx hy hne hi hj
  obtain ⟨copyX', q', hq', hsecond⟩ := hq.exists_next h hwfq hy hx hne.symm hj hi
  -- both are renamings of the tree with the two lists changed
  have hboth : ((s.relocated px ⟨x, i⟩).relocated py ⟨y, j⟩).WellFormed root := by
    refine (h.relocated (r := ⟨x, i⟩) hx hi).relocated (r := ⟨y, j⟩) ?_ ?_
    · rw [parent?_relocated, hy]
    · rwa [children_relocated_of_ne s _ hne.symm]
  have hsecond := hsecond.congr (node?_relocated_comm s hne.symm _ _) rfl
  obtain ⟨back, hback, hinverse⟩ := hfirst.symm hboth
  refine ⟨copyX, copyY, copyX', copyY', p, q, p', q', hp, hp', hq, hq', _, hback.trans hsecond,
    fun z hz => ?_⟩
  have hlive : ((s.relocated px ⟨x, i⟩).relocated py ⟨y, j⟩).contains z = true := by
    rwa [contains_relocated, contains_relocated]
  rw [Function.comp_apply, ← Function.comp_apply (f := copyY') (g := copyX), hinverse z hlive,
    Function.comp_apply]

theorem ofToken?_c : LiteralValue.ofToken? "c".toList = some (.identifier 'c') := by decide

/-- A name and the product of two others, added up. -/
def sumWithProduct : Store where
  slots := #[some ⟨.compound .add, none, [1, 2]⟩,
    some ⟨.literal ⟨"a", .identifier 'a', ofToken?_a⟩, some 0, []⟩,
    some ⟨.compound .multiply, some 0, [3, 4]⟩,
    some ⟨.literal ⟨"b", .identifier 'b', ofToken?_b⟩, some 2, []⟩,
    some ⟨.literal ⟨"c", .identifier 'c', ofToken?_c⟩, some 2, []⟩]
  root := some 0
  ghost := none

theorem wellFormed_sumWithProduct : sumWithProduct.WellFormed 0 := by
  have hp : sumWithProduct.Presents (.node 0 (.compound .add) [
      .node 1 (.literal ⟨"a", .identifier 'a', ofToken?_a⟩) [],
      .node 2 (.compound .multiply) [.node 3 (.literal ⟨"b", .identifier 'b', ofToken?_b⟩) [],
        .node 4 (.literal ⟨"c", .identifier 'c', ofToken?_c⟩) []]]) :=
    ⟨rfl, ⟨rfl, ⟨rfl, trivial⟩, ⟨rfl, ⟨rfl, trivial⟩, ⟨rfl, trivial⟩, trivial⟩, trivial⟩, by decide⟩
  exact hp.wellFormed_of_numbered rfl

/-- The product is put first and its factors are swapped; the product is the parent of the factor
that is moved. The factor goes along: its path is `[1, 0]` at first and `[0, 1]` at last. -/
theorem moves_commute_sumWithProduct : sumWithProduct.WellFormed 0 ∧
    ∃ (copyX copyY copyX' copyY' : NodeId → NodeId) (p q p' q' : Placement),
      sumWithProduct.Moved 2 0 copyX p ∧ p.tree.Moved (copyX 3) 1 copyY' p' ∧
      sumWithProduct.Moved 3 1 copyY q ∧ q.tree.Moved (copyY 2) 0 copyX' q' ∧
      ∃ f, p'.tree.Renaming f q'.tree := by
  obtain ⟨copyX, copyY, copyX', copyY', p, q, p', q', hp, hp', hq, hq', f, hf, -⟩ :=
    moves_commute sumWithProduct 0 wellFormed_sumWithProduct 2 3 0 2 rfl rfl (by decide) 0 1
      (by decide) (by decide)
  exact ⟨wellFormed_sumWithProduct, copyX, copyY, copyX', copyY', p, q, p', q', hp, hp', hq,
    hq', f, hf⟩

end Store

end ArithTree
