import ArithTree.Proofs.Reordering

/-!
# Moves of one node compose

Where a node has been put before does not matter when it is moved on: taking it out of its list
again leaves the others as they were (`node?_relocated_relocated`), and a copy is moved like what it
is a copy of (`Renaming.relocated`). So a second move of the copied node gives the tree of a single
move, the way back gives the tree that was there first, and the placements of the copy are those of
the node (`placements_compose`).
-/

namespace ArithTree

/-- Equal up to handles, with the ghost in the same place. -/
def Placement.Same (p q : Placement) : Prop :=
  ∃ f, p.tree.Renaming f q.tree ∧ q.ghost = f p.ghost ∧ q.tree.ghost = p.tree.ghost.map f

namespace Store

section

variable {f : NodeId → NodeId} {s t u : Store} {root parent node x : NodeId} {i j m : Nat}

/-! ## Moving twice in one store -/

/-- Where `x` has been put does not matter when it is taken out. -/
theorem filter_insertIdx_self (l : List NodeId) (x : NodeId) : ∀ j : Nat,
    (l.insertIdx j x).filter (· ≠ x) = l.filter (· ≠ x) := by
  induction l with
  | nil =>
    intro j
    cases j <;> simp
  | cons y l ih =>
    intro j
    cases j with
    | zero => rw [List.insertIdx_zero, List.filter_cons_of_neg (by simp)]
    | succ j => rw [List.insertIdx_succ_cons, List.filter_cons, List.filter_cons, ih]

/-- Of two moves of one node the second counts. -/
theorem node?_relocated_relocated (s : Store) (parent node : NodeId) (j m : Nat) (x : NodeId) :
    ((s.relocated parent ⟨node, j⟩).relocated parent ⟨node, m⟩).node? x =
      (s.relocated parent ⟨node, m⟩).node? x := by
  simp only [Unfolding.node?_relocated, if_true]
  split
  · cases s.node? parent with
    | none => rfl
    | some n =>
      simp only [Option.map_some, filter_insertIdx_self, List.filter_filter, Bool.and_self]
  · rfl

/-- Taking a node out of a list and putting it back where it was does nothing. -/
theorem insertIdx_filter_self {l : List NodeId} (hnodup : l.Nodup) (hx : l[i]? = some x) :
    (l.filter (· ≠ x)).insertIdx i x = l := by
  obtain ⟨hlt, rfl⟩ := List.getElem?_eq_some_iff.mp hx
  rw [filter_ne_eq_erase hnodup, hnodup.erase_getElem]
  exact List.insertIdx_eraseIdx_getElem hlt

/-- A node that is moved to the slot it is on stays there. -/
theorem node?_relocated_self (hnodup : (s.children parent).Nodup)
    (hslot : (s.children parent)[i]? = some node) (x : NodeId) :
    (s.relocated parent ⟨node, i⟩).node? x = s.node? x := by
  rw [Unfolding.node?_relocated]
  split
  · next hx =>
    subst hx
    cases hn : s.node? x with
    | none => rfl
    | some n =>
      rw [children_of_node? hn] at hnodup hslot
      rw [Option.map_some, insertIdx_filter_self hnodup hslot]
  · rfl

/-- What is equal up to handles to a store is so to every store that reads the same. -/
theorem Renaming.congr (h : t.Renaming f u) (hread : ∀ x, t.node? x = s.node? x)
    (hroot : t.root = s.root) : s.Renaming f u := by
  have live : ∀ x, t.contains x = s.contains x := fun x => contains_congr (hread x)
  refine ⟨fun x y hx hy => h.injective x y ?_ ?_, fun y hy => ?_, fun x n hn => ?_, hroot ▸ h.root⟩
  · rwa [live]
  · rwa [live]
  · obtain ⟨x, hx, hxy⟩ := h.onto y hy
    exact ⟨x, live x ▸ hx, hxy⟩
  · exact h.node x n ((hread x).trans hn)

theorem Renaming.of_relocated_self (hnodup : (s.children parent).Nodup)
    (hslot : (s.children parent)[i]? = some node)
    (h : (s.relocated parent ⟨node, i⟩).Renaming f t) : s.Renaming f t :=
  h.congr (node?_relocated_self hnodup hslot) rfl

theorem Renaming.of_relocated_relocated
    (h : ((s.relocated parent ⟨node, j⟩).relocated parent ⟨node, m⟩).Renaming f t) :
    (s.relocated parent ⟨node, m⟩).Renaming f t :=
  h.congr (node?_relocated_relocated s parent node j m) rfl

/-! ## Moving a copy -/

/-- A copy is moved like what it is a copy of. -/
theorem Renaming.relocated {r : Relocation} (h : s.Renaming f t) (hnode : s.contains r.node = true)
    (hparent : s.contains parent = true)
    (hlisted : ∀ c ∈ s.children parent, s.contains c = true) :
    (s.relocated parent r).Renaming f (t.relocated (f parent) ⟨f r.node, r.slot⟩) := by
  refine ⟨fun x y hx hy => ?_, fun y hy => ?_, fun x n hn => ?_, h.root⟩
  · rw [contains_relocated] at hx hy
    exact h.injective x y hx hy
  · rw [contains_relocated] at hy
    obtain ⟨x, hx, hxy⟩ := h.onto y hy
    exact ⟨x, (contains_relocated s parent r x).trans hx, hxy⟩
  · rw [Unfolding.node?_relocated] at hn ⊢
    by_cases hx : x = parent
    · subst hx
      rw [if_pos rfl] at hn ⊢
      obtain ⟨n', hn', rfl⟩ := Option.map_eq_some_iff.mp hn
      rw [h.node x n' hn', Option.map_some]
      have hkept : (n'.children.map f).filter (· ≠ f r.node) =
          (n'.children.filter (· ≠ r.node)).map f := by
        rw [List.filter_map]
        congr 1
        refine List.filter_congr fun c hc => ?_
        have hlive := hlisted c ((children_of_node? hn').symm ▸ hc)
        have hiff : f c = f r.node ↔ c = r.node :=
          ⟨h.injective c r.node hlive hnode, fun he => he ▸ rfl⟩
        simp only [Function.comp_apply, ne_eq, hiff]
      simp only [hkept, List.map_insertIdx]
    · have hne : f x ≠ f parent := fun he => by
        rw [if_neg hx] at hn
        exact hx (h.injective x parent (contains_of_node? hn) hparent he)
      rw [if_neg hx] at hn
      rw [if_neg hne, h.node x n hn]

/-! ## Placing a candidate again -/

/-- In a placement the ghost is on the list of the copied parent, with as many siblings as the node
had. -/
theorem Relocates.exists_parent {p : Placement} (h : s.WellFormed root)
    (hparent : s.parent? node = some parent) (hj : j < (s.children parent).length)
    (hp : s.Relocates parent ⟨node, j⟩ p) :
    ∃ f, (s.relocated parent ⟨node, j⟩).Renaming f p.tree ∧ p.ghost = f node ∧
      p.tree.parent? p.ghost = some (f parent) ∧
      (p.tree.children (f parent)).length = (s.children parent).length := by
  obtain ⟨f, hf, hghost⟩ := hp.moved
  have hbelow := h.reached node (contains_of_parent? hparent)
  obtain ⟨hup, hlisted⟩ := h.mem_children_of_parent? hbelow hparent
  refine ⟨f, hf, hghost, ?_, ?_⟩
  · have hmoved : (s.relocated parent ⟨node, j⟩).parent? node = some parent := by
      rw [← hparent]
      refine parent?_congr ?_
      rw [Unfolding.node?_relocated, if_neg]
      rintro rfl
      exact h.acyclic hup hlisted .refl
    obtain ⟨n, hn⟩ := Option.isSome_iff_exists.mp (contains_of_parent? hmoved)
    rw [parent?, hn, Option.bind_some] at hmoved
    rw [hghost, parent?, hf.node node n hn, Option.bind_some, hmoved, Option.map_some]
  · rw [hf.children ((contains_relocated s parent _ _).trans (h.contains hup)), List.length_map,
      children_relocated_self s _ (h.contains hup)]
    exact (perm_moved (h.once parent hup) hlisted hj).length_eq

/-- **Composition lemma.** A placement of the ghost of a placement is the tree with the node moved
once. -/
theorem Relocates.placed_again {p q : Placement} {parent' : NodeId} (h : s.WellFormed root)
    (hparent : s.parent? node = some parent) (hj : j < (s.children parent).length)
    (hp : s.Relocates parent ⟨node, j⟩ p) (hparent' : p.tree.parent? p.ghost = some parent')
    (hq : p.tree.Relocates parent' ⟨p.ghost, m⟩ q) :
    ∃ f, (s.relocated parent ⟨node, m⟩).Renaming f q.tree ∧ q.ghost = f node := by
  obtain ⟨f, hf, hghost, hup, -⟩ := hp.exists_parent h hparent hj
  obtain rfl : f parent = parent' := Option.some.inj (hup.symm.trans hparent')
  obtain ⟨g, hg, hghost'⟩ := hq.moved
  rw [hghost] at hg hghost'
  have hnode := contains_of_parent? hparent
  obtain ⟨hbelow, hlisted⟩ := h.mem_children_of_parent? (h.reached node hnode) hparent
  -- the list that the copy is taken out of holds what the list of the source did
  have hlist : ∀ c ∈ (s.relocated parent ⟨node, j⟩).children parent, s.contains c = true := by
    intro c hc
    rw [children_relocated_self s _ (h.contains hbelow)] at hc
    have hold := (perm_moved (h.once parent hbelow) hlisted hj).subset hc
    exact contains_of_parent? (h.listed parent c hbelow hold)
  have hmoved := hf.relocated (r := ⟨node, m⟩) (by rwa [contains_relocated])
    (by rw [contains_relocated]; exact h.contains hbelow)
    (fun c hc => (contains_relocated s parent _ c).trans (hlist c hc))
  exact ⟨g ∘ f, (hmoved.trans hg).of_relocated_relocated, hghost'⟩

/-- Two placements of one node on one slot are the same. -/
theorem Relocates.same {p q : Placement} (h : s.WellFormed root)
    (hparent : s.parent? node = some parent) (hm : m < (s.children parent).length)
    (hf : (s.relocated parent ⟨node, m⟩).Renaming f p.tree) (hghost : p.ghost = f node)
    (hmark : p.tree.ghost = some p.ghost) (hq : s.Relocates parent ⟨node, m⟩ q) : p.Same q := by
  obtain ⟨g, hg, hghost'⟩ := hq.moved
  have hnode := contains_of_parent? hparent
  obtain ⟨-, hlisted⟩ := h.mem_children_of_parent? (h.reached node hnode) hparent
  obtain ⟨u, -, hmoved, hlive, -⟩ := rearrange_presents (r := ⟨node, m⟩) h hparent hlisted hm
  obtain ⟨back, hback, hinverse⟩ := hf.symm (hmoved.wellFormed fun x => (hlive x).mp)
  have hreturn : q.ghost = (g ∘ back) p.ghost := by
    rw [hghost, Function.comp_apply,
      hinverse node ((contains_relocated s parent _ node).trans hnode),
      hghost']
  exact ⟨g ∘ back, hback.trans hg, hreturn, by rw [hq.ghost, hmark, hreturn, Option.map_some]⟩

/-- The ghost of a placement can be placed on every slot, and what comes out is the tree with the
node moved there. -/
theorem Relocates.exists_again {p : Placement} (h : s.WellFormed root)
    (hparent : s.parent? node = some parent) (hj : j < (s.children parent).length)
    (hp : s.Relocates parent ⟨node, j⟩ p) :
    ∃ root' again, p.tree.root = some root' ∧ p.tree.placements p.ghost = .ok again ∧
      again.length = (s.children parent).length ∧ ∀ m (hm : m < again.length),
        p.tree.place root' ⟨p.ghost, m⟩ = .ok again[m] ∧
        again[m].tree.ghost = some again[m].ghost ∧
        ∃ f, (s.relocated parent ⟨node, m⟩).Renaming f again[m].tree ∧ again[m].ghost = f node := by
  obtain ⟨root', hwf⟩ := hp.wellFormed
  obtain ⟨f, -, -, hparent', hlen'⟩ := hp.exists_parent h hparent hj
  obtain ⟨again, hagain, hlen, hplaced⟩ := hwf.exists_placements hparent'
  refine ⟨root', again, hwf.marked, hagain, hlen.trans hlen', fun m hm => ?_⟩
  obtain ⟨hok, hq⟩ := hplaced m hm
  exact ⟨hok, hq.ghost, hp.placed_again h hparent hj hparent' hq⟩

end

/-- **Moves of one node compose.** In a well-formed tree take a node at position `i` of its sibling
list. Placing it on one slot and then its ghost on another gives the tree of placing it on the
second at once. Placing it on its own position gives the tree itself, and so does placing it
anywhere and then back. The placements of the ghost of any candidate are the candidates, one by
one. -/
theorem placements_compose (s : Store) (root : NodeId) (h : s.WellFormed root) (node : NodeId)
    (path : List Nat) (i : Nat) (hpath : s.pathOf? node = some (path ++ [i])) :
    ∃ parent, s.parent? node = some parent ∧ i < (s.children parent).length ∧
      (∀ j m, j < (s.children parent).length → m < (s.children parent).length →
        ∃ p root' q direct, s.place root ⟨node, j⟩ = .ok p ∧ p.tree.root = some root' ∧
          p.tree.place root' ⟨p.ghost, m⟩ = .ok q ∧ s.place root ⟨node, m⟩ = .ok direct ∧
          q.Same direct) ∧
      (∃ p f, s.place root ⟨node, i⟩ = .ok p ∧ s.Renaming f p.tree ∧ p.ghost = f node) ∧
      (∀ j, j < (s.children parent).length →
        ∃ p root' q f, s.place root ⟨node, j⟩ = .ok p ∧ p.tree.root = some root' ∧
          p.tree.place root' ⟨p.ghost, i⟩ = .ok q ∧ s.Renaming f q.tree ∧ q.ghost = f node) ∧
      ∃ all, s.placements node = .ok all ∧ all.length = (s.children parent).length ∧
        ∀ p ∈ all, ∃ again, p.tree.placements p.ghost = .ok again ∧
          List.Forall₂ Placement.Same again all := by
  obtain ⟨parent, hparent, -, hposition, -⟩ := h.parent_of_pathOf? hpath
  obtain ⟨all, hall, hlen, hplaced⟩ := h.exists_placements hparent
  have hbelow :=
    (h.mem_children_of_parent? (h.reached node (contains_of_parent? hparent)) hparent).1
  have honce := h.once parent hbelow
  have hi := (List.getElem?_eq_some_iff.mp hposition).1
  have hagain := fun j (hj : j < all.length) =>
    (hplaced j hj).2.exists_again h hparent (hlen ▸ hj)
  refine ⟨parent, hparent, hi, fun j m hj hm => ?_, ?_, fun j hj => ?_, all, hall, hlen,
    fun p hp => ?_⟩
  · rw [← hlen] at hj hm
    obtain ⟨root', again, hroot, -, hcount, hmoved⟩ := hagain j hj
    obtain ⟨hok, hmark, f, hf, hghost⟩ := hmoved m (by rwa [hcount, ← hlen])
    exact ⟨all[j], root', _, all[m], (hplaced j hj).1, hroot, hok, (hplaced m hm).1,
      Relocates.same h hparent (hlen ▸ hm) hf hghost hmark (hplaced m hm).2⟩
  · rw [← hlen] at hi
    obtain ⟨f, hf, hghost⟩ := (hplaced i hi).2.moved
    exact ⟨all[i], f, (hplaced i hi).1, hf.of_relocated_self honce hposition, hghost⟩
  · rw [← hlen] at hj
    obtain ⟨root', again, hroot, -, hcount, hmoved⟩ := hagain j hj
    obtain ⟨hok, -, f, hf, hghost⟩ := hmoved i (by rwa [hcount])
    exact ⟨all[j], root', _, f, (hplaced j hj).1, hroot, hok,
      hf.of_relocated_self honce hposition, hghost⟩
  · obtain ⟨j, hj, rfl⟩ := List.getElem_of_mem hp
    obtain ⟨root', again, -, hlist, hcount, hmoved⟩ := hagain j hj
    refine ⟨again, hlist, List.forall₂_iff_get.mpr ⟨hcount.trans hlen.symm, fun m hm hm' => ?_⟩⟩
    obtain ⟨-, hmark, f, hf, hghost⟩ := hmoved m hm
    exact Relocates.same h hparent (hlen ▸ hm') hf hghost hmark (hplaced m hm').2

/-- The first name of a sum of two, put behind the second and then back. -/
theorem placements_compose_sumOfNames : sumOfNames.WellFormed 0 ∧
    ∃ p root q f, sumOfNames.place 0 ⟨1, 1⟩ = .ok p ∧ p.tree.root = some root ∧
      p.tree.place root ⟨p.ghost, 0⟩ = .ok q ∧ sumOfNames.Renaming f q.tree ∧ q.ghost = f 1 := by
  obtain ⟨parent, hparent, -, -, -, hback, -⟩ :=
    placements_compose sumOfNames 0 wellFormed_sumOfNames 1 [] 0 (by decide)
  obtain rfl : parent = 0 := (Option.some.inj hparent).symm
  exact ⟨wellFormed_sumOfNames, hback 1 (by decide)⟩

end Store

end ArithTree
