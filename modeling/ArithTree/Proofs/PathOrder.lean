import ArithTree.Proofs.Forests
import ArithTree.Proofs.Placements

/-!
# Paths and the order of a traversal

A path that is found by climbing leads back to the node, whatever the links are. Where the links up
from a node close no circle the climb comes to an end by itself (`ClimbEnds.climb_eq`). In a
well-formed tree climbing and going down are inverse to each other, and a traversal meets the nodes
in the lexicographic order of their paths (`Rooted.pairwise_precedes`). Together this is
`paths_lead_back`.
-/

namespace ArithTree.Store

/-! ## The end of a climb -/

/-- `x` is `id` or is reached from it by links up. -/
def Above (s : Store) : NodeId → NodeId → Prop :=
  Relation.ReflTransGen fun x p => s.parent? x = some p

/-- Links up from `id` close no circle. -/
def ClimbEnds (s : Store) (id : NodeId) : Prop :=
  ∀ x p, s.Above id x → s.parent? x = some p → ¬ s.Above p x

section

variable {s : Store} {id : NodeId}

/-- A climb that has passed the nodes `passed` has no more steps to make than there are other
slots. -/
theorem ClimbEnds.climb_add (h : s.ClimbEnds id) (more : Nat) (steps : Nat) : ∀ {x : NodeId}
    (passed : List NodeId) (path : List Nat), s.Above id x → passed.Nodup →
      (∀ y ∈ passed, ∃ p, s.parent? y = some p ∧ s.Above p x) →
        s.slots.size < passed.length + steps →
          s.climb (steps + more) x path = s.climb steps x path := by
  induction steps with
  | zero =>
    intro x passed path _ hnodup hpassed hlong
    have hslots : passed.Subperm (List.range s.slots.size) := by
      refine hnodup.subperm fun y hy => ?_
      obtain ⟨p, hp, -⟩ := hpassed y hy
      exact List.mem_range.mpr (lt_size_of_contains (contains_of_parent? hp))
    have hlen := hslots.length_le
    rw [List.length_range] at hlen
    omega
  | succ steps ih =>
    intro x passed path hx hnodup hpassed hlong
    rw [Nat.add_right_comm, climb, climb]
    cases hp : s.parent? x with
    | none => rfl
    | some p =>
      have hnew : x ∉ passed := fun hmem => by
        obtain ⟨q, hq, hback⟩ := hpassed x hmem
        exact h x q hx hq hback
      cases s.position? x with
      | none => rfl
      | some i =>
        refine ih (x :: passed) (i :: path) (hx.tail hp)
          (List.nodup_cons.mpr ⟨hnew, hnodup⟩) (fun y hy => ?_) ?_
        · rcases List.mem_cons.mp hy with rfl | hy
          · exact ⟨p, hp, .refl⟩
          · obtain ⟨q, hq, hyx⟩ := hpassed y hy
            exact ⟨q, hq, hyx.tail hp⟩
        · rw [List.length_cons]
          omega

/-- **The climb ends.** However many more steps a climb is given, it finds the same path or none. -/
theorem ClimbEnds.climb_eq (h : s.ClimbEnds id) {steps : Nat} (hsteps : s.slots.size < steps) :
    s.climb steps id [] = s.pathOf? id := by
  obtain ⟨more, rfl⟩ := Nat.exists_eq_add_of_le (Nat.succ_le_of_lt hsteps)
  exact h.climb_add more (s.slots.size + 1) [] [] .refl List.nodup_nil
    (fun y hy => (by cases hy)) (by simp)

end

/-! ## The order of a traversal -/

/-- The path of `x` comes before that of `y`. -/
def Precedes (s : Store) (root x y : NodeId) : Prop :=
  ∃ p q, s.descend root p = some x ∧ s.descend root q = some y ∧ p < q

section

variable {s : Store} {root : NodeId}

open Unfolding hiding id preorder

mutual

/-- **Order lemma.** The handles of a tree are in the order of their paths. -/
theorem Holds.pairwise_precedes : ∀ (u : Unfolding) {up : Option NodeId} {path : List Nat},
    s.Holds up u → s.descend root path = some u.id → u.ids.Pairwise (s.Precedes root)
  | .dangling _, _, _, hu, _ => hu.elim
  | .node id label below, _, path, hu, hpath => by
    obtain ⟨hpairs, hbelow⟩ := HoldsAll.pairwise_precedes below [] hu.2 hpath
      (by rw [children_of_node? hu.1]; rfl)
    refine List.pairwise_cons.mpr ⟨fun x hx => ?_, hpairs⟩
    obtain ⟨i, q, -, hq⟩ := hbelow x hx
    have hlt : path ++ [] < path ++ i :: q := List.append_left_lt (List.nil_lt_cons i q)
    rw [List.append_nil] at hlt
    exact ⟨path, _, hpath, hq, hlt⟩

/-- The children `us` stand on the child list of their parent behind the handles `before`. -/
theorem HoldsAll.pairwise_precedes : ∀ (us : List Unfolding) (before : List NodeId)
    {path : List Nat} {parent : NodeId}, s.HoldsAll (some parent) us →
      s.descend root path = some parent → s.children parent = before ++ us.map Unfolding.id →
        (idsAll us).Pairwise (s.Precedes root) ∧ ∀ x ∈ idsAll us, ∃ i q,
          before.length ≤ i ∧ s.descend root (path ++ i :: q) = some x
  | [], _, _, _, _, _, _ => ⟨List.Pairwise.nil, fun x hx => (by cases hx)⟩
  | u :: rest, before, path, parent, hus, hpath, hchildren => by
    have hi : (s.children parent)[before.length]? = some u.id := by simp [hchildren]
    have hdown : s.descend root (path ++ [before.length]) = some u.id :=
      descend_snoc_iff.mpr ⟨parent, hpath, hi⟩
    have hfirst := Holds.pairwise_precedes u hus.1 hdown
    have hin : ∀ x ∈ u.ids, ∃ q, s.descend root (path ++ before.length :: q) = some x := by
      intro x hx
      obtain ⟨q, hq⟩ := below_iff_descend.mp (hus.1.below_of_mem x hx)
      exact ⟨q, descend_append_iff.mpr ⟨parent, hpath, descend_cons_iff.mpr ⟨u.id, hi, hq⟩⟩⟩
    obtain ⟨hpairs, hrest⟩ := HoldsAll.pairwise_precedes rest (before ++ [u.id]) hus.2
      hpath
      (by rw [hchildren, List.append_assoc]; rfl)
    refine ⟨List.pairwise_append.mpr ⟨hfirst, hpairs, fun x hx y hy => ?_⟩, fun x hx => ?_⟩
    · obtain ⟨q, hq⟩ := hin x hx
      obtain ⟨j, r, hj, hr⟩ := hrest y hy
      rw [List.length_append, List.length_singleton] at hj
      exact ⟨_, _, hq, hr, List.append_left_lt (List.cons_lt_cons_iff.mpr (Or.inl hj))⟩
    · rcases List.mem_append.mp hx with hx | hx
      · obtain ⟨q, hq⟩ := hin x hx
        exact ⟨_, q, Nat.le_refl _, hq⟩
      · obtain ⟨j, r, hj, hr⟩ := hrest x hx
        rw [List.length_append, List.length_singleton] at hj
        exact ⟨j, r, Nat.le_of_succ_le hj, hr⟩

end

/-- A traversal meets the nodes of a tree in the order of their paths. -/
theorem Rooted.pairwise_precedes (h : s.Rooted root) : s.preorder.Pairwise (s.Precedes root) := by
  have hp := h.presents
  rw [preorder_eq hp.holds hp.nodup hp.root]
  have htop : s.descend root [] = some (s.unfold root).id := by rw [descend, unfold_id]
  exact Holds.pairwise_precedes _ hp.holds htop

theorem WellFormed.exists_path (h : s.WellFormed root) {id : NodeId}
    (hlive : s.contains id = true) :
    ∃ path, s.pathOf? id = some path := by
  obtain ⟨path, hpath⟩ := below_iff_descend.mp (h.reached id hlive)
  exact ⟨path, h.pathOf?_eq_some_iff.mpr ((h.nodeAt?_eq path).trans hpath)⟩

/-- The paths of the nodes that are met get larger from one to the next. -/
theorem WellFormed.exists_paths (h : s.WellFormed root) : ∃ paths : List (List Nat),
    s.preorder.map s.pathOf? = paths.map some ∧ paths.Pairwise (· < ·) := by
  refine ⟨s.preorder.map fun id => (s.pathOf? id).getD [], ?_, List.pairwise_map.mpr ?_⟩
  · rw [List.map_map]
    refine List.map_congr_left fun id hid => ?_
    obtain ⟨path, hpath⟩ := h.exists_path (h.mem_preorder_iff.mp hid)
    simp [hpath]
  · refine h.pairwise_precedes.imp ?_
    rintro x y ⟨p, q, hp, hq, hlt⟩
    rw [← h.nodeAt?_eq, ← h.pathOf?_eq_some_iff] at hp hq
    rwa [hp, hq]

end

/-- **Paths lead back.** On any store let the links up from a handle, live or not, close no circle.
Then the climb ends, and if it finds a path then this path leads to the handle. In a well-formed
tree every live node has a path, a path is found for a handle exactly when it leads there, and no
two nodes share one. A traversal meets every live node once, and their paths are strictly increasing
in the lexicographic order. -/
theorem paths_lead_back :
    (∀ (s : Store) (id : NodeId), s.ClimbEnds id →
      (∀ steps, s.slots.size < steps → s.climb steps id [] = s.pathOf? id) ∧
      ∀ path, s.pathOf? id = some path → s.nodeAt? path = some id) ∧
    ∀ (s : Store) (root : NodeId), s.WellFormed root →
      (∀ id, s.contains id = true → ∃ path, s.pathOf? id = some path) ∧
      (∀ id path, s.pathOf? id = some path ↔ s.nodeAt? path = some id) ∧
      (∀ x y, s.contains x = true → x ≠ y → s.pathOf? x ≠ s.pathOf? y) ∧
      (∀ id, id ∈ s.preorder ↔ s.contains id = true) ∧ s.preorder.Nodup ∧
      ∃ paths : List (List Nat), s.preorder.map s.pathOf? = paths.map some ∧
        paths.Pairwise (· < ·) := by
  refine ⟨fun s id h => ⟨fun steps hsteps => h.climb_eq hsteps, fun path => nodeAt?_of_pathOf?⟩,
    fun s root h => ⟨fun id => h.exists_path, fun id path => h.pathOf?_eq_some_iff,
      fun x y hx hne heq => ?_, fun id => h.mem_preorder_iff, h.nodup_preorder, h.exists_paths⟩⟩
  obtain ⟨path, hpath⟩ := h.exists_path hx
  have hback := nodeAt?_of_pathOf? (heq ▸ hpath)
  exact hne (Option.some.inj ((nodeAt?_of_pathOf? hpath).symm.trans hback))

/-- A sum that lists a name twice. The second name has a link up to the first, which does not list
it, and the third slot is listed but empty. -/
def strayLinks : Store where
  slots := #[some ⟨.compound .add, none, [1, 1, 3]⟩,
    some ⟨.literal ⟨"a", .identifier 'a', ofToken?_a⟩, some 0, []⟩,
    some ⟨.literal ⟨"b", .identifier 'b', ofToken?_b⟩, some 1, []⟩, none]
  root := some 0
  ghost := none

/-- On such a store the first name is found at the first of its places. In a sum of two names the
paths are visited in order. -/
theorem paths_lead_back_strayLinks : strayLinks.ClimbEnds 1 ∧ strayLinks.pathOf? 1 = some [0] ∧
    strayLinks.nodeAt? [0] = some 1 ∧ sumOfNames.WellFormed 0 ∧
      ∃ paths : List (List Nat), sumOfNames.preorder.map sumOfNames.pathOf? = paths.map some ∧
        paths.Pairwise (· < ·) := by
  have hup : ∀ x, strayLinks.Above 1 x → x = 1 ∨ x = 0 := by
    intro x hx
    induction hx with
    | refl => exact Or.inl rfl
    | @tail y z _ hz ih =>
      rcases ih with rfl | rfl
      · exact Or.inr (Option.some.inj hz).symm
      · cases hz
  have hends : strayLinks.ClimbEnds 1 := by
    intro x p hx hp hback
    rcases hup x hx with rfl | rfl
    · obtain rfl : 0 = p := Option.some.inj hp
      rcases Relation.ReflTransGen.cases_head hback with h | ⟨q, hq, -⟩
      · cases h
      · cases hq
    · cases hp
  have hpath : strayLinks.pathOf? 1 = some [0] := by decide
  obtain ⟨hany, htree⟩ := paths_lead_back
  exact ⟨hends, hpath, (hany strayLinks 1 hends).2 [0] hpath, wellFormed_sumOfNames,
    (htree sumOfNames 0 wellFormed_sumOfNames).2.2.2.2.2⟩

end ArithTree.Store
