import ArithTree.Proofs.Occurrences
import ArithTree.Proofs.Removal
import Mathlib.Data.List.Nodup
import Mathlib.Data.List.Perm.Subperm

/-!
# Unfoldings in a store

Two relations between a store and an unfolding. `Reads` says that child links give the unfolding;
`Holds` says besides that every link up goes to the node that lists the child, so that the
unfolding is a tree of the store and not only a view of it. What a store holds does not depend on
other handles (`Holds.congr`), and the unfolding of a handle is the one that is held there
(`unfold_of_holds`).
-/

namespace ArithTree.Store

open Unfolding hiding id

mutual

/-- Child links from the top of `u` downwards give `u`. -/
def Reads (s : Store) : Unfolding → Prop
  | .dangling id => s.node? id = none
  | .node id label below =>
    (∃ up, s.node? id = some ⟨label, up, below.map Unfolding.id⟩) ∧ s.ReadsAll below

def ReadsAll (s : Store) : List Unfolding → Prop
  | [] => True
  | u :: rest => s.Reads u ∧ s.ReadsAll rest

end

mutual

/-- The store has the live nodes of `u` with these children, and every link up is in its place,
that of the top being `up`. -/
def Holds (s : Store) (up : Option NodeId) : Unfolding → Prop
  | .dangling _ => False
  | .node id label below =>
    s.node? id = some ⟨label, up, below.map Unfolding.id⟩ ∧ s.HoldsAll (some id) below

def HoldsAll (s : Store) (up : Option NodeId) : List Unfolding → Prop
  | [] => True
  | u :: rest => s.Holds up u ∧ s.HoldsAll up rest

end

theorem holdsAll_iff (s : Store) (up : Option NodeId) (us : List Unfolding) :
    s.HoldsAll up us ↔ ∀ u ∈ us, s.Holds up u := by
  induction us with
  | nil => simp [HoldsAll]
  | cons u rest ih => simp [HoldsAll, ih]

theorem readsAll_iff (s : Store) (us : List Unfolding) : s.ReadsAll us ↔ ∀ u ∈ us, s.Reads u := by
  induction us with
  | nil => simp [ReadsAll]
  | cons u rest ih => simp [ReadsAll, ih]

mutual

theorem Holds.reads {s : Store} : ∀ {up : Option NodeId} {u : Unfolding}, s.Holds up u → s.Reads u
  | _, .dangling _, h => h.elim
  | up, .node _ _ _, h => ⟨⟨up, h.1⟩, HoldsAll.reads h.2⟩

theorem HoldsAll.reads {s : Store} :
    ∀ {up : Option NodeId} {us : List Unfolding}, s.HoldsAll up us → s.ReadsAll us
  | _, [], _ => trivial
  | _, _ :: _, h => ⟨Holds.reads h.1, HoldsAll.reads h.2⟩

end

mutual

theorem Holds.whole {s : Store} : ∀ {up : Option NodeId} {u : Unfolding}, s.Holds up u → u.Whole
  | _, .dangling _, h => h.elim
  | _, .node _ _ _, h => HoldsAll.whole h.2

theorem HoldsAll.whole {s : Store} :
    ∀ {up : Option NodeId} {us : List Unfolding}, s.HoldsAll up us → WholeAll us
  | _, [], _ => trivial
  | _, _ :: _, h => ⟨Holds.whole h.1, HoldsAll.whole h.2⟩

end

mutual

/-- A store that reads the same at the handles of `u` holds `u` as well. -/
theorem Holds.congr {s t : Store} : ∀ {up : Option NodeId} {u : Unfolding}, s.Holds up u →
    (∀ x ∈ u.ids, t.node? x = s.node? x) → t.Holds up u
  | _, .dangling _, h, _ => h.elim
  | _, .node id _ below, h, same => by
    refine ⟨?_, HoldsAll.congr h.2 fun x hx => same x ?_⟩
    · rw [same id (by simp [ids]), h.1]
    · rw [ids]
      exact List.mem_cons_of_mem _ hx

theorem HoldsAll.congr {s t : Store} : ∀ {up : Option NodeId} {us : List Unfolding},
    s.HoldsAll up us → (∀ x ∈ idsAll us, t.node? x = s.node? x) → t.HoldsAll up us
  | _, [], _, _ => trivial
  | _, _ :: _, h, same =>
    ⟨Holds.congr h.1 fun x hx => same x (List.mem_append_left _ hx),
      HoldsAll.congr h.2 fun x hx => same x (List.mem_append_right _ hx)⟩

end

/-- The node at the top. -/
theorem Holds.top {s : Store} {up : Option NodeId} {u : Unfolding} (h : s.Holds up u) :
    ∃ label children, s.node? u.id = some ⟨label, up, children⟩ := by
  cases u with
  | dangling id => exact h.elim
  | node id label below => exact ⟨_, _, h.1⟩

theorem Holds.parent?_top {s : Store} {up : Option NodeId} {u : Unfolding} (h : s.Holds up u) :
    s.parent? u.id = up := by
  obtain ⟨label, children, hn⟩ := h.top
  rw [parent?, hn]
  rfl

/-- With another link up at its top, and all else the same, an unfolding is held below that link. -/
theorem Holds.reparent {s t : Store} {up up' : Option NodeId} {u : Unfolding} (h : s.Holds up u)
    (hnodup : u.ids.Nodup)
    (top : t.node? u.id = (s.node? u.id).map fun node => { node with parent := up' })
    (same : ∀ x ∈ u.ids, x ≠ u.id → t.node? x = s.node? x) : t.Holds up' u := by
  cases u with
  | dangling id => exact h.elim
  | node id label below =>
    rw [ids, List.nodup_cons] at hnodup
    refine ⟨?_, h.2.congr fun x hx => same x (List.mem_cons_of_mem _ hx) ?_⟩
    · rw [Unfolding.id, h.1] at top
      exact top
    · rintro rfl
      exact hnodup.1 hx

/-! ## Handles of what is held -/

/-- Every occurrence is the top of an unfolding that is held, and the link up of all but the first
goes to an occurrence that lists it. -/
theorem Holds.occurrence {s : Store} {up : Option NodeId} {u : Unfolding} (h : s.Holds up u)
    {x : NodeId} (hx : x ∈ u.ids) :
    ∃ v up', v.id = x ∧ s.Holds up' v ∧ v.ids.Sublist u.ids ∧
      (x = u.id ∧ up' = up ∨ ∃ p ∈ u.ids, up' = some p ∧ x ∈ s.children p) := by
  match u, h with
  | .node id label below, h =>
    rw [ids] at hx
    rcases List.mem_cons.mp hx with rfl | hx
    · exact ⟨.node x label below, up, rfl, h, List.Sublist.refl _, Or.inl ⟨rfl, rfl⟩⟩
    · obtain ⟨w, hw, hxw⟩ := mem_idsAll.mp hx
      obtain ⟨v, up', hv, hup, hsub, hlink⟩ := ((holdsAll_iff s _ below).mp h.2 w hw).occurrence hxw
      have hwu : w.ids.Sublist (ids (.node id label below)) :=
        (ids_sublist_idsAll hw).trans (List.sublist_cons_self _ _)
      refine ⟨v, up', hv, hup, hsub.trans hwu, Or.inr ?_⟩
      rcases hlink with ⟨rfl, hlink⟩ | ⟨p, hp, hlink⟩
      · refine ⟨id, List.mem_cons_self .., hlink, ?_⟩
        rw [children_of_node? h.1]
        exact List.mem_map_of_mem hw
      · exact ⟨p, hwu.subset hp, hlink⟩
termination_by sizeOf u
decreasing_by
  have := List.sizeOf_lt_of_mem hw
  simp only [Unfolding.node.sizeOf_spec]
  omega

/-- A handle below the top has a parent that lists it. -/
theorem Holds.exists_parent {s : Store} {up : Option NodeId} {u : Unfolding} (h : s.Holds up u)
    (hnodup : u.ids.Nodup) {x : NodeId} (hx : x ∈ idsAll u.children) :
    ∃ p, s.parent? x = some p ∧ x ∈ s.children p := by
  rw [u.ids_eq, List.nodup_cons] at hnodup
  obtain ⟨v, up', hv, hheld, -, hlink⟩ := h.occurrence ((ids_children_sublist u).subset hx)
  rcases hlink with ⟨htop, -⟩ | ⟨p, -, hup, hlisted⟩
  · exact absurd (htop ▸ hx) hnodup.1
  · exact ⟨p, by rw [← hv, hheld.parent?_top, hup], hlisted⟩

theorem Holds.contains {s : Store} {up : Option NodeId} {u : Unfolding} (h : s.Holds up u)
    {x : NodeId} (hx : x ∈ u.ids) : s.contains x = true := by
  obtain ⟨v, up', rfl, hv, -⟩ := h.occurrence hx
  obtain ⟨label, children, hn⟩ := hv.top
  exact contains_of_node? hn

theorem Holds.lt_size {s : Store} {up : Option NodeId} {u : Unfolding} (h : s.Holds up u)
    {x : NodeId} (hx : x ∈ u.ids) : x < s.slots.size :=
  lt_size_of_contains (h.contains hx)

mutual

/-- What child links lead to from an occurrence is an occurrence. -/
theorem Reads.mem_of_mem_children {s : Store} {p c : NodeId} : ∀ {u : Unfolding}, s.Reads u →
    p ∈ u.ids → c ∈ s.children p → c ∈ u.ids
  | .dangling id, h, hp, hc => by
    obtain rfl := List.mem_singleton.mp hp
    rw [children_of_node?_none (show s.node? p = none from h)] at hc
    cases hc
  | .node id _ below, ⟨⟨_, hn⟩, hbelow⟩, hp, hc => by
    rw [ids] at hp ⊢
    rcases List.mem_cons.mp hp with rfl | hp
    · rw [children_of_node? hn] at hc
      exact List.mem_cons_of_mem _ ((map_id_sublist below).subset hc)
    · exact List.mem_cons_of_mem _ (ReadsAll.mem_of_mem_children hbelow hp hc)

theorem ReadsAll.mem_of_mem_children {s : Store} {p c : NodeId} : ∀ {us : List Unfolding},
    s.ReadsAll us → p ∈ idsAll us → c ∈ s.children p → c ∈ idsAll us
  | [], _, hp, _ => by cases hp
  | u :: us, h, hp, hc => by
    rcases List.mem_append.mp hp with hp | hp
    · exact List.mem_append_left _ (Reads.mem_of_mem_children h.1 hp hc)
    · exact List.mem_append_right _ (ReadsAll.mem_of_mem_children h.2 hp hc)

end

mutual

theorem Reads.below_of_mem {s : Store} : ∀ {u : Unfolding}, s.Reads u →
    ∀ x ∈ u.ids, s.Below u.id x
  | .dangling id, _, x, hx => by
    obtain rfl := List.mem_singleton.mp hx
    exact Relation.ReflTransGen.refl
  | .node id _ below, ⟨⟨_, hn⟩, hbelow⟩, x, hx => by
    rw [ids] at hx
    rcases List.mem_cons.mp hx with rfl | hx
    · exact Relation.ReflTransGen.refl
    · obtain ⟨top, ht, hb⟩ := ReadsAll.below_of_mem hbelow x hx
      refine Relation.ReflTransGen.head ?_ hb
      rw [Unfolding.id, children_of_node? hn]
      exact ht

theorem ReadsAll.below_of_mem {s : Store} : ∀ {us : List Unfolding}, s.ReadsAll us →
    ∀ x ∈ idsAll us, s.BelowAny (us.map Unfolding.id) x
  | [], _, _, hx => by cases hx
  | u :: us, h, x, hx => by
    rcases List.mem_append.mp hx with hx | hx
    · exact ⟨u.id, List.mem_cons_self .., Reads.below_of_mem h.1 x hx⟩
    · obtain ⟨top, ht, hb⟩ := ReadsAll.below_of_mem h.2 x hx
      exact ⟨top, List.mem_cons_of_mem _ ht, hb⟩

end

/-- The handles of what child links give, the dangling ones included, are those that are reached
from its top. -/
theorem Reads.below_iff {s : Store} {u : Unfolding} (h : s.Reads u) (x : NodeId) :
    s.Below u.id x ↔ x ∈ u.ids := by
  constructor
  · intro hb
    induction hb with
    | refl => exact u.id_mem_ids
    | tail _ hc ih => exact h.mem_of_mem_children ih hc
  · exact h.below_of_mem x

theorem Holds.below_of_mem {s : Store} {up : Option NodeId} {u : Unfolding} (h : s.Holds up u) :
    ∀ x ∈ u.ids, s.Below u.id x := h.reads.below_of_mem

/-- The handles of what is held are those that are reached from its top. -/
theorem Holds.below_iff {s : Store} {up : Option NodeId} {u : Unfolding} (h : s.Holds up u)
    (x : NodeId) : s.Below u.id x ↔ x ∈ u.ids := h.reads.below_iff x

/-! ## The unfolding of a handle -/

mutual

theorem Reads.unfoldWithin_eq {s : Store} : ∀ {u : Unfolding}, s.Reads u → ∀ {depth : Nat},
    u.height ≤ depth → s.unfoldWithin depth u.id = u
  | .dangling id, h, depth, hd => by
    cases depth with
    | zero => rfl
    | succ depth => simp only [unfoldWithin, Unfolding.id, show s.node? id = none from h]
  | .node id label below, h, depth, hd => by
    rw [height] at hd
    obtain ⟨⟨up, hn⟩, hbelow⟩ := h
    cases depth with
    | zero => omega
    | succ depth =>
      simp only [unfoldWithin, Unfolding.id, hn, List.map_map]
      rw [ReadsAll.unfoldWithin_eq hbelow (by omega)]

theorem ReadsAll.unfoldWithin_eq {s : Store} : ∀ {us : List Unfolding}, s.ReadsAll us →
    ∀ {depth : Nat}, heightAll us ≤ depth → us.map (s.unfoldWithin depth ∘ Unfolding.id) = us
  | [], _, _, _ => rfl
  | u :: us, h, depth, hd => by
    rw [heightAll] at hd
    rw [List.map_cons, Function.comp_apply, Reads.unfoldWithin_eq h.1 (by omega),
      ReadsAll.unfoldWithin_eq h.2 (by omega)]

end

theorem unfold_of_node?_none {s : Store} {id : NodeId} (h : s.node? id = none) :
    s.unfold id = .dangling id := by
  unfold unfold
  cases s.slots.size with
  | zero => rfl
  | succ depth => simp only [unfoldWithin, h]

/-- A tree of the store has no more nodes than there are slots. -/
theorem Holds.size_le {s : Store} {up : Option NodeId} {u : Unfolding} (h : s.Holds up u)
    (hnodup : u.ids.Nodup) : u.size ≤ s.slots.size := by
  have : u.ids.Subperm (List.range s.slots.size) :=
    hnodup.subperm fun x hx => List.mem_range.mpr (h.lt_size hx)
  simpa [length_ids] using this.length_le

theorem unfold_of_holds {s : Store} {up : Option NodeId} {u : Unfolding} (h : s.Holds up u)
    (hnodup : u.ids.Nodup) : s.unfold u.id = u :=
  h.reads.unfoldWithin_eq (Nat.le_trans u.height_le_size (h.size_le hnodup))

end ArithTree.Store
