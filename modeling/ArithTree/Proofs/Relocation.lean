import ArithTree.Placement.Copy
import ArithTree.Proofs.WellFormed
import Mathlib.Data.List.InsertIdx

/-!
# Relocating a node

Moving a node to a slot of its sibling list, on the store (`Store.relocated`) and on the unfolding
(`rearrange`): both give the same tree (`rearrange_spec`). A slot that the list does not have is
reported (`rearrange_of_le`), and a node that is nobody's child is not moved at all
(`rearrange_of_not_mem`).
-/

namespace ArithTree

/-- The store in which `r.node` stands at position `r.slot` of the child list of `parent`, and all
else is as it was. -/
def Store.relocated (s : Store) (parent : NodeId) (r : Relocation) : Store :=
  s.update parent fun node =>
    { node with children := (node.children.filter (· ≠ r.node)).insertIdx r.slot r.node }

/-- In a list without repetition there is one occurrence to take out. -/
theorem filter_ne_eq_erase {l : List NodeId} (h : l.Nodup) (x : NodeId) :
    l.filter (· ≠ x) = l.erase x := by
  rw [h.erase_eq_filter]
  exact List.filter_congr fun y _ => by by_cases hy : y = x <;> simp [hy]

namespace Unfolding

open Store

section

variable {r : Relocation}

/-! ## One child list -/

theorem reorder_of_not_mem {us : List Unfolding} (h : r.node ∉ us.map id) :
    reorder r us = .ok us := by
  have hfind : us.find? (fun u => u.id = r.node) = none := by
    rw [List.find?_eq_none]
    intro u hu
    simp only [decide_eq_true_eq]
    exact fun he => h (he ▸ List.mem_map_of_mem hu)
  rw [reorder, hfind]

theorem find?_of_mem {us : List Unfolding} (h : r.node ∈ us.map id) :
    ∃ u ∈ us, us.find? (fun u => u.id = r.node) = some u ∧ u.id = r.node := by
  obtain ⟨w, hw, hid⟩ := List.mem_map.mp h
  have hsome : (us.find? fun u => u.id = r.node).isSome = true :=
    List.find?_isSome.mpr ⟨w, hw, by simpa using hid⟩
  obtain ⟨u, hu⟩ := Option.isSome_iff_exists.mp hsome
  exact ⟨u, List.mem_of_find?_eq_some hu, hu, by simpa using List.find?_some hu⟩

/-- A slot behind the end of the list is refused. -/
theorem reorder_of_le {us : List Unfolding} (h : r.node ∈ us.map id) (hle : us.length ≤ r.slot) :
    reorder r us = .error (.noMoreCombinations r.slot us.length) := by
  obtain ⟨u, -, hfind, -⟩ := find?_of_mem h
  rw [reorder, hfind]
  exact if_pos hle

/-- On any other slot the list keeps its nodes, and the others keep their order. -/
theorem reorder_of_lt {us : List Unfolding} (hnodup : (us.map id).Nodup) (h : r.node ∈ us.map id)
    (hlt : r.slot < us.length) :
    ∃ vs, reorder r us = .ok vs ∧ vs.Perm us ∧
      vs.map id = ((us.map id).filter (· ≠ r.node)).insertIdx r.slot r.node := by
  obtain ⟨u, hu, hfind, hid⟩ := find?_of_mem h
  obtain ⟨front, back, rfl⟩ := List.append_of_mem hu
  rw [List.map_append, List.map_cons, List.nodup_middle, List.nodup_cons] at hnodup
  have hother : ∀ v ∈ front ++ back, v.id ≠ r.node := fun v hv he =>
    hnodup.1 (List.map_append ▸ hid ▸ he ▸ List.mem_map_of_mem hv)
  have hothers : (front ++ u :: back).filter (fun v => v.id ≠ r.node) = front ++ back := by
    rw [List.filter_append, List.filter_cons_of_neg (by simp [hid]), ← List.filter_append,
      List.filter_eq_self.mpr fun v hv => by simpa using hother v hv]
  have hslot : r.slot ≤ (front ++ back).length := by
    rw [List.length_append, List.length_cons] at hlt
    rw [List.length_append]
    omega
  refine ⟨(front ++ back).insertIdx r.slot u, ?_, ?_, ?_⟩
  · simp only [reorder, hfind, hothers, if_neg (Nat.not_le.mpr hlt), if_neg (Nat.not_lt.mpr hslot)]
  · exact (List.perm_insertIdx u _ hslot).trans List.perm_middle.symm
  · rw [List.map_insertIdx, hid, ← hothers, List.filter_map]
    rfl

/-! ## The whole unfolding -/

mutual

/-- A node that nothing below the top lists is not moved. -/
theorem rearrange_of_not_mem : ∀ u : Unfolding, r.node ∉ idsAll u.children → rearrange r u = .ok u
  | .dangling _, _ => rfl
  | .node _ _ below, h => by
    have hlist := reorder_of_not_mem fun hm => h ((map_id_sublist below).subset hm)
    have hall := rearrangeAll_of_not_mem below fun u hu hm =>
      h (mem_idsAll.mpr ⟨u, hu, (ids_children_sublist u).subset hm⟩)
    simp only [rearrange, hlist, hall]

theorem rearrangeAll_of_not_mem : ∀ us : List Unfolding, (∀ u ∈ us, r.node ∉ idsAll u.children) →
    rearrangeAll r us = .ok us
  | [], _ => rfl
  | u :: rest, h => by
    have hu := rearrange_of_not_mem u (h u (List.mem_cons_self ..))
    have hrest := rearrangeAll_of_not_mem rest fun v hv => h v (List.mem_cons_of_mem _ hv)
    simp only [rearrangeAll, hu, hrest]

end

end

section

variable {s : Store} {r : Relocation} {parent : NodeId}

/-- Only the parent of a node lists it. -/
theorem eq_parent_of_mem (hparent : s.parent? r.node = some parent) {id : NodeId}
    {us : List Unfolding} (h : s.HoldsAll (some id) us) (hmem : r.node ∈ us.map Unfolding.id) :
    id = parent := by
  obtain ⟨u, hu, hid⟩ := List.mem_map.mp hmem
  have hup := ((holdsAll_iff s _ us).mp h u hu).parent?_top
  rw [hid, hparent] at hup
  exact (Option.some.inj hup).symm

mutual

/-- A slot that the siblings do not have is reported, with their number. -/
theorem rearrange_of_le (hparent : s.parent? r.node = some parent)
    (hle : (s.children parent).length ≤ r.slot) : ∀ {up : Option NodeId} {u : Unfolding},
    s.Holds up u → r.node ∈ idsAll u.children →
      rearrange r u = .error (.noMoreCombinations r.slot (s.children parent).length)
  | _, .dangling _, h, _ => h.elim
  | _, .node id label below, h, hmem => by
    obtain ⟨hn, hbelow⟩ := h
    by_cases htop : r.node ∈ below.map Unfolding.id
    · obtain rfl := eq_parent_of_mem hparent hbelow htop
      rw [children_of_node? hn, List.length_map] at hle ⊢
      simp only [rearrange, reorder_of_le htop hle]
    · have hall := rearrangeAll_of_le hparent hle hbelow hmem htop
      simp only [rearrange, reorder_of_not_mem htop, hall]

theorem rearrangeAll_of_le (hparent : s.parent? r.node = some parent)
    (hle : (s.children parent).length ≤ r.slot) : ∀ {up : Option NodeId} {us : List Unfolding},
    s.HoldsAll up us → r.node ∈ idsAll us → r.node ∉ us.map Unfolding.id →
      rearrangeAll r us = .error (.noMoreCombinations r.slot (s.children parent).length)
  | _, [], _, hmem, _ => by cases hmem
  | _, u :: rest, h, hmem, htop => by
    rw [List.map_cons, List.mem_cons, not_or] at htop
    rw [idsAll, u.ids_eq, List.cons_append, List.mem_cons, List.mem_append] at hmem
    by_cases hu : r.node ∈ idsAll u.children
    · simp only [rearrangeAll, rearrange_of_le hparent hle h.1 hu]
    · have hrest := rearrangeAll_of_le hparent hle h.2
        ((hmem.resolve_left htop.1).resolve_left hu) htop.2
      simp only [rearrangeAll, rearrange_of_not_mem u hu, hrest]

end

/-! ## On the store -/

theorem node?_relocated (s : Store) (parent : NodeId) (r : Relocation) (x : NodeId) :
    (s.relocated parent r).node? x =
      if x = parent then (s.node? parent).map fun node =>
        { node with children := (node.children.filter (· ≠ r.node)).insertIdx r.slot r.node }
      else s.node? x :=
  node?_update s parent x _

mutual

/-- **Relocation lemma.** The rearranged unfolding is the one that is held after the node has been
moved in the store. -/
theorem rearrange_spec (hparent : s.parent? r.node = some parent)
    (hlisted : r.node ∈ s.children parent) (hlt : r.slot < (s.children parent).length) :
    ∀ {up : Option NodeId} {u : Unfolding}, s.Holds up u → u.ids.Nodup →
    ∃ v, rearrange r u = .ok v ∧ (s.relocated parent r).Holds up v ∧
      v.ids.Perm u.ids ∧ v.id = u.id
  | _, .dangling _, h, _ => h.elim
  | up, .node id label below, h, hnodup => by
    obtain ⟨hn, hbelow⟩ := h
    rw [ids, List.nodup_cons] at hnodup
    obtain ⟨vs, hall, hheld, hperm, hids⟩ := rearrangeAll_spec hparent hlisted hlt hbelow hnodup.2
    have hlists := hnodup.2.sublist (map_id_sublist below)
    have hread := node?_relocated s parent r id
    by_cases htop : r.node ∈ below.map Unfolding.id
    · obtain rfl := eq_parent_of_mem hparent hbelow htop
      have hlen : vs.length = below.length := by simpa using congrArg List.length hids
      rw [children_of_node? hn, List.length_map] at hlt
      obtain ⟨_, hfirst, -, -⟩ := reorder_of_lt hlists htop hlt
      obtain ⟨ws, hsecond, hws, hwids⟩ := reorder_of_lt (hids ▸ hlists) (hids ▸ htop) (hlen ▸ hlt)
      refine ⟨.node id label ws, ?_, ⟨?_, ?_⟩, ?_, rfl⟩
      · simp only [rearrange, hfirst, hall, hsecond]
      · rw [hread, if_pos rfl, hn, hwids, hids]
        rfl
      · rw [holdsAll_iff] at hheld ⊢
        exact fun w hw => hheld w (hws.subset hw)
      · have hflat : (idsAll ws).Perm (idsAll vs) := by
          rw [idsAll_eq_flatMap, idsAll_eq_flatMap]
          exact hws.flatMap_right ids
        exact (hflat.trans hperm).cons id
    · have hne : id ≠ parent := by
        rintro rfl
        rw [children_of_node? hn] at hlisted
        exact htop hlisted
      refine ⟨.node id label vs, ?_, ⟨?_, hheld⟩, hperm.cons id, rfl⟩
      · simp only [rearrange, reorder_of_not_mem htop, hall, reorder_of_not_mem (hids ▸ htop)]
      · rw [hread, if_neg hne, hn, hids]

theorem rearrangeAll_spec (hparent : s.parent? r.node = some parent)
    (hlisted : r.node ∈ s.children parent) (hlt : r.slot < (s.children parent).length) :
    ∀ {up : Option NodeId} {us : List Unfolding}, s.HoldsAll up us → (idsAll us).Nodup →
    ∃ vs, rearrangeAll r us = .ok vs ∧
      (s.relocated parent r).HoldsAll up vs ∧ (idsAll vs).Perm (idsAll us) ∧
        vs.map Unfolding.id = us.map Unfolding.id
  | _, [], _, _ => ⟨[], rfl, trivial, List.Perm.refl _, rfl⟩
  | _, u :: rest, h, hnodup => by
    rw [idsAll, List.nodup_append] at hnodup
    obtain ⟨v, hv, hheld, hperm, hid⟩ := rearrange_spec hparent hlisted hlt h.1 hnodup.1
    obtain ⟨vs, hvs, hheld', hperm', hids⟩ := rearrangeAll_spec hparent hlisted hlt h.2 hnodup.2.1
    refine ⟨v :: vs, ?_, ⟨hheld, hheld'⟩, hperm.append hperm', ?_⟩
    · simp only [rearrangeAll, hv, hvs]
    · rw [List.map_cons, List.map_cons, hid, hids]

end

end

end Unfolding

end ArithTree
