import ArithTree.Proofs.Outlines
import ArithTree.Proofs.RoundTrip

/-!
# Copies repair what they copy

Where child links below a node close no circle, following them comes to an end, and copying the node
makes a proper tree of what is met on the way, whatever else is wrong with the links
(`deepCopy_repairs`). The copy shows the same dump, since a dump does not show how often a node is
shared and passes over what is gone. Its nodes are numbered in preorder, so copying the copy makes
the same store (`deepCopy_deepCopy`).
-/

namespace ArithTree

/-! ## Lines of a dump -/

namespace Shape

mutual

theorem length_outline : ∀ (t : Shape) (level : Nat), (t.outline level).length = t.size
  | .node _ below, level => by
    rw [outline, size, List.length_cons, length_outlineAll below, Nat.add_comm]

theorem length_outlineAll : ∀ (ts : List Shape) (level : Nat),
    (outlineAll level ts).length = sizeAll ts
  | [], _ => rfl
  | t :: rest, level => by
    rw [outlineAll, sizeAll, List.length_append, length_outline t, length_outlineAll rest]

end

end Shape

/-- A text has as many line breaks as lines. -/
theorem count_newline_lines (entries : List (Nat × Label)) :
    (lines entries).count '\n' = entries.length := by
  induction entries with
  | nil => rfl
  | cons entry entries ih =>
    rw [lines_cons, List.count_append, List.count_cons_self, ih,
      List.count_eq_zero_of_not_mem (newline_not_mem_line entry), List.length_cons, Nat.zero_add]

namespace Store

open Unfolding hiding id children size formula dump preorder

section

variable {s t : Store} {id : NodeId} {u v : Unfolding}

/-! ## What is met -/

theorem Reads.exists_shape? (h : s.Reads u) (hlive : s.contains u.id = true) :
    ∃ d, u.shape? = some d := by
  cases u with
  | dangling x =>
    have hdead : s.node? x = none := h
    rw [Unfolding.id, contains, hdead] at hlive
    cases hlive
  | node x label below => exact ⟨_, rfl⟩

mutual

/-- Nothing dangles where everything that is met is live. -/
theorem Reads.whole : ∀ {u : Unfolding}, s.Reads u → (∀ x ∈ u.ids, s.contains x = true) → u.Whole
  | .dangling x, h, hlive => by
    have hdead : s.node? x = none := h
    have hx := hlive x (List.mem_singleton_self x)
    rw [contains, hdead] at hx
    cases hx
  | .node _ _ _, h, hlive => ReadsAll.whole h.2 fun x hx => hlive x (List.mem_cons_of_mem _ hx)

theorem ReadsAll.whole : ∀ {us : List Unfolding}, s.ReadsAll us →
    (∀ x ∈ idsAll us, s.contains x = true) → WholeAll us
  | [], _, _ => trivial
  | _ :: _, h, hlive => ⟨Reads.whole h.1 fun x hx => hlive x (List.mem_append_left _ hx),
      ReadsAll.whole h.2 fun x hx => hlive x (List.mem_append_right _ hx)⟩

end

/-- A node whose children, and theirs, are live unfolds without a dangling link. -/
theorem Acyclic.whole (h : s.Acyclic id) (hlive : s.contains id = true)
    (hlisted : ∀ p c, s.Below id p → c ∈ s.children p → s.contains c = true) :
    (s.unfold id).Whole := by
  refine h.reads_unfold.whole fun x hx => ?_
  rw [ids_eq, unfold_id] at hx
  rcases List.mem_cons.mp hx with rfl | hx
  · exact hlive
  · obtain ⟨p, hp, hxp⟩ := listed_of_mem_unfoldWithin s _ hx
    exact hlisted p x hp hxp

/-! ## Stores of one tree -/

theorem ext_node? (hsize : s.slots.size = t.slots.size) (hread : ∀ x, s.node? x = t.node? x)
    (hroot : s.root = t.root) (hghost : s.ghost = t.ghost) : s = t := by
  obtain ⟨slots, root, ghost⟩ := s
  obtain ⟨slots', root', ghost'⟩ := t
  have hslots : slots = slots' := by
    refine Array.ext hsize fun i hi hi' => ?_
    simpa [node?, hi, hi'] using hread i
  simp_all

mutual

theorem Holds.node?_eq : ∀ {u : Unfolding} {up : Option NodeId}, s.Holds up u → t.Holds up u →
    ∀ x ∈ u.ids, s.node? x = t.node? x
  | .dangling _, _, h, _, _, _ => h.elim
  | .node id _ _, _, h, h', x, hx => by
    rcases List.mem_cons.mp hx with rfl | hx
    · rw [h.1, h'.1]
    · exact HoldsAll.node?_eq h.2 h'.2 x hx

theorem HoldsAll.node?_eq : ∀ {us : List Unfolding} {up : Option NodeId}, s.HoldsAll up us →
    t.HoldsAll up us → ∀ x ∈ idsAll us, s.node? x = t.node? x
  | [], _, _, _, _, hx => by cases hx
  | _ :: _, _, h, h', x, hx => by
    rcases List.mem_append.mp hx with hx | hx
    · exact Holds.node?_eq h.1 h'.1 x hx
    · exact HoldsAll.node?_eq h.2 h'.2 x hx

end

/-- A store that has one tree and nothing else is told by the tree. -/
theorem eq_of_presents (hs : s.Presents u) (ht : t.Presents u)
    (hlive : ∀ x, s.contains x = true → x ∈ u.ids) (hlive' : ∀ x, t.contains x = true → x ∈ u.ids)
    (hsize : s.slots.size = t.slots.size) (hghost : s.ghost = t.ghost) : s = t := by
  refine ext_node? hsize (fun x => ?_) (hs.root.trans ht.root.symm) hghost
  by_cases hx : x ∈ u.ids
  · exact hs.holds.node?_eq ht.holds x hx
  · rw [Option.not_isSome_iff_eq_none.mp fun hc => hx (hlive x hc),
      Option.not_isSome_iff_eq_none.mp fun hc => hx (hlive' x hc)]

/-- **Copying a copy changes nothing.** -/
theorem deepCopy_deepCopy {d : Shape} (h : (s.unfold id).shape? = some d) {root : NodeId}
    (hroot : (s.deepCopy id).root = some root) : (s.deepCopy id).deepCopy root = s.deepCopy id := by
  obtain ⟨v, hv, hlive, hshape, hnumbered, hghost⟩ := deepCopy_spec h
  obtain rfl : v.id = root := Option.some.inj (hv.root.symm.trans hroot)
  rw [← hv.unfold_eq] at hshape
  obtain ⟨w, hw, hlive', hshape', hnumbered', hghost'⟩ := deepCopy_spec hshape
  rw [hv.unfold_eq] at hshape
  have hlen : w.ids.length = v.ids.length := by
    rw [length_ids_of_shape? w hw.holds.whole hshape', length_ids_of_shape? v hv.holds.whole hshape]
  obtain ⟨hids, hsize⟩ := hnumbered
  obtain ⟨hids', hsize'⟩ := hnumbered'
  rw [idsAll_singleton] at hids hsize hids' hsize'
  -- both copies have their nodes in preorder
  obtain rfl : w = v := eq_of_shape? hw.holds.whole hv.holds.whole (hshape'.trans hshape.symm)
    (by rw [hids', hlen, ← hids])
  exact eq_of_presents hw hv hlive' hlive (hsize'.trans hsize.symm) (hghost'.trans hghost.symm)

end

/-- **Copies repair what they copy.** Let child links below a handle close no circle. Then following
them comes to an end at the leaves. If the handle is not live, the copy is the empty store.
Otherwise the copy is a well-formed tree without a ghost. Its dump is that of the source, with one
line for each of its nodes, and the nodes have been added in preorder. If no child below the handle
has been removed, the formulas agree as well. A copy of the copy is the same store again. -/
theorem deepCopy_repairs (s : Store) (id : NodeId) (h : s.Acyclic id) :
    s.Reads (s.unfold id) ∧
    (s.contains id = false → s.deepCopy id = .empty) ∧
    (s.contains id = true → ∃ root, (s.deepCopy id).WellFormed root ∧
      (s.deepCopy id).ghost = none ∧
      (s.deepCopy id).dump = s.dumpOf id 0 ∧
      (s.deepCopy id).size = (s.dumpOf id 0).toList.count '\n' ∧
      (s.deepCopy id).preorder = List.range (s.deepCopy id).size ∧
      ((∀ p c, s.Below id p → c ∈ s.children p → s.contains c = true) →
        (s.deepCopy id).formula = s.formulaOf id) ∧
      (s.deepCopy id).deepCopy root = s.deepCopy id) := by
  refine ⟨h.reads_unfold, fun hdead => ?_, fun hlive => ?_⟩
  · exact deepCopy_of_dead (by simpa [contains] using hdead)
  · obtain ⟨d, hd⟩ := h.reads_unfold.exists_shape? (by rwa [unfold_id])
    obtain ⟨v, hv, hall, hshape, ⟨hids, -⟩, hghost⟩ := deepCopy_spec hd
    have hwf := hv.wellFormed hall
    have hcopy : (s.deepCopy id).shape? = some d := by rw [hv.shape?_eq, hshape]
    have hdump := (s.unfold id).dump_of_shape? 0 hd
    have hsize := hwf.size_eq hcopy
    refine ⟨v.id, hwf, hghost, ?_, ?_, ?_, fun hlisted => ?_, deepCopy_deepCopy hd hv.root⟩
    · rw [← String.toList_inj, hwf.toList_dump hcopy, dumpOf, hdump]
    · rw [dumpOf, hdump, count_newline_lines, Shape.length_outline, hsize]
    · rw [idsAll_singleton] at hids
      rw [preorder_eq hv.holds hv.nodup hv.root, hids, hsize,
        length_ids_of_shape? v hv.holds.whole hshape, List.range_eq_range']
      rfl
    · rw [hv.formula_eq hcopy, formulaOf, formula_of_shape? _ (h.whole hlive hlisted) hd]

/-- A sum that lists a product twice and a removed node besides, a name below both, links up that
lead nowhere, and the ghost and a circle beside it. -/
def tangle : Store where
  slots := #[some ⟨.compound .add, some 3, [1, 1, 7, 2]⟩, some ⟨.compound .multiply, none, [2]⟩,
    some ⟨.literal ⟨"a", .identifier 'a', ofToken?_a⟩, some 9, []⟩,
    some ⟨.compound .group, none, [3]⟩]
  root := some 3
  ghost := some 1

theorem acyclic_tangle : tangle.Acyclic 0 := acyclic_of_lt [0, 1, 2, 7] (by decide) (by decide)

/-- The copy has a node for each of the six lines. -/
theorem deepCopy_repairs_tangle : tangle.Acyclic 0 ∧ ∃ root, (tangle.deepCopy 0).WellFormed root ∧
    (tangle.deepCopy 0).dump = tangle.dumpOf 0 0 ∧ (tangle.deepCopy 0).size = 6 ∧
      (tangle.deepCopy 0).preorder = List.range 6 := by
  obtain ⟨-, -, hlive⟩ := deepCopy_repairs tangle 0 acyclic_tangle
  obtain ⟨root, hwf, -, hdump, hsize, hpreorder, -⟩ := hlive rfl
  have hsix : (tangle.deepCopy 0).size = 6 := hsize.trans (by decide +kernel)
  exact ⟨acyclic_tangle, root, hwf, hdump, hsix, hsix ▸ hpreorder⟩

end Store

end ArithTree
