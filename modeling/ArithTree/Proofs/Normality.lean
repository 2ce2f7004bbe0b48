import ArithTree.Proofs.Parsing

/-!
# Parsed trees are normal

Merging a derivation leaves a normal shape (`Derives.normal_merged`): sums hold no sums, products
neither sums nor products, and groups no groups. On a store the same condition is put on every
node below the root (`Store.Normal`); it says that the shape of the tree is normal
(`Store.Rooted.normal_iff`).
-/

namespace ArithTree

namespace Shape

/-! ## Operands of a normal shape -/

mutual

/-- No operand of a run goes on with the run. -/
theorem operator?_of_mem_operands (op : Operator) : ∀ t : Shape, ∀ o ∈ operands (some op) t,
    o.label.operator? ≠ some op
  | .node label below, o, ho => by
    rw [operands] at ho
    split at ho
    · exact operator?_of_mem_operandsAll op below o ho
    · next hrun =>
      rw [List.mem_singleton.mp ho, Shape.label]
      exact fun h => hrun ⟨rfl, h⟩

theorem operator?_of_mem_operandsAll (op : Operator) : ∀ ts : List Shape,
    ∀ o ∈ operandsAll (some op) ts, o.label.operator? ≠ some op
  | [], _, ho => by cases ho
  | t :: rest, o, ho => by
    rw [operandsAll] at ho
    rcases List.mem_append.mp ho with ho | ho
    · exact operator?_of_mem_operands op t o ho
    · exact operator?_of_mem_operandsAll op rest o ho

end

theorem Normal.admits {t : Shape} (h : t.Normal) : Admits t.label (t.children.map label) := by
  cases t with
  | node label below => exact h.1

theorem Normal.of_mem_children {t u : Shape} (h : t.Normal) (hu : u ∈ t.children) : u.Normal := by
  cases t with
  | node label below => exact (normalAll_iff below).mp h.2 u hu

/-- What merging makes of `t` contributes normal operands only. -/
theorem Normal.of_mem_operands {t o : Shape} (h : t.merged.Normal) {op : Operator}
    (ho : o ∈ operands (some op) t) : o.Normal := by
  by_cases hrun : t.label.operator? = some op
  · rw [operands_of_eq hrun] at ho
    exact h.of_mem_children ho
  · rw [operands_of_ne hrun, List.mem_singleton] at ho
    exact ho ▸ h

theorem label_eq_compound {l : Label} {op : Operator} (h : l.operator? = some op) :
    l = .compound op := by
  cases l with
  | compound op' => exact congrArg Label.compound (Option.some.inj h)
  | literal l => cases h

/-- A run that goes on at the top is merged into one compound. -/
theorem merged_of_eq {op : Operator} {t : Shape} (h : t.label.operator? = some op) :
    t.merged = .node (.compound op) (operands (some op) t) := by
  rw [operands_of_eq h, ← label_eq_compound h, ← label_merged]
  cases t.merged with
  | node label below => rfl

/-- It contributes at least one operand. -/
theorem Normal.operands_ne_nil {t : Shape} (h : t.merged.Normal) (op : Operator) :
    operands (some op) t ≠ [] := by
  by_cases hrun : t.label.operator? = some op
  · rw [operands_of_eq hrun]
    intro hnil
    have hadmits := h.admits
    rw [hnil, label_merged, label_eq_compound hrun] at hadmits
    cases op with
    | add => exact absurd hadmits.1 (by simp)
    | multiply => exact absurd hadmits.1 (by simp)
    | group =>
      obtain ⟨l, hl, -⟩ := hadmits
      cases hl
  · rw [operands_of_ne hrun]
    exact List.cons_ne_nil _ _

/-- A pair of parentheses contributes the one thing that is in the innermost of them. -/
theorem Normal.operands_group {t : Shape} (h : t.merged.Normal) :
    ∃ o, operands (some .group) t = [o] ∧ o.label ≠ .compound .group := by
  by_cases hrun : t.label.operator? = some .group
  · have hadmits := h.admits
    rw [label_merged, label_eq_compound hrun] at hadmits
    obtain ⟨l, hl, hne⟩ := hadmits
    obtain ⟨o, ho, rfl⟩ := List.map_eq_singleton_iff.mp hl
    exact ⟨o, by rw [operands_of_eq hrun, ho], hne⟩
  · refine ⟨t.merged, operands_of_ne hrun, ?_⟩
    rw [label_merged]
    rintro hgroup
    rw [hgroup] at hrun
    exact hrun rfl

end Shape

namespace Parser

open Shape

/-! ## Derivations -/

/-- What a rule derives has an operator that binds tighter than those of looser rules. -/
theorem Derives.label_ne {r : Rule} {w : List Char} {t : Shape} (h : Derives r w t) :
    (r ≠ .chain .addition → t.label ≠ .compound .add) ∧
      (r = .grouping → t.label ≠ .compound .multiply) := by
  induction h with
  | @binary c u v l r _ _ _ _ => cases c <;> simp [Shape.label, Chain.operator]
  | @tighter c u t _ ih => cases c <;> simp_all [Chain.tighter]
  | group _ _ => simp [Shape.label]
  | literal _ => simp [Shape.label]

/-- A rule tighter than that for sums contributes no sum to a product. -/
theorem Derives.factor_ne_sum {r : Rule} {w : List Char} {t o : Shape} (h : Derives r w t)
    (hr : r ≠ .chain .addition) (ht : t.merged.Normal) (ho : o ∈ operands (some .multiply) t) :
    o.label ≠ .compound .add := by
  by_cases hrun : t.label.operator? = some .multiply
  · have hadmits := ht.admits
    rw [label_merged, label_eq_compound hrun] at hadmits
    rw [operands_of_eq hrun] at ho
    exact (hadmits.2 _ (List.mem_map_of_mem ho)).1
  · rw [operands_of_ne hrun, List.mem_singleton] at ho
    rw [ho, label_merged]
    exact h.label_ne.1 hr

/-- **Merged derivations are normal.** -/
theorem Derives.normal_merged {r : Rule} {w : List Char} {t : Shape} (h : Derives r w t) :
    t.merged.Normal := by
  induction h with
  | @binary c u v l r hl hr ihl ihr =>
    have hlen : 2 ≤ (operands (some c.operator) l ++ operands (some c.operator) r).length := by
      have := List.length_pos_of_ne_nil (ihl.operands_ne_nil c.operator)
      have := List.length_pos_of_ne_nil (ihr.operands_ne_nil c.operator)
      rw [List.length_append]
      omega
    have hrun : ∀ o ∈ operands (some c.operator) l ++ operands (some c.operator) r,
        o.label ≠ .compound c.operator := by
      intro o ho hlabel
      have : o.label.operator? = some c.operator := by rw [hlabel, Label.operator?]
      rcases List.mem_append.mp ho with ho | ho
      · exact operator?_of_mem_operands _ l o ho this
      · exact operator?_of_mem_operands _ r o ho this
    rw [merged_pair, normal_node]
    refine ⟨?_, fun o ho => ?_⟩
    · cases c with
      | addition =>
        refine ⟨by rwa [List.length_map], fun _ hlabel => ?_⟩
        obtain ⟨o, ho, rfl⟩ := List.mem_map.mp hlabel
        exact hrun o ho
      | multiplication =>
        refine ⟨by rwa [List.length_map], fun _ hlabel => ?_⟩
        obtain ⟨o, ho, rfl⟩ := List.mem_map.mp hlabel
        refine ⟨?_, hrun o ho⟩
        rcases List.mem_append.mp ho with ho | ho
        · exact hl.factor_ne_sum (by simp) ihl ho
        · exact hr.factor_ne_sum (by simp [Chain.tighter]) ihr ho
    · rcases List.mem_append.mp ho with ho | ho
      · exact ihl.of_mem_operands ho
      · exact ihr.of_mem_operands ho
  | tighter _ ih => exact ih
  | @group u t _ ih =>
    obtain ⟨o, ho, hne⟩ := ih.operands_group
    rw [merged_single, ho, normal_node]
    refine ⟨⟨o.label, rfl, hne⟩, fun u hu => ?_⟩
    rw [List.mem_singleton.mp hu]
    exact ih.of_mem_operands (ho ▸ List.mem_singleton_self o)
  | literal _ => exact ⟨rfl, trivial⟩

end Parser

/-! ## Normal trees in a store -/

namespace Store

open Unfolding hiding id

/-- A tree with consistent links in which the labels at every node are normal. Nodes that hang
elsewhere do not matter. -/
structure Normal (s : Store) (root : NodeId) : Prop extends Rooted s root where
  admits : ∀ x label, s.Below root x → s.label? x = some label →
    Shape.Admits label ((s.children x).filterMap s.label?)

section

variable {s : Store}

theorem HoldsAll.filterMap_label? {up : Option NodeId} {us : List Unfolding}
    (h : s.HoldsAll up us) :
    (us.map Unfolding.id).filterMap s.label? = (shapes us).map Shape.label := by
  induction us with
  | nil => rfl
  | cons u rest ih =>
    cases u with
    | dangling id => exact h.1.elim
    | node id label below =>
      rw [List.map_cons, Unfolding.id, List.filterMap_cons_some (label?_of_node? h.1.1), ih h.2]
      rfl

mutual

/-- A condition on labels and the labels below them is met in the store where it is met in the
shape. -/
theorem Holds.everywhere_iff (P : Label → List Label → Prop) :
    ∀ {up : Option NodeId} {u : Unfolding}
    {t : Shape}, s.Holds up u → u.shape? = some t → (t.Everywhere P ↔
      ∀ x ∈ u.ids, ∀ label, s.label? x = some label → P label ((s.children x).filterMap s.label?))
  | _, .dangling _, _, h, _ => h.elim
  | _, .node id label below, t, h, ht => by
    obtain ⟨hn, hbelow⟩ := h
    rw [Unfolding.shape?, Option.some.injEq] at ht
    rw [← ht, Shape.Everywhere, hbelow.everywhereAll_iff P, ids, List.forall_mem_cons,
      label?_of_node? hn, children_of_node? hn, hbelow.filterMap_label?]
    simp

theorem HoldsAll.everywhereAll_iff (P : Label → List Label → Prop) : ∀ {up : Option NodeId}
    {us : List Unfolding}, s.HoldsAll up us → (Shape.EverywhereAll P (shapes us) ↔
      ∀ x ∈ idsAll us, ∀ label, s.label? x = some label →
        P label ((s.children x).filterMap s.label?))
  | _, [], _ => by simp [shapes, Shape.EverywhereAll, idsAll]
  | _, u :: rest, h => by
    obtain ⟨t, ht⟩ := h.1.whole.exists_shape?
    simp only [shapes, ht, Shape.EverywhereAll, idsAll, List.forall_mem_append]
    rw [h.1.everywhere_iff P ht, h.2.everywhereAll_iff P]

end

/-- The tree is normal when its shape is. -/
theorem Rooted.normal_iff {root : NodeId} (h : s.Rooted root) {t : Shape} (ht : s.shape? = some t) :
    s.Normal root ↔ t.Normal := by
  have hp := h.presents
  rw [hp.shape?_eq] at ht
  rw [t.normal_iff_everywhere, hp.holds.everywhere_iff _ ht]
  constructor
  · intro hnormal x hx
    exact fun label => hnormal.admits x label ((h.mem_ids_iff x).mp hx)
  · exact fun hall => ⟨h, fun x label hx => hall x ((h.mem_ids_iff x).mpr hx) label⟩

end

end Store

end ArithTree
