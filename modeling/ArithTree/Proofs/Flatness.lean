import ArithTree.Proofs.AnyLinks
import ArithTree.Proofs.Conservation

/-!
# The exact effect of flattening

Which nodes flattening removes, what the others list afterwards, and that it leaves everything else
alone, for a forest with any labels and any root (`flatten_exact`). A child list spreads when every
child with the operator of its parent gives way to its own children (`Spreads`). The merged tree
lists what the lists of the store spread to (`Holds.flattens_merged`), so no node is left below one
with its own operator, and splicing such a tree again writes only what is there (`splice_of_flat`).
-/

namespace ArithTree.Store

open Unfolding hiding id children operator? size preorder postorder

section

variable {s t : Store} {op : Operator} {up : Option NodeId} {root x : NodeId} {cs out : List NodeId}

/-! ## Child lists -/

/-- The second list is the first with each node of operator `op` replaced by what its own child
list spreads to. -/
inductive Spreads (s : Store) (op : Operator) : List NodeId → List NodeId → Prop
  | nil : Spreads s op [] []
  | keep {c : NodeId} {cs out : List NodeId} : s.operator? c ≠ some op → Spreads s op cs out →
      Spreads s op (c :: cs) (c :: out)
  | spread {c : NodeId} {cs inner out : List NodeId} : s.operator? c = some op →
      Spreads s op (s.children c) inner → Spreads s op cs out →
      Spreads s op (c :: cs) (inner ++ out)

theorem Spreads.unique {out' : List NodeId} (h : s.Spreads op cs out) (h' : s.Spreads op cs out') :
    out = out' := by
  induction h generalizing out' with
  | nil =>
    cases h'
    rfl
  | keep hne _ ih =>
    cases h' with
    | keep _ hrest => rw [ih hrest]
    | spread heq _ _ => exact absurd heq hne
  | spread heq _ _ ihinner ihrest =>
    cases h' with
    | keep hne _ => exact absurd heq hne
    | spread _ hinner hrest => rw [ihinner hinner, ihrest hrest]

/-- No node that gives way is left. -/
theorem Spreads.operator?_ne (h : s.Spreads op cs out) : ∀ c ∈ out, s.operator? c ≠ some op := by
  induction h with
  | nil =>
    intro c hc
    cases hc
  | keep hne _ ih => exact List.forall_mem_cons.mpr ⟨hne, ih⟩
  | spread _ _ _ ihinner ihrest => exact List.forall_mem_append.mpr ⟨ihinner, ihrest⟩

/-- What `p` lists after flattening: what its list spreads to if it is a compound, and the same as
before otherwise. -/
def Gathers (s : Store) (p : NodeId) (cs : List NodeId) : Prop :=
  match s.operator? p with
  | some op => s.Spreads op (s.children p) cs
  | none => cs = s.children p

mutual

/-- Every node of the unfolding has its label from the store and lists what it gathers there. -/
def Flattens (s : Store) : Unfolding → Prop
  | .dangling _ => True
  | .node id label below =>
    s.label? id = some label ∧ s.Gathers id (below.map Unfolding.id) ∧ s.FlattensAll below

def FlattensAll (s : Store) : List Unfolding → Prop
  | [] => True
  | u :: rest => s.Flattens u ∧ s.FlattensAll rest

end

theorem flattensAll_iff (s : Store) (us : List Unfolding) :
    s.FlattensAll us ↔ ∀ u ∈ us, s.Flattens u := by
  induction us with
  | nil => simp [FlattensAll]
  | cons u rest ih => simp [FlattensAll, ih]

theorem FlattensAll.flatMap_absorbed {us : List Unfolding} (h : s.FlattensAll us)
    (op : Option Operator) : s.FlattensAll (us.flatMap (absorbed op)) := by
  rw [flattensAll_iff] at h ⊢
  intro v hv
  obtain ⟨u, hu, hvu⟩ := List.mem_flatMap.mp hv
  have hflat := h u hu
  unfold absorbed at hvu
  split at hvu
  · cases u with
    | dangling id => cases hvu
    | node id label below => exact (flattensAll_iff s below).mp hflat.2.2 v hvu
  · exact List.mem_singleton.mp hvu ▸ hflat

theorem operator?_merged (u : Unfolding) : u.merged.operator? = u.operator? := by
  cases u <;> rfl

mutual

/-- In a list with operator `op`, a held unfolding stands for what its merged form contributes. -/
theorem Holds.spreads : ∀ {up : Option NodeId} {u : Unfolding}, s.Holds up u →
    ∀ {cs out : List NodeId}, s.Spreads op cs out →
      s.Spreads op (u.id :: cs) ((absorbed (some op) u.merged).map Unfolding.id ++ out)
  | _, .dangling _, h, _, _, _ => h.elim
  | _, .node id label below, h, cs, out, hrest => by
    have htop : s.operator? id = label.operator? := h.operator?_top
    by_cases hop : label.operator? = some op
    · have hlist : s.children id = below.map Unfolding.id := h.children_top
      rw [absorbed_of_eq (by exact hop), merged, Unfolding.children, hop]
      exact .spread (htop.trans hop) (hlist ▸ HoldsAll.spreads h.2) hrest
    · rw [absorbed_of_ne (by exact hop)]
      exact .keep (fun he => hop (htop.symm.trans he)) hrest

theorem HoldsAll.spreads : ∀ {up : Option NodeId} {us : List Unfolding}, s.HoldsAll up us →
    s.Spreads op (us.map Unfolding.id)
      (((mergedAll us).flatMap (absorbed (some op))).map Unfolding.id)
  | _, [], _ => .nil
  | _, u :: rest, h => by
    rw [mergedAll, List.flatMap_cons, List.map_append, List.map_cons]
    exact h.1.spreads h.2.spreads

end

mutual

/-- **Merging lemma.** The merged form of what is held lists what the store gathers. -/
theorem Holds.flattens_merged : ∀ {up : Option NodeId} {u : Unfolding}, s.Holds up u →
    s.Flattens u.merged
  | _, .dangling _, h => h.elim
  | _, .node id label below, h => by
    refine ⟨label?_of_node? h.1, ?_, (HoldsAll.flattens_merged h.2).flatMap_absorbed _⟩
    have htop : s.operator? id = label.operator? := h.operator?_top
    have hlist : s.children id = below.map Unfolding.id := h.children_top
    rw [Gathers, htop, hlist]
    cases label.operator? with
    | none =>
      rw [flatMap_absorbed_none, map_id_mergedAll]
    | some op => exact h.2.spreads

theorem HoldsAll.flattens_merged : ∀ {up : Option NodeId} {us : List Unfolding},
    s.HoldsAll up us → s.FlattensAll (mergedAll us)
  | _, [], _ => trivial
  | _, _ :: _, h => ⟨Holds.flattens_merged h.1, HoldsAll.flattens_merged h.2⟩

end

mutual

/-- A store that holds such an unfolding has the labels of `s`, and the gathered lists. -/
theorem Flattens.read : ∀ {u : Unfolding} {up : Option NodeId}, s.Flattens u → t.Holds up u →
    ∀ x ∈ u.ids, t.label? x = s.label? x ∧ s.Gathers x (t.children x)
  | .dangling _, _, _, ht, _, _ => ht.elim
  | .node id label below, _, h, ht, x, hx => by
    rcases List.mem_cons.mp hx with rfl | hx
    · rw [label?_of_node? ht.1, children_of_node? ht.1]
      exact ⟨h.1.symm, h.2.1⟩
    · exact FlattensAll.read h.2.2 ht.2 x hx

theorem FlattensAll.read : ∀ {us : List Unfolding} {up : Option NodeId}, s.FlattensAll us →
    t.HoldsAll up us → ∀ x ∈ idsAll us, t.label? x = s.label? x ∧ s.Gathers x (t.children x)
  | [], _, _, _, _, hx => by cases hx
  | _ :: _, _, h, ht, x, hx => by
    rcases List.mem_append.mp hx with hx | hx
    · exact Flattens.read h.1 ht.1 x hx
    · exact FlattensAll.read h.2 ht.2 x hx

end

/-! ## The nodes that give way -/

/-- `x` is a compound with the operator of the node its link up goes to. -/
def Repeats (s : Store) (x : NodeId) : Prop :=
  ∃ p op, s.parent? x = some p ∧ s.operator? p = some op ∧ s.operator? x = some op

theorem Repeats.contains (h : s.Repeats x) : s.contains x = true := by
  obtain ⟨p, op, hp, -⟩ := h
  exact contains_of_parent? hp

/-- `x` is a node below the root, other than the root, with the operator of its parent. -/
def GivesWay (s : Store) (root x : NodeId) : Prop := x ≠ root ∧ s.Below root x ∧ s.Repeats x

theorem mem_flatMap_absorbed_iff (op : Option Operator) {us : List Unfolding}
    (hnodup : (idsAll us).Nodup) : x ∈ idsAll (us.flatMap (absorbed op)) ↔
      x ∈ idsAll us ∧ ∀ o, op = some o → x ∉ absorbedIds o us := by
  constructor
  · intro hx
    refine ⟨(ids_flatMap_absorbed_sublist op us).subset hx, ?_⟩
    rintro o rfl
    exact not_mem_absorbedIds hnodup hx
  · rintro ⟨hx, hkept⟩
    cases op with
    | none =>
      rwa [flatMap_absorbed_none]
    | some o => exact (mem_absorbedIds_or o hx).resolve_left (hkept o rfl)

theorem mem_absorbedIds_mergedAll_iff {us : List Unfolding} :
    x ∈ absorbedIds op (mergedAll us) ↔ ∃ u ∈ us, u.operator? = some op ∧ u.id = x := by
  simp only [absorbedIds, mergedAll_eq_map, List.mem_map, List.mem_filter, decide_eq_true_eq]
  constructor
  · rintro ⟨_, ⟨⟨u, hu, rfl⟩, hop⟩, rfl⟩
    exact ⟨u, hu, (operator?_merged u).symm.trans hop, (id_merged u).symm⟩
  · rintro ⟨u, hu, hop, rfl⟩
    exact ⟨u.merged, ⟨⟨u, hu, rfl⟩, (operator?_merged u).trans hop⟩, id_merged u⟩

/-- A child repeats its parent when the parent absorbs it. -/
theorem HoldsAll.repeats_iff {us : List Unfolding} {p : NodeId} (h : s.HoldsAll (some p) us)
    {u : Unfolding} (hu : u ∈ us) : s.Repeats u.id ↔
      ∃ o, s.operator? p = some o ∧ u.operator? = some o := by
  have hheld := (holdsAll_iff s _ us).mp h u hu
  constructor
  · rintro ⟨q, o, hq, hp, ho⟩
    rw [hheld.parent?_top, Option.some.injEq] at hq
    exact ⟨o, hq ▸ hp, hheld.operator?_top.symm.trans ho⟩
  · rintro ⟨o, hp, ho⟩
    exact ⟨p, o, hheld.parent?_top, hp, hheld.operator?_top.trans ho⟩

mutual

/-- The merged form has the top, and of the rest the nodes that do not repeat their parents. -/
theorem Holds.mem_ids_merged_iff : ∀ {up : Option NodeId} {u : Unfolding}, s.Holds up u →
    u.ids.Nodup → ∀ x ∈ u.ids, (x ∈ u.merged.ids ↔ x = u.id ∨ ¬ s.Repeats x)
  | _, .dangling _, h, _, _, _ => h.elim
  | _, .node id label below, h, hnodup, x, hx => by
    have htop : s.operator? id = label.operator? := h.operator?_top
    rw [ids, List.nodup_cons] at hnodup
    rw [merged, ids, List.mem_cons, Unfolding.id]
    rcases List.mem_cons.mp hx with rfl | hx
    · simp only [true_or]
    · have hne : x ≠ id := fun he => hnodup.1 (he ▸ hx)
      have hmerged := hnodup.2.sublist (ids_mergedAll_sublist below)
      rw [mem_flatMap_absorbed_iff _ hmerged, HoldsAll.mem_ids_merged_iff h.2 hnodup.2 x hx]
      simp only [hne, false_or, mem_absorbedIds_mergedAll_iff]
      constructor
      · rintro ⟨hkept | hkept, habsorbed⟩
        · obtain ⟨u, hu, rfl⟩ := List.mem_map.mp hkept
          rw [h.2.repeats_iff hu, htop]
          rintro ⟨o, hp, ho⟩
          exact habsorbed o hp ⟨u, hu, ho, rfl⟩
        · exact hkept
      · intro hkept
        refine ⟨Or.inr hkept, fun o hp => ?_⟩
        rintro ⟨u, hu, ho, rfl⟩
        exact hkept ((h.2.repeats_iff hu).mpr ⟨o, htop.trans hp, ho⟩)

theorem HoldsAll.mem_ids_merged_iff : ∀ {up : Option NodeId} {us : List Unfolding},
    s.HoldsAll up us → (idsAll us).Nodup → ∀ x ∈ idsAll us,
      (x ∈ idsAll (mergedAll us) ↔ x ∈ us.map Unfolding.id ∨ ¬ s.Repeats x)
  | _, [], _, _, _, hx => by cases hx
  | _, u :: rest, h, hnodup, x, hx => by
    rw [idsAll, List.nodup_append] at hnodup
    rw [mergedAll, idsAll, List.mem_append, List.map_cons, List.mem_cons]
    rcases List.mem_append.mp hx with hx | hx
    · have hrest : x ∉ idsAll rest := fun hr => hnodup.2.2 x hx x hr rfl
      have hmerged : x ∉ idsAll (mergedAll rest) := fun hm =>
        hrest ((ids_mergedAll_sublist rest).subset hm)
      have htops : x ∉ rest.map Unfolding.id := fun hm => hrest ((map_id_sublist rest).subset hm)
      rw [Holds.mem_ids_merged_iff h.1 hnodup.1 x hx]
      simp only [hmerged, htops, or_false]
    · have hu : x ∉ u.ids := fun hm => hnodup.2.2 x hm x hx rfl
      have hmerged : x ∉ u.merged.ids := fun hm => hu ((ids_merged_sublist u).subset hm)
      have htop : x ≠ u.id := by
        rintro rfl
        exact hu u.id_mem_ids
      rw [HoldsAll.mem_ids_merged_iff h.2 hnodup.2.1 x hx]
      simp only [hmerged, htop, false_or]

end

/-! ## Splicing a flat tree -/

/-- A change that changes nothing. -/
theorem update_of_fixed {f : Node → Node} (h : ∀ node, s.node? x = some node → f node = node) :
    s.update x f = s := by
  have hslots : s.slots.modify x (Option.map f) = s.slots := by
    refine Array.ext (Array.size_modify ..) fun i _ hi => ?_
    rw [Array.getElem_modify]
    split
    · next hxi =>
      cases hslot : s.slots[i] with
      | none => rfl
      | some node =>
        rw [Option.map_some, h node]
        rw [node?, hxi, Array.getElem?_eq_getElem hi, hslot, Option.join_some]
    · rfl
  rw [update, hslots]

theorem absorb_of_flat (h : ∀ c ∈ cs, s.operator? c ≠ some op) : absorb op cs s = (cs, s) := by
  induction cs with
  | nil => rfl
  | cons c cs ih =>
    rw [List.forall_mem_cons] at h
    rw [absorb, if_neg h.1, ih h.2]

theorem setParents_of_linked {p : NodeId} (h : ∀ c ∈ cs, s.parent? c = some p) :
    cs.foldl (fun s c => s.setParent c (some p)) s = s := by
  induction cs with
  | nil => rfl
  | cons c cs ih =>
    rw [List.forall_mem_cons] at h
    have hsame : s.setParent c (some p) = s := update_of_fixed fun node hn => by
      have hup := h.1
      rw [parent?, hn, Option.bind_some] at hup
      rw [← hup]
    rw [List.foldl_cons, hsame, ih h.2]

/-- A splice absorbs nothing where no child has the operator, and writes what is there. -/
theorem splice_of_flat (hlinked : ∀ c ∈ s.children x, s.parent? c = some x)
    (hflat : ∀ op, s.operator? x = some op → ∀ c ∈ s.children x, s.operator? c ≠ some op) :
    s.splice x = s := by
  rw [splice]
  cases hop : s.operator? x with
  | none => rfl
  | some op =>
    simp only [absorb_of_flat (hflat op hop)]
    rw [replaceChildren, setParents_of_linked hlinked]
    refine update_of_fixed fun node hn => ?_
    rw [children_of_node? hn]

theorem flatten_of_fixed (h : ∀ x ∈ s.postorder, s.splice x = s) : s.flatten = s := by
  rw [flatten]
  generalize s.postorder = visited at h
  induction visited with
  | nil => rfl
  | cons x rest ih =>
    rw [List.forall_mem_cons] at h
    rw [List.foldl_cons, h.1, ih h.2]

/-! ## A ghost on no node -/

/-- The ghost is on `g`, and no node is there. -/
def GhostAstray (s : Store) (g : NodeId) : Prop := s.ghost = some g ∧ s.contains g = false

theorem GhostAstray.of_shrinks {g : NodeId} (h : s.GhostAstray g) (hst : Shrinks s t)
    (hghost : t.ghost = s.ghost) : t.GhostAstray g :=
  ⟨hghost.trans h.1, Bool.eq_false_iff.mpr fun hl => Bool.eq_false_iff.mp h.2 (hst.live g hl)⟩

/-- Of an emptied node nothing else is removed. -/
theorem GhostAstray.absorb {g : NodeId} {cs : List NodeId} : ∀ {s : Store}, s.GhostAstray g →
    (absorb op cs s).2.GhostAstray g := by
  induction cs with
  | nil => exact fun h => h
  | cons c cs ih =>
    intro s h
    rw [Store.absorb]
    split
    · next hop =>
      have hne : g ≠ c := by
        rintro rfl
        have hdead : s.node? g = none := by simpa [contains] using h.2
        rw [operator?, label?, hdead] at hop
        cases hop
      have hleaf : (s.takeChildren c).2.children c = [] := by
        rw [children, takeChildren, node?_update, if_pos rfl]
        cases s.node? c <;> rfl
      have hghost : ((s.takeChildren c).2.remove c).ghost = some g :=
        ghost_remove_iff.mpr ⟨h.1, fun hb => hne ((below_leaf_iff hleaf).mp hb)⟩
      exact ih (h.of_shrinks ((shrinks_update s c _).trans (shrinks_remove _ c))
        (hghost.trans h.1.symm))
    · exact ih h

theorem ghost_setParents (p : NodeId) (cs : List NodeId) : ∀ s : Store,
    (cs.foldl (fun s c => s.setParent c (some p)) s).ghost = s.ghost := by
  induction cs with
  | nil => exact fun _ => rfl
  | cons c cs ih => exact fun s => (ih _).trans (ghost_update s c _)

theorem GhostAstray.splice {g : NodeId} (h : s.GhostAstray g) (x : NodeId) :
    (s.splice x).GhostAstray g := by
  rw [Store.splice]
  cases s.operator? x with
  | none => exact h
  | some op => exact h.absorb.of_shrinks (shrinks_replaceChildren _ x _) (ghost_setParents x _ _)

theorem GhostAstray.flatten {g : NodeId} (h : s.GhostAstray g) : s.flatten.GhostAstray g := by
  rw [Store.flatten]
  generalize s.postorder = visited
  induction visited generalizing s with
  | nil => exact h
  | cons x rest ih => exact ih (h.splice x)

/-- On any store, flattening takes the ghost off when it removes its node, and not otherwise. -/
theorem ghost_flatten_iff {g : NodeId} : s.flatten.ghost = some g ↔
    s.ghost = some g ∧ (s.contains g = true → s.flatten.contains g = true) := by
  have hfollows := (shrinks_flatten s).ghost
  cases hs : s.ghost with
  | none => simp [hfollows.unset hs]
  | some g' =>
    rw [Option.some.injEq]
    cases hl : s.contains g' with
    | false =>
      have hastray : s.GhostAstray g' := ⟨hs, hl⟩
      rw [hastray.flatten.1, Option.some.injEq, iff_self_and]
      rintro rfl
      rw [hl]
      exact fun he => absurd he Bool.false_ne_true
    | true =>
      rw [hfollows.set g' hs hl]
      constructor
      · intro hg
        split at hg
        · next hkept =>
          obtain rfl := Option.some.inj hg
          exact ⟨rfl, fun _ => hkept⟩
        · cases hg
      · rintro ⟨rfl, hkept⟩
        rw [if_pos (hkept hl)]

end

/-! ## The effect on a forest -/

section

variable {s : Store} {root x : NodeId}

/-- What a forest holds at its root, before and after flattening. -/
theorem ForestLinks.flatten (h : s.ForestLinks) (hroot : s.root = some root)
    (hlive : s.contains root = true) :
    (s.Holds (s.parent? root) (s.unfold root) ∧ (s.unfold root).ids.Nodup) ∧
      s.flatten.Holds (s.parent? root) (s.unfold root).merged ∧
        Rewrites s s.flatten (s.unfold root).ids (s.unfold root).merged.ids := by
  obtain ⟨hheld, hnodup⟩ := h.holds hlive
  exact ⟨⟨hheld, hnodup⟩, flatten_spec hheld hnodup (by rw [unfold_id, hroot])⟩

theorem ForestLinks.mem_ids_iff (h : s.ForestLinks) (hlive : s.contains root = true) :
    x ∈ (s.unfold root).ids ↔ s.Below root x := by
  rw [← (h.holds hlive).1.below_iff, unfold_id]

theorem ForestLinks.mem_ids_merged_iff (h : s.ForestLinks) (hroot : s.root = some root)
    (hlive : s.contains root = true) :
    x ∈ (s.unfold root).merged.ids ↔ s.flatten.Below root x := by
  rw [← (h.flatten hroot hlive).2.1.below_iff, id_merged, unfold_id]

/-- What is reached from the root afterwards was reached before and has not given way. -/
theorem ForestLinks.below_flatten_iff (h : s.ForestLinks) (hroot : s.root = some root)
    (hlive : s.contains root = true) :
    s.flatten.Below root x ↔ s.Below root x ∧ ¬ s.GivesWay root x := by
  obtain ⟨⟨hheld, hnodup⟩, -⟩ := h.flatten hroot hlive
  rw [← h.mem_ids_merged_iff hroot hlive]
  constructor
  · intro hx
    have hold := (ids_merged_sublist _).subset hx
    refine ⟨(h.mem_ids_iff hlive).mp hold, fun hgone => ?_⟩
    rw [hheld.mem_ids_merged_iff hnodup x hold, unfold_id] at hx
    exact hx.elim hgone.1 fun hkept => hkept hgone.2.2
  · rintro ⟨hx, hkept⟩
    rw [hheld.mem_ids_merged_iff hnodup x ((h.mem_ids_iff hlive).mpr hx), unfold_id]
    by_cases htop : x = root
    · exact Or.inl htop
    · exact Or.inr fun hrepeats => hkept ⟨htop, hx, hrepeats⟩

theorem ForestLinks.node?_flatten (h : s.ForestLinks) (hroot : s.root = some root)
    (hlive : s.contains root = true) (hx : ¬ s.Below root x) :
    s.flatten.node? x = s.node? x :=
  (h.flatten hroot hlive).2.2.outside x fun hm => hx ((h.mem_ids_iff hlive).mp hm)

/-- Exactly the nodes that give way are removed. -/
theorem ForestLinks.contains_flatten_iff (h : s.ForestLinks) (hroot : s.root = some root)
    (hlive : s.contains root = true) :
    s.flatten.contains x = true ↔ s.contains x = true ∧ ¬ s.GivesWay root x := by
  obtain ⟨⟨hheld, -⟩, hmerged, hrewrites⟩ := h.flatten hroot hlive
  by_cases hx : s.Below root x
  · have hold := (h.mem_ids_iff hlive).mpr hx
    have hafter : s.flatten.contains x = true ↔ s.flatten.Below root x := by
      rw [← h.mem_ids_merged_iff hroot hlive]
      refine ⟨fun hl => ?_, hmerged.contains⟩
      by_contra hm
      rw [contains, hrewrites.removed x hold hm] at hl
      cases hl
    rw [hafter, h.below_flatten_iff hroot hlive]
    simp only [hx, true_and, hheld.contains hold]
  · have hkept : ¬ s.GivesWay root x := fun hgone => hx hgone.2.1
    rw [contains_congr (h.node?_flatten hroot hlive hx)]
    simp only [hkept, not_false_eq_true, and_true]

/-- A node that is left below the root has its label, and lists what it gathers. -/
theorem ForestLinks.gathers (h : s.ForestLinks) (hroot : s.root = some root)
    (hlive : s.contains root = true) (hx : s.flatten.Below root x) :
    s.flatten.label? x = s.label? x ∧ s.Gathers x (s.flatten.children x) := by
  obtain ⟨⟨hheld, -⟩, hmerged, -⟩ := h.flatten hroot hlive
  exact hheld.flattens_merged.read hmerged x ((h.mem_ids_merged_iff hroot hlive).mpr hx)

theorem ForestLinks.operator?_flatten (h : s.ForestLinks) (hroot : s.root = some root)
    (hlive : s.contains root = true) (hx : s.flatten.Below root x) :
    s.flatten.operator? x = s.operator? x := by
  rw [operator?, operator?, (h.gathers hroot hlive hx).1]

/-- No compound that is left below the root has a child with its own operator. -/
theorem ForestLinks.flat (h : s.ForestLinks) (hroot : s.root = some root)
    (hlive : s.contains root = true) {p : NodeId} {op : Operator} (hp : s.flatten.Below root p)
    (hop : s.flatten.operator? p = some op) :
    ∀ c ∈ s.flatten.children p, s.flatten.operator? c ≠ some op := by
  intro c hc
  have hgathers := (h.gathers hroot hlive hp).2
  rw [h.operator?_flatten hroot hlive hp] at hop
  rw [Gathers, hop] at hgathers
  rw [h.operator?_flatten hroot hlive (hp.tail hc)]
  exact hgathers.operator?_ne c hc

/-- Each splice of a second flattening writes what is there. -/
theorem ForestLinks.flatten_flatten (h : s.ForestLinks) (hroot : s.root = some root)
    (hlive : s.contains root = true) : s.flatten.flatten = s.flatten := by
  obtain ⟨⟨-, hnodup⟩, hmerged, hrewrites⟩ := h.flatten hroot hlive
  have hkept : s.flatten.root = some (s.unfold root).merged.id := by
    rw [hrewrites.shrinks.root.set root hroot hlive, id_merged, unfold_id, if_pos]
    rw [← unfold_id s root, ← id_merged]
    exact hmerged.contains (id_mem_ids _)
  refine flatten_of_fixed fun x hx => ?_
  rw [postorder_eq hmerged (hnodup.sublist (ids_merged_sublist _)) hkept] at hx
  have hmem := postorder_subset _ hx
  have hbelow := (h.mem_ids_merged_iff hroot hlive).mp hmem
  exact splice_of_flat (fun c hc => hmerged.parent?_of_mem_children hmem hc)
    fun op hop => h.flat hroot hlive hbelow hop

end

/-- **What flattening does to a forest.** The nodes below the root with the operator of their parent
are removed, but for the root itself. All other nodes keep their labels, and those that are not
below the root are as they were. A compound that is left below the root lists what its old child
list spreads to, each node on the list has its link up there, and any other node lists what it did.
The root stays, and the ghost goes with its node only. So no compound has a child with its own
operator, the literals are the same, and flattening again changes nothing. -/
theorem flatten_exact (s : Store) (root : NodeId) (h : s.ForestLinks) (hroot : s.root = some root)
    (hlive : s.contains root = true) :
    (∀ x, s.flatten.contains x = true ↔ s.contains x = true ∧ ¬ s.GivesWay root x) ∧
    (∀ x, s.flatten.contains x = true → s.flatten.label? x = s.label? x) ∧
    (∀ x, ¬ s.Below root x → s.flatten.node? x = s.node? x) ∧
    (∀ x, s.flatten.Below root x ↔ s.Below root x ∧ ¬ s.GivesWay root x) ∧
    (∀ p, s.Below root p → ¬ s.GivesWay root p →
      (∀ op, s.operator? p = some op → ∀ cs,
        s.Spreads op (s.children p) cs ↔ s.flatten.children p = cs) ∧
      (s.operator? p = none → s.flatten.children p = s.children p) ∧
      ∀ c ∈ s.flatten.children p, s.flatten.parent? c = some p) ∧
    s.flatten.root = some root ∧ s.flatten.parent? root = s.parent? root ∧
    (∀ g, s.flatten.ghost = some g ↔ s.ghost = some g ∧ ¬ s.GivesWay root g) ∧
    (∀ p op, s.flatten.Below root p → s.flatten.operator? p = some op →
      ∀ c ∈ s.flatten.children p, s.flatten.operator? c ≠ some op) ∧
    s.flatten.literals = s.literals ∧
    s.flatten.flatten = s.flatten := by
  obtain ⟨⟨hheld, hnodup⟩, hmerged, hrewrites⟩ := h.flatten hroot hlive
  have hcontains := fun x => h.contains_flatten_iff (x := x) hroot hlive
  have hbelow := fun x => h.below_flatten_iff (x := x) hroot hlive
  have hkept : s.flatten.root = some root := by
    rw [hrewrites.shrinks.root.set root hroot hlive, if_pos]
    exact (hcontains root).mpr ⟨hlive, fun hgone => hgone.1 rfl⟩
  refine ⟨hcontains, fun x hx => ?_, fun x => h.node?_flatten hroot hlive, hbelow,
    fun p hp hstays => ?_, hkept, ?_, fun g => ?_, fun p op => h.flat hroot hlive, ?_,
    h.flatten_flatten hroot hlive⟩
  · by_cases hb : s.Below root x
    · exact (h.gathers hroot hlive ((hbelow x).mpr ⟨hb, ((hcontains x).mp hx).2⟩)).1
    · rw [label?, label?, h.node?_flatten hroot hlive hb]
  · have hp' := (hbelow p).mpr ⟨hp, hstays⟩
    have hgathers := (h.gathers hroot hlive hp').2
    refine ⟨fun op hop cs => ?_, fun hop => ?_, fun c hc => ?_⟩
    · rw [Gathers, hop] at hgathers
      exact ⟨hgathers.unique, fun he => he ▸ hgathers⟩
    · rwa [Gathers, hop] at hgathers
    · exact hmerged.parent?_of_mem_children ((h.mem_ids_merged_iff hroot hlive).mpr hp') hc
  · have htop := hmerged.parent?_top
    rwa [id_merged, unfold_id] at htop
  · rw [ghost_flatten_iff, hcontains]
    exact and_congr_right fun _ =>
      ⟨fun hstays hgone => (hstays hgone.2.2.contains).2 hgone, fun hstays hl => ⟨hl, hstays⟩⟩
  · obtain ⟨t, ht⟩ := hheld.whole.exists_shape?
    rw [hheld.literals_eq hnodup (by rw [unfold_id, hroot]) ht,
      hmerged.literals_eq (hnodup.sublist (ids_merged_sublist _))
        (by rw [id_merged, unfold_id, hkept])
        (by rw [shape?_merged, ht, Option.map_some]), Shape.literals_merged]

/-- A sum in a sum in the sum at the root, with the ghost on the one in the middle, and another sum
in a sum beside this tree. -/
def nestedSums : Store where
  slots := #[some ⟨.compound .add, none, [1, 2]⟩, some ⟨.compound .add, some 0, [3, 4]⟩,
    some ⟨.compound .multiply, some 0, []⟩, some ⟨.compound .add, some 1, [5]⟩,
    some ⟨.compound .group, some 1, []⟩,
    some ⟨.literal ⟨"a", .identifier 'a', by decide⟩, some 3, []⟩,
    some ⟨.compound .add, none, [7]⟩, some ⟨.compound .add, some 6, []⟩]
  root := some 0
  ghost := some 1

theorem forestLinks_nestedSums : nestedSums.ForestLinks := by
  have hin : ∀ p c, c ∈ nestedSums.children p → p ∈ List.range 8 := fun p c hc =>
    List.mem_range.mpr (lt_size_of_contains (contains_of_mem_children hc))
  refine ⟨fun p c hc => ?_, fun p => ?_, fun p c hc => ?_⟩
  · exact acyclic_of_lt (List.range 8) (hin p c hc) (by decide) p c .refl hc
  · cases hp : nestedSums.children p with
    | nil => exact List.nodup_nil
    | cons c rest =>
      rw [← hp]
      exact (by decide : ∀ p ∈ List.range 8, (nestedSums.children p).Nodup) p
        (hin p c (hp ▸ List.mem_cons_self ..))
  · exact (by decide : ∀ p ∈ List.range 8, ∀ c ∈ nestedSums.children p,
      nestedSums.parent? c = some p) p (hin p c hc) c hc

/-- Both inner sums of the tree give way, and the ghost goes with one of them. The other tree
stays. -/
theorem flatten_exact_nestedSums : nestedSums.ForestLinks ∧
    nestedSums.flatten.children 0 = [5, 4, 2] ∧ nestedSums.flatten.contains 1 = false ∧
      nestedSums.flatten.ghost ≠ some 1 ∧ nestedSums.flatten.node? 6 = nestedSums.node? 6 := by
  obtain ⟨hcontains, -, houtside, -, hlists, -, -, hghost, -⟩ :=
    flatten_exact nestedSums 0 forestLinks_nestedSums rfl rfl
  have hgone : nestedSums.GivesWay 0 1 :=
    ⟨by decide, .single (by decide), 0, .add, by decide, by decide, by decide⟩
  have hroot : ¬ nestedSums.GivesWay 0 0 := fun h => h.1 rfl
  have hleaf : ∀ c, nestedSums.operator? c ≠ some .add → nestedSums.Spreads .add [c] [c] :=
    fun c hc => .keep hc .nil
  have hinner : nestedSums.Spreads .add [3, 4] ([5] ++ [4]) :=
    .spread (by decide) (hleaf 5 (by decide)) (hleaf 4 (by decide))
  have hspread : nestedSums.Spreads .add [1, 2] ([5, 4] ++ [2]) :=
    .spread (by decide) hinner (hleaf 2 (by decide))
  refine ⟨forestLinks_nestedSums, ?_, ?_, fun hg => ((hghost 1).mp hg).2 hgone, ?_⟩
  · exact ((hlists 0 .refl hroot).1 .add (by decide) _).mp hspread
  · exact Bool.eq_false_iff.mpr fun hc => ((hcontains 1).mp hc).2 hgone
  · refine houtside 6 fun hb => ?_
    rcases Relation.ReflTransGen.cases_tail hb with he | ⟨p, -, hp⟩
    · cases he
    · have hup := forestLinks_nestedSums.listed p 6 hp
      cases hup

end ArithTree.Store
