import ArithTree.Proofs.Forests
import ArithTree.Proofs.Parsing
import ArithTree.Proofs.Placements
import Mathlib

/-!
# Edits keep forests

A store is put together by edits, each with conditions that the store itself does not check
(`Edit`). Every edit leads from a forest to a forest (`Forest.edit`), so every run of edits from the
empty store does, and what is parsed or copied is a single tree besides (`forests_kept`).
-/

namespace ArithTree.Store

open Unfolding hiding id children

/-- One edit of a store, where its conditions hold: a new node is put under a live node or under
none, a node that has no parent is put under a live node that is not below it, and a node that has
no parent is made the root. Removing takes any handle. -/
inductive Edit (s : Store) : Store → Prop
  | insert (label : Label) (parent : Option NodeId) :
      (∀ p, parent = some p → s.contains p = true) → Edit s (s.insert label parent).2
  | append (p c : NodeId) : s.contains p = true → s.contains c = true → s.parent? c = none →
      ¬ s.Below c p → s.root ≠ some c → Edit s (s.append p c)
  | setRoot (id : NodeId) : s.contains id = true → s.parent? id = none → Edit s (s.setRoot id)
  | remove (id : NodeId) : Edit s (s.remove id)
  | flatten : Edit s s.flatten
  | clearGhost : Edit s s.clearGhost

section

variable {s t : Store}

/-! ## Flattening -/

/-- Flattening rewrites the tree at the root and leaves the others alone. -/
theorem Forest.flatten (h : s.Forest) : s.flatten.Forest := by
  cases hroot : s.root with
  | none =>
    have hsame : s.flatten = s := by simp [Store.flatten, postorder, hroot]
    rwa [hsame]
  | some root =>
    have hrooted := h.rooted hroot
    obtain ⟨hmerged, hrewrites⟩ := hrooted.presents.flatten
    have hrooted' := hmerged.rooted
    rw [id_merged, unfold_id] at hrooted'
    have hsub := (ids_merged_sublist (s.unfold root)).subset
    have hmem : ∀ x, x ∈ (s.unfold root).merged.ids ↔ s.flatten.Below root x := by
      intro x
      rw [← hmerged.holds.below_iff, id_merged, unfold_id]
    -- the tree at the root and the rest have no links to each other
    have down : ∀ q c, c ∈ s.children q → q ∈ (s.unfold root).ids → c ∈ (s.unfold root).ids := by
      intro q c hc hq
      rw [hrooted.mem_ids_iff] at hq ⊢
      exact hq.tail hc
    have up : ∀ q c, c ∈ s.children q → c ∈ (s.unfold root).ids → q ∈ (s.unfold root).ids := by
      intro q c hc hin
      rw [hrooted.mem_ids_iff] at hin ⊢
      exact (hrooted.mem_children_of_parent? hin ((h.linked q c).mpr hc)).1
    have lister : ∀ q c, c ∈ s.flatten.children q → s.flatten.Below root q ∨
        (q ∉ (s.unfold root).ids ∧ c ∉ (s.unfold root).ids ∧ c ∈ s.children q) := by
      intro q c hc
      by_cases hq : q ∈ (s.unfold root).ids
      · refine Or.inl ((hmem q).mp ?_)
        by_contra hgone
        rw [children_of_node?_none (hrewrites.removed q hq hgone)] at hc
        cases hc
      · rw [children_congr (hrewrites.outside q hq)] at hc
        exact Or.inr ⟨hq, fun hin => hq (up q c hc hin), hc⟩
    refine ⟨fun q c hc hround => ?_, fun q => ?_, fun q c => ⟨fun hq => ?_, fun hc => ?_⟩,
      fun r hr => ?_, fun g hg => ?_⟩
    · rcases lister q c hc with hq | ⟨-, hout, hold⟩
      · exact hrooted'.acyclic hq hc hround
      · have stay : ∀ x, s.flatten.Below c x → x ∉ (s.unfold root).ids ∧ s.Below c x := by
          intro x hx
          induction hx with
          | refl => exact ⟨hout, Relation.ReflTransGen.refl⟩
          | @tail y z _ hz ih =>
            rw [children_congr (hrewrites.outside y ih.1)] at hz
            exact ⟨fun hin => ih.1 (up y z hz hin), ih.2.tail hz⟩
        exact h.acyclic q c hold (stay q hround).2
    · by_cases hq : q ∈ (s.unfold root).ids
      · by_cases hkept : q ∈ (s.unfold root).merged.ids
        · exact hrooted'.once q ((hmem q).mp hkept)
        · rw [children_of_node?_none (hrewrites.removed q hq hkept)]
          exact List.nodup_nil
      · rw [children_congr (hrewrites.outside q hq)]
        exact h.once q
    · by_cases hc : c ∈ (s.unfold root).ids
      · have hkept : c ∈ (s.unfold root).merged.ids := by
          by_contra hgone
          rw [parent?, hrewrites.removed c hc hgone] at hq
          cases hq
        exact (hrooted'.mem_children_of_parent? ((hmem c).mp hkept) hq).2
      · rw [parent?_congr (hrewrites.outside c hc), h.linked] at hq
        rwa [children_congr (hrewrites.outside q fun hin => hc (down q c hq hin))]
    · rcases lister q c hc with hq | ⟨-, hout, hold⟩
      · exact hrooted'.listed q c hq hc
      · rw [parent?_congr (hrewrites.outside c hout), h.linked]
        exact hold
    · rw [hrooted'.marked, Option.some.injEq] at hr
      exact hr ▸ ⟨hrooted'.live, hrooted'.top⟩
    · exact (hrewrites.shrinks.ghost.of_some h.ghost hg).2

end

/-! ## Runs of edits -/

theorem forest_empty : empty.Forest where
  acyclic p c hc := by cases hc
  once _ := List.nodup_nil
  linked p c := ⟨fun h => (by cases h), fun h => (by cases h)⟩
  root r hr := by cases hr
  ghost g hg := by cases hg

section

variable {s t : Store}

/-- **Edits keep forests.** -/
theorem Forest.edit (h : s.Forest) (e : Edit s t) : t.Forest := by
  cases e with
  | insert label parent hparent => exact h.insert label parent hparent
  | append p c hp hc hfree hcp hroot => exact h.append hp hc hfree hcp hroot
  | setRoot id hlive hfree => exact h.setRoot hlive hfree
  | remove id => exact h.remove id
  | flatten => exact h.flatten
  | clearGhost => exact h.of_links (fun _ => rfl) (fun _ => rfl) h.root (fun g hg => by cases hg)

theorem Forest.edits (h : s.Forest) (e : Relation.ReflTransGen Edit s t) : t.Forest := by
  induction e with
  | refl => exact h
  | tail _ hstep ih => exact ih.edit hstep

/-! ## Copies -/

/-- A forest of one tree: every live node hangs below the root, and going through the tree meets as
many nodes as there are. -/
structure OneTree (s : Store) : Prop extends Forest s where
  reached : ∀ x, s.contains x = true → ∃ root, s.root = some root ∧ s.Below root x
  counted : s.preorder.length = s.size

theorem WellFormed.oneTree {root : NodeId} (h : s.WellFormed root)
    (hghost : ∀ g, s.ghost = some g → s.contains g = true) : s.OneTree where
  toForest := h.forest hghost
  reached x hx := ⟨root, h.marked, h.reached x hx⟩
  counted := h.length_preorder

/-- A tree with a live node has a root, and its links are consistent. -/
theorem OneTree.exists_wellFormed (h : s.OneTree) {x : NodeId} (hx : s.contains x = true) :
    ∃ root, s.WellFormed root := by
  obtain ⟨root, hroot, -⟩ := h.reached x hx
  refine ⟨root, h.toForest.rooted hroot, fun y hy => ?_⟩
  obtain ⟨root', hroot', hbelow⟩ := h.reached y hy
  obtain rfl := Option.some.inj (hroot.symm.trans hroot')
  exact hbelow

theorem oneTree_empty : empty.OneTree where
  toForest := forest_empty
  reached x hx := by cases hx
  counted := rfl

/-- The copy of a node that is not live is empty, any other is a tree. -/
theorem Forest.deepCopy (h : s.Forest) (id : NodeId) : (s.deepCopy id).OneTree := by
  cases hn : s.node? id with
  | none =>
    rw [deepCopy_of_dead hn]
    exact oneTree_empty
  | some node =>
    obtain ⟨hheld, -⟩ := h.links.holds (contains_of_node? hn)
    obtain ⟨t, ht⟩ := hheld.whole.exists_shape?
    obtain ⟨v, hcopy, hlive, -, -, hghost⟩ := deepCopy_spec ht
    refine (hcopy.wellFormed hlive).oneTree fun g hg => ?_
    rw [hghost] at hg
    cases hg

/-- Copying with a relocation gives a tree with the copy of the moved node as its ghost. -/
theorem place_of_rearrange {u : Unfolding} {top : NodeId} {r : Relocation}
    (hu : rearrange r (s.unfold top) = .ok u) (hwhole : u.Whole) (hnodup : u.ids.Nodup)
    (hmem : r.node ∈ idsAll u.children) : ∃ p, s.place top r = .ok p ∧ p.tree.OneTree := by
  obtain ⟨v, f, hv, hghost, -, hids, hgrows⟩ := graft_empty hwhole hnodup hmem
  obtain ⟨hcopy, hlive⟩ := hgrows.presents
  refine ⟨⟨(graft (some r.node) u .empty).2.setRoot v.id, f r.node⟩, ?_, ?_⟩
  · simp only [Store.place, hu, hv, hghost]
  · refine (hcopy.wellFormed hlive).oneTree fun g hg => hcopy.holds.contains ?_
    obtain rfl : f r.node = g := Option.some.inj (hghost.symm.trans hg)
    rw [hids]
    exact List.mem_map_of_mem ((ids_children_sublist u).subset hmem)

/-- In a forest a node is placed among its siblings, or there is no such slot. -/
theorem ForestLinks.place (h : s.ForestLinks) (top : NodeId) (r : Relocation) :
    (∃ p, s.place top r = .ok p ∧ p.tree.OneTree) ∨
      ∃ siblings ≤ r.slot, s.place top r = .error (.noMoreCombinations r.slot siblings) := by
  by_cases hmem : r.node ∈ idsAll (s.unfold top).children
  · have hlive : s.contains top = true := by
      cases hn : s.node? top with
      | none =>
        rw [unfold_of_node?_none hn] at hmem
        cases hmem
      | some node => exact contains_of_node? hn
    obtain ⟨hheld, hnodup⟩ := h.holds hlive
    obtain ⟨parent, hparent, hlisted⟩ := hheld.exists_parent hnodup hmem
    by_cases hlt : r.slot < (s.children parent).length
    · obtain ⟨v, hv, hmoved, hperm, hid⟩ := rearrange_spec hparent hlisted hlt hheld hnodup
      have hbelow : r.node ∈ idsAll v.children := by
        have hall : (v.id :: idsAll v.children).Perm (v.id :: idsAll (s.unfold top).children) := by
          rw [← v.ids_eq, hid, ← (s.unfold top).ids_eq]
          exact hperm
        exact (List.Perm.cons_inv hall).mem_iff.mpr hmem
      exact Or.inl (place_of_rearrange hv hmoved.whole (hperm.nodup_iff.mpr hnodup) hbelow)
    · refine Or.inr ⟨(s.children parent).length, Nat.not_lt.mp hlt, ?_⟩
      simp only [Store.place, rearrange_of_le hparent (Nat.not_lt.mp hlt) hheld hmem]
  · exact Or.inr ⟨0, Nat.zero_le _, place_of_not_mem s top r hmem⟩

theorem Forest.place (h : s.Forest) (top : NodeId) (r : Relocation) :
    (∃ p, s.place top r = .ok p ∧ p.tree.OneTree) ∨
      ∃ siblings ≤ r.slot, s.place top r = .error (.noMoreCombinations r.slot siblings) :=
  h.links.place top r

end

theorem oneTree_of_parse {options : ParserOptions} {text : String} {tree : Store}
    (h : Parser.parse options text = .ok tree) : tree.OneTree := by
  obtain ⟨d, -, htree⟩ := Parser.isTree_of_parse h
  obtain ⟨root, hwf⟩ := htree.wellFormed
  refine hwf.oneTree fun g hg => ?_
  rw [htree.ghost] at hg
  cases hg

/-- **Edits and copies keep forests.** Every store that edits make from the empty one is a forest.
What is parsed is a single tree, and so is a copy of any part of a forest, with a node moved to a
slot or without; where no tree comes back, the slot is one that the siblings do not have. -/
theorem forests_kept :
    (∀ s, Relation.ReflTransGen Edit .empty s → s.Forest) ∧
    (∀ options text tree, Parser.parse options text = .ok tree → tree.OneTree) ∧
    (∀ (s : Store) id, s.Forest → (s.deepCopy id).OneTree) ∧
    (∀ (s : Store) top r, s.Forest → (∃ p, s.place top r = .ok p ∧ p.tree.OneTree) ∨
      ∃ siblings ≤ r.slot, s.place top r = .error (.noMoreCombinations r.slot siblings)) :=
  ⟨fun _ e => forest_empty.edits e, fun _ _ _ => oneTree_of_parse, fun _ id h => h.deepCopy id,
    fun _ top r h => h.place top r⟩

/-- The sum of two names is grown from its root. -/
theorem edits_sumOfNames : Relation.ReflTransGen Edit .empty sumOfNames := by
  have hroot : Relation.ReflTransGen Edit .empty (Store.empty.insert (.compound .add) none).2 :=
    .single (.insert _ none fun p h => by cases h)
  have hfirst := hroot.tail (.insert (.literal ⟨"a", .identifier 'a', ofToken?_a⟩) (some 0)
    fun p h => by cases h; rfl)
  have hsecond := hfirst.tail (.insert (.literal ⟨"b", .identifier 'b', ofToken?_b⟩) (some 0)
    fun p h => by cases h; rfl)
  exact hsecond.tail (.setRoot 0 rfl rfl)

/-- The sum of two names, a copy of it, one with the first name moved behind, and what is parsed. -/
theorem forests_kept_sumOfNames : Relation.ReflTransGen Edit .empty sumOfNames ∧
    sumOfNames.Forest ∧ (sumOfNames.deepCopy 0).OneTree ∧
      (∃ p, sumOfNames.place 0 ⟨1, 1⟩ = .ok p ∧ p.tree.OneTree) ∧
        ∃ tree, Parser.parse ⟨true, none⟩ "a+b" = .ok tree ∧ tree.OneTree := by
  obtain ⟨hedits, hparsed, hcopied, hplaced⟩ := forests_kept
  have hforest := hedits sumOfNames edits_sumOfNames
  have hparse : ∃ tree, Parser.parse ⟨true, none⟩ "a+b" = .ok tree := by
    cases h : Parser.parse ⟨true, none⟩ "a+b" with
    | ok tree => exact ⟨tree, rfl⟩
    | error e =>
      have hok : (Parser.parse ⟨true, none⟩ "a+b").isOk = true := by cbv
      rw [h] at hok
      cases hok
  obtain ⟨tree, hparse⟩ := hparse
  refine ⟨edits_sumOfNames, hforest, hcopied sumOfNames 0 hforest, ?_, tree, hparse,
    hparsed _ _ tree hparse⟩
  obtain ⟨p, hplace⟩ : ∃ p, sumOfNames.place 0 ⟨1, 1⟩ = .ok p := ⟨_, rfl⟩
  refine (hplaced sumOfNames 0 ⟨1, 1⟩ hforest).resolve_right ?_
  rintro ⟨siblings, -, herror⟩
  cases hplace.symm.trans herror

end ArithTree.Store
