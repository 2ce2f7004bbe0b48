import ArithTree.Proofs.Edits
import ArithTree.Proofs.Memo
import ArithTree.Proofs.RoundTrip
import Mathlib

/-!
# Backtracking is a clean undo

Wherever the search makes an attempt, the store is a forest of what has been built and may still be
used (`Grows.forest`). An attempt that fails leaves every node as it was, also where trees have been
built on the way and removed again; one that succeeds puts one tree beside the others, which has the
compounds of a derivation and the text of the span as its formula (`backtracking_undone`).
-/

namespace ArithTree

/-- Number of nodes that the grammar puts below a node. -/
def Label.arity : Label → Nat
  | .compound .add => 2
  | .compound .multiply => 2
  | .compound .group => 1
  | .literal _ => 0

namespace Parser

open Shape

/-! ## Derivations before merging -/

/-- A derivation has the nodes that the grammar asks for. -/
theorem Derives.everywhere_arity {r : Rule} {w : List Char} {t : Shape} (h : Derives r w t) :
    t.Everywhere fun label below => below.length = label.arity := by
  induction h with
  | @binary c _ _ _ _ _ _ ihl ihr => cases c <;> exact ⟨rfl, ihl, ihr, trivial⟩
  | tighter _ ih => exact ih
  | group _ ih => exact ⟨rfl, ih, trivial⟩
  | literal _ => exact ⟨rfl, trivial⟩

/-- A derivation is written as the text that it derives, with every pair of parentheses. -/
theorem Derives.formula_eq {r : Rule} {w : List Char} {t : Shape} (h : Derives r w t) :
    t.formula.toList = w := by
  induction h with
  | @binary c u v l r _ _ ihl ihr =>
    rw [formula_chain, List.map_cons, List.map_singleton, ← ihl, ← ihr]
    simp [String.intercalate_cons_cons]
  | tighter _ ih => exact ih
  | group _ ih =>
    rw [formula, formulas, formulas, ← ih]
    simp
  | literal _ => rfl

end Parser

/-! ## Stores of trees -/

namespace Store

open Unfolding hiding id

/-- What has been built in an empty store is a forest, as long as no root is set and nothing is
marked. -/
theorem Grows.forest {s : Store} {us : List Unfolding} (h : Store.empty.Grows s us)
    (hroot : s.root = none) (hghost : s.ghost = none) : s.Forest := by
  have hheld := (holdsAll_iff s none us).mp h.holds
  have tree_of {x : NodeId} (hx : s.contains x = true) :
      ∃ u ∈ us, s.Holds none u ∧ u.ids.Nodup ∧ x ∈ u.ids := by
    obtain ⟨u, hu, hxu⟩ := mem_idsAll.mp (h.live x (Nat.zero_le x) hx)
    exact ⟨u, hu, hheld u hu, h.nodup.sublist (ids_sublist_idsAll hu), hxu⟩
  constructor
  case acyclic =>
    intro p c hc hback
    obtain ⟨u, -, hu, hnodup, hp⟩ := tree_of (contains_of_mem_children hc)
    have hrooted := (hu.presents_setRoot hnodup).2.rooted
    refine hrooted.acyclic ((below_setRoot_iff s _ _ _).mpr (hu.below_of_mem p hp)) ?_
      ((below_setRoot_iff s _ _ _).mpr hback)
    rwa [children_setRoot]
  case once =>
    intro p
    cases hn : s.node? p with
    | none =>
      rw [children_of_node?_none hn]
      exact List.nodup_nil
    | some node =>
      obtain ⟨u, -, hu, hnodup, hp⟩ := tree_of (contains_of_node? hn)
      exact hu.nodup_children hnodup hp
  case linked =>
    intro p c
    constructor
    · intro hup
      obtain ⟨u, -, hu, hnodup, hc⟩ := tree_of (contains_of_parent? hup)
      obtain ⟨v, up', rfl, hv, -, hlink⟩ := hu.occurrence hc
      rw [hv.parent?_top] at hup
      rcases hlink with ⟨-, hnone⟩ | ⟨q, -, hq, hlisted⟩
      · exact absurd (hnone.symm.trans hup) (by simp)
      · rw [hup, Option.some.injEq] at hq
        exact hq ▸ hlisted
    · intro hc
      obtain ⟨u, -, hu, -, hp⟩ := tree_of (contains_of_mem_children hc)
      exact hu.parent?_of_mem_children hp hc
  case root =>
    intro r hr
    rw [hroot] at hr
    cases hr
  case ghost =>
    intro g hg
    rw [hghost] at hg
    cases hg

/-- A tree is put beside the nodes of `before`: these are as they were, and all others are below
`top`, which has no parent. The links are those of a forest, every node of the tree has as many
children as the grammar puts there, and the formula of the tree is `text`. -/
structure Built (before after : Store) (top : NodeId) (text : List Char) : Prop where
  kept : ∀ x, before.contains x = true → after.node? x = before.node? x
  nodes : ∀ x, after.contains x = true ↔ before.contains x = true ∨ after.Below top x
  fresh : ∀ x, after.Below top x → before.contains x = false
  parentless : after.parent? top = none
  forest : after.Forest
  arity : ∀ x label, after.Below top x → after.label? x = some label →
    (after.children x).length = label.arity
  formula : (after.formulaOf top).toList = text

section

variable {before after : Store}

/-- Where nothing new has been built, every handle reads the same. -/
theorem Grows.node?_eq (h : Grows before after []) (x : NodeId) :
    after.node? x = before.node? x := by
  by_cases hx : x < before.slots.size
  · exact h.old x hx
  · have hnone : after.node? x = none :=
      Option.not_isSome_iff_eq_none.mp fun hl => by cases h.live x (Nat.le_of_not_lt hx) hl
    rw [hnone, node?_eq_none_of_size_le (Nat.le_of_not_lt hx)]

/-- What a derivation has added to a forest. -/
theorem Grows.built {u : Unfolding} (h : Grows before after [u]) (hforest : after.Forest)
    {r : Parser.Rule} {w : List Char} {t : Shape} (ht : u.shape? = some t)
    (hd : Parser.Derives r w t) : Built before after u.id w := by
  have hu : after.Holds none u := h.holds.1
  have hnodup : u.ids.Nodup := idsAll_singleton u ▸ h.nodup
  have mem (x : NodeId) : after.Below u.id x ↔ x ∈ idsAll [u] := by
    rw [idsAll_singleton, hu.below_iff]
  have harity := (hu.everywhere_iff _ ht).mp hd.everywhere_arity
  have old {x : NodeId} (hx : before.contains x = true) : after.node? x = before.node? x :=
    h.old x (lt_size_of_contains hx)
  constructor
  case kept => exact fun x => old
  case nodes =>
    intro x
    constructor
    · intro hx
      by_cases hlt : x < before.slots.size
      · rw [contains, h.old x hlt] at hx
        exact Or.inl hx
      · exact Or.inr ((mem x).mpr (h.live x (Nat.le_of_not_lt hlt) hx))
    · rintro (hx | hx)
      · rwa [contains, old hx]
      · exact hu.contains ((hu.below_iff x).mp hx)
  case fresh =>
    intro x hx
    rw [contains, node?_eq_none_of_size_le (h.fresh x ((mem x).mp hx))]
    rfl
  case parentless => exact hu.parent?_top
  case forest => exact hforest
  case arity =>
    intro x label hx hlabel
    have live : ∀ c ∈ after.children x, (after.label? c).isSome = true := by
      intro c hc
      obtain ⟨n, hn⟩ :=
        Option.isSome_iff_exists.mp (contains_of_parent? ((hforest.linked x c).mpr hc))
      rw [label?_of_node? hn]
      rfl
    rw [← harity x ((hu.below_iff x).mp hx) label hlabel]
    exact (List.filterMap_length_eq_length.mpr live).symm
  case formula =>
    rw [formulaOf, unfold_of_holds hu hnodup, u.formula_of_shape? hu.whole ht, hd.formula_eq]

end

end Store

/-! ## Attempts -/

namespace Parser.Search

/-- **Backtracking is a clean undo.** Let an attempt be made in the course of a parse. The nodes of
the store form a forest. If the attempt fails, every handle reads afterwards as it did before. If it
succeeds, all nodes are as they were, and the only new ones are those of one tree, which has the
span as its formula. -/
theorem backtracking_undone (input : Array Char) (memoize : Bool) (a : Attempt) (before : Search)
    (h : Reached input memoize a before) :
    before.store.Forest ∧
    (∀ after, attempt input memoize a.rule a.start a.stop before = (none, after) →
      ∀ x, after.store.node? x = before.store.node? x) ∧
    ∀ top after, attempt input memoize a.rule a.start a.stop before = (some top, after) →
      Store.Built before.store after.store top (span input a.start a.stop) := by
  obtain ⟨hwithin, hf, us, hus⟩ := h.invariant
  have hanswer : Answers input _ before (attempt input memoize a.rule a.start a.stop before) :=
    attempt_within hwithin hf
  refine ⟨hus.forest hf.root hf.ghost, fun after hafter => ?_, fun top after hafter => ?_⟩
  · rw [hafter] at hanswer
    cases hanswer with
    | none _ hg _ => exact hg.node?_eq
  · rw [hafter] at hanswer
    cases hanswer with
    | found ht hd hg hf' =>
      exact hg.built ((hus.trans hg).forest hf'.root hf'.ghost) ht hd

/-- In `a*b+` the node for `a` is made for a product of which nothing comes, and is gone again. From
`a+b` a sum is built, with the whole text as its formula. -/
theorem backtracking_undone_product :
    (∃ after, attempt #['a', '*', 'b', '+'] false (.chain .addition) 0 4 initial = (none, after) ∧
      ∀ x, after.store.node? x = none) ∧
    ∃ top after, attempt #['a', '+', 'b'] true (.chain .addition) 0 3 initial = (some top, after) ∧
      Store.Built .empty after.store top ['a', '+', 'b'] := by
  constructor
  · have hnone : (attempt #['a', '*', 'b', '+'] false (.chain .addition) 0 4 initial).1 = none := by
      cbv
    rcases hcall : attempt #['a', '*', 'b', '+'] false (.chain .addition) 0 4 initial with
      ⟨found, after⟩
    rw [hcall] at hnone
    obtain rfl : found = none := hnone
    exact ⟨after, rfl, (backtracking_undone _ false _ initial .whole).2.1 after hcall⟩
  · have hsome : (attempt #['a', '+', 'b'] true (.chain .addition) 0 3 initial).1.isSome =
      true := by
      cbv
    rcases hcall : attempt #['a', '+', 'b'] true (.chain .addition) 0 3 initial with ⟨found, after⟩
    rw [hcall] at hsome
    obtain ⟨top, rfl⟩ := Option.isSome_iff_exists.mp hsome
    exact ⟨top, after, rfl, (backtracking_undone _ true _ initial .whole).2.2 top after hcall⟩

end Parser.Search

end ArithTree
