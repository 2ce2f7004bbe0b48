import ArithTree.Placement
import ArithTree.Proofs.Forests
import ArithTree.Proofs.Parsing
import Mathlib.Algebra.BigOperators.Group.Finset.Piecewise
import Mathlib.Logic.Function.Iterate

/-!
# Removing on any links

Nothing keeps the links of a store in order: they may close circles, share nodes, and name nodes
that are gone. Removing a node is defined on all of them. Its loop ends, for every child list
becomes pending at most once (`turn_removeAll`), and it takes away what is reached from the node and
nothing else, the marks included (`removal_exact`). No other operation takes nodes away while a mark
is on them, so the ghost of a tree that was parsed or copied is live whatever is done to the tree
(`GhostLive.operation`).
-/

namespace ArithTree.Store

section

variable {s t : Store} {id x : NodeId}

/-! ## The loop -/

/-- Number of entries on all child lists. -/
def links (s : Store) : Nat := ∑ x ∈ Finset.range s.slots.size, (s.children x).length

/-- One turn of the loop: the topmost pending node is erased, and what it listed becomes pending. -/
def turn : Store × List NodeId → Store × List NodeId
  | (s, []) => (s, [])
  | (s, id :: pending) => (s.erase id, s.children id ++ pending)

/-- The list of an erased node does not count any more. -/
theorem links_erase (s : Store) (id : NodeId) :
    s.links = (s.erase id).links + (s.children id).length := by
  have hsplit : ∀ x, (s.children x).length =
      ((s.erase id).children x).length + if x = id then (s.children id).length else 0 := by
    intro x
    rw [children_erase]
    split
    · next hx => rw [hx, List.length_nil, Nat.zero_add]
    · rw [Nat.add_zero]
  have hid : (if id ∈ Finset.range s.slots.size then (s.children id).length else 0) =
      (s.children id).length := by
    by_cases hlt : id < s.slots.size
    · rw [if_pos (Finset.mem_range.mpr hlt)]
    · rw [children_of_node?_none (node?_eq_none_of_size_le (Nat.not_lt.mp hlt)), List.length_nil,
        ite_self]
  rw [links, Finset.sum_congr rfl fun x _ => hsplit x, Finset.sum_add_distrib,
    Finset.sum_ite_eq', hid, links, size_slots_erase]

/-- **The loop ends.** After as many turns as there are pending nodes and links, nothing is
pending. -/
theorem turn_removeAll (s : Store) (pending : List NodeId) :
    turn^[s.links + pending.length] (s, pending) = (s.removeAll pending, []) := by
  induction s, pending using removeAll.induct with
  | case1 s =>
    rw [removeAll_nil]
    exact Function.iterate_fixed rfl _
  | case2 s id pending _ ih =>
    have hcount : s.links + (id :: pending).length =
        (s.erase id).links + (s.children id ++ pending).length + 1 := by
      rw [links_erase s id, List.length_append, List.length_cons]
      omega
    rw [hcount, Function.iterate_succ_apply, removeAll_cons]
    exact ih

/-! ## What is left -/

/-- The survivors are the nodes that are not reached. -/
theorem contains_remove_iff (s : Store) (id x : NodeId) :
    (s.remove id).contains x = true ↔ s.contains x = true ∧ ¬ s.Below id x := by
  by_cases h : s.Below id x
  · rw [contains, node?_remove_of_below h]
    simp [h]
  · have hlive : (s.unlist id).contains x = s.contains x := by
      rw [contains, contains, node?_unlist]
      split
      · rw [Option.isSome_map]
      · rfl
    rw [contains_congr (node?_remove_of_not_below h), hlive]
    simp [h]

/-- The root or the ghost, seen as `mark`, is where it was, unless it is reached. -/
theorem mark_remove_iff (mark : Store → Option NodeId)
    (herase : ∀ s id, mark (s.erase id) = if mark s = some id then none else mark s)
    (hunlist : mark (s.unlist id) = mark s) :
    mark (s.remove id) = some x ↔ mark s = some x ∧ ¬ s.Below id x := by
  rw [remove_eq, ← hunlist]
  cases hm : mark (s.unlist id) with
  | none => simp [mark_removeAll_of_none mark herase _ [id] hm]
  | some y =>
    by_cases hb : s.Below id y
    · rw [mark_removeAll_of_below mark herase _ [id] hm ((belowAny_unlist_iff s id y).mpr hb)]
      simp only [reduceCtorEq, Option.some.injEq, false_iff, not_and, not_not]
      rintro rfl
      exact hb
    · have hkept : ∀ z, mark (s.unlist id) = some z → ¬ (s.unlist id).BelowAny [id] z := by
        intro z hz
        rw [hm, Option.some.injEq] at hz
        rwa [belowAny_unlist_iff, ← hz]
      rw [mark_removeAll_of_not_below mark herase _ [id] hkept, hm, Option.some.injEq]
      simp only [iff_self_and]
      rintro rfl
      exact hb

theorem root_unlist (s : Store) (id : NodeId) : (s.unlist id).root = s.root := by
  unfold unlist
  cases s.parent? id <;> rfl

theorem ghost_unlist (s : Store) (id : NodeId) : (s.unlist id).ghost = s.ghost := by
  unfold unlist
  cases s.parent? id <;> rfl

theorem ghost_remove_iff : (s.remove id).ghost = some x ↔ s.ghost = some x ∧ ¬ s.Below id x :=
  mark_remove_iff Store.ghost (fun _ _ => rfl) (ghost_unlist s id)

/-! ## Operations -/

/-- The ghost is no node that has been removed. -/
def GhostLive (s : Store) : Prop := ∀ g, s.ghost = some g → s.contains g = true

/-- A change of a tree by whoever holds it, with any handles. The ghost can be taken off a tree, but
only a placement sets one. -/
inductive Operation (s : Store) : Store → Prop
  | insert (label : Label) (parent : Option NodeId) : Operation s (s.insert label parent).2
  | append (parent child : NodeId) : Operation s (s.append parent child)
  | replaceChildren (parent : NodeId) (children : List NodeId) :
      Operation s (s.replaceChildren parent children)
  | takeChildren (id : NodeId) : Operation s (s.takeChildren id).2
  | remove (id : NodeId) : Operation s (s.remove id)
  | setRoot (id : NodeId) : Operation s (s.setRoot id)
  | setParent (id : NodeId) (parent : Option NodeId) : Operation s (s.setParent id parent)
  | flatten : Operation s s.flatten
  | clearGhost : Operation s s.clearGhost

/-- How a tree comes about: it is parsed, or copied from any store, with a move or without. -/
inductive Made : Store → Prop
  | parsed {options : ParserOptions} {text : String} {tree : Store} :
      Parser.parse options text = .ok tree → Made tree
  | copied (s : Store) (id : NodeId) : Made (s.deepCopy id)
  | placed {s : Store} {top : NodeId} {r : Relocation} {p : Placement} :
      s.place top r = .ok p → Made p.tree

theorem Shrinks.ghostLive (h : Shrinks s t) (hs : s.GhostLive) : t.GhostLive :=
  fun _ hg => (h.ghost.of_some hs hg).2

theorem shrinks_absorb (op : Operator) (cs : List NodeId) : ∀ s : Store,
    Shrinks s (absorb op cs s).2 := by
  induction cs with
  | nil => exact fun s => .refl s
  | cons c cs ih =>
    intro s
    rw [absorb]
    split
    · exact ((shrinks_update s c _).trans (shrinks_remove _ c)).trans (ih _)
    · exact ih s

theorem shrinks_replaceChildren (s : Store) (p : NodeId) (cs : List NodeId) :
    Shrinks s (s.replaceChildren p cs) :=
  (setParents_spec p cs s).1.trans (shrinks_update _ p _)

theorem shrinks_splice (s : Store) (id : NodeId) : Shrinks s (s.splice id) := by
  rw [splice]
  cases s.operator? id with
  | none => exact .refl s
  | some op => exact (shrinks_absorb op _ s).trans (shrinks_replaceChildren _ id _)

theorem shrinks_flatten (s : Store) : Shrinks s s.flatten := by
  have hfold : ∀ (ids : List NodeId) (s : Store), Shrinks s (ids.foldl splice s) := by
    intro ids
    induction ids with
    | nil => exact fun s => .refl s
    | cons id ids ih => exact fun s => (shrinks_splice s id).trans (ih _)
  exact hfold _ s

theorem ghost_insert_of_any (s : Store) (label : Label) (parent : Option NodeId) :
    (s.insert label parent).2.ghost = s.ghost := by
  cases parent <;> rfl

/-- **Operations keep the ghost live.** -/
theorem GhostLive.operation (h : s.GhostLive) (hop : Operation s t) : t.GhostLive := by
  cases hop with
  | insert label parent =>
    intro g hg
    rw [ghost_insert_of_any] at hg
    exact contains_insert s label parent (h g hg)
  | append parent child =>
    exact ((shrinks_update s parent _).trans (shrinks_setParent _ child _)).ghostLive h
  | replaceChildren parent children => exact (shrinks_replaceChildren s parent children).ghostLive h
  | takeChildren id => exact (shrinks_update s id _).ghostLive h
  | remove id => exact (shrinks_remove s id).ghostLive h
  | setRoot id => exact (shrinks_setParent s id none).ghostLive h
  | setParent id parent => exact (shrinks_setParent s id parent).ghostLive h
  | flatten => exact (shrinks_flatten s).ghostLive h
  | clearGhost =>
    intro g hg
    cases hg

theorem GhostLive.operations (h : s.GhostLive) (hrun : Relation.ReflTransGen Operation s t) :
    t.GhostLive := by
  induction hrun with
  | refl => exact h
  | tail _ hop ih => exact ih.operation hop

end

/-! ## Copies have a live ghost -/

section

open Unfolding hiding id

mutual

/-- Grafting keeps nodes and returns a live one, so what it marks is live. -/
theorem graft_live (marked : Option NodeId) : ∀ (u : Unfolding) {s : Store}, s.GhostLive →
    (graft marked u s).2.GhostLive ∧
      (∀ x, s.contains x = true → (graft marked u s).2.contains x = true) ∧
        ∀ copy, (graft marked u s).1 = some copy → (graft marked u s).2.contains copy = true
  | .dangling _, _, h => ⟨h, fun _ hx => hx, fun _ he => by cases he⟩
  | .node _ label below, s, h => by
    have hnew : (s.insert label none).2.contains (s.insert label none).1 = true := by
      rw [insert_fst, contains, node?_insert_none, if_pos rfl]
      rfl
    obtain ⟨hghost, hkept⟩ := graftAll_live marked (s.insert label none).1 below
      (h.operation (.insert label none))
    refine ⟨hghost, fun x hx => hkept x (contains_insert s label none hx), fun copy he => ?_⟩
    obtain rfl : (s.insert label none).1 = copy := Option.some.inj he
    exact hkept _ hnew

theorem graftAll_live (marked : Option NodeId) (parent : NodeId) : ∀ (us : List Unfolding)
    {s : Store}, s.GhostLive → (graftAll marked parent us s).GhostLive ∧
      ∀ x, s.contains x = true → (graftAll marked parent us s).contains x = true
  | [], _, h => ⟨h, fun _ hx => hx⟩
  | u :: rest, s, h => by
    obtain ⟨hghost, hkept, hlive⟩ := graft_live marked u h
    rw [graftAll]
    generalize graft marked u s = result at hghost hkept hlive
    obtain ⟨_ | copy, s'⟩ := result
    · obtain ⟨hghost', hkept'⟩ := graftAll_live marked parent rest hghost
      exact ⟨hghost', fun x hx => hkept' x (hkept x hx)⟩
    · have hsame : ∀ x, (s'.append parent copy).contains x = s'.contains x := fun x => by
        rw [append, setParent, list, contains_update, contains_update]
      have hmarked : (if marked = some u.id then (s'.append parent copy).mark copy
          else s'.append parent copy).GhostLive := by
        split
        · intro g hg
          obtain rfl : copy = g := Option.some.inj hg
          exact (hsame copy).trans (hlive copy rfl)
        · exact hghost.operation (.append parent copy)
      obtain ⟨hghost', hkept'⟩ := graftAll_live marked parent rest hmarked
      refine ⟨hghost', fun x hx => hkept' x ?_⟩
      have hx' := (hsame x).trans (hkept x hx)
      split <;> exact hx'

end

theorem Made.ghostLive {s : Store} (h : Made s) : s.GhostLive := by
  have hempty : Store.empty.GhostLive := fun g hg => by cases hg
  cases h with
  | parsed hparse =>
    obtain ⟨d, -, htree⟩ := Parser.isTree_of_parse hparse
    intro g hg
    rw [htree.ghost] at hg
    cases hg
  | copied source id =>
    obtain ⟨hghost, -⟩ := graft_live none (source.unfold id) hempty
    rw [deepCopy]
    generalize graft none (source.unfold id) .empty = result at hghost
    obtain ⟨_ | root, copy⟩ := result
    · exact hghost
    · exact hghost.operation (.setRoot root)
  | @placed source top r p hplace =>
    unfold place at hplace
    split at hplace
    · cases hplace
    · next u _ =>
      obtain ⟨hghost, -⟩ := graft_live (some r.node) u hempty
      generalize graft (some r.node) u .empty = result at hghost hplace
      obtain ⟨_ | root, copy⟩ := result
      · cases hplace
      · cases hmark : copy.ghost with
        | none =>
          simp only [hmark] at hplace
          cases hplace
        | some ghost =>
          simp only [hmark] at hplace
          obtain rfl := Except.ok.inj hplace
          exact hghost.operation (.setRoot root)

end

/-- **Removing is exact on any links.** On every store and for every handle, live or not, the loop
of a removal comes to its end. The live nodes that are reached from the handle by child lists are
gone, and all others have the label, the link up and the child list they had, but for the node named
by the link up of the handle, which no longer lists it. Root and ghost are taken off when they are
reached, and stay otherwise. So whatever is done to a tree that was parsed, copied or placed, its
ghost is never on a removed node. -/
theorem removal_exact :
    (∀ (s : Store) (id : NodeId),
      turn^[(s.unlist id).links + 1] (s.unlist id, [id]) = (s.remove id, []) ∧
      (∀ x, (s.remove id).contains x = true ↔ s.contains x = true ∧ ¬ s.Below id x) ∧
      (∀ x node, s.node? x = some node → ¬ s.Below id x → (s.remove id).node? x =
        some { node with children :=
          (if s.parent? id = some x then node.children.filter (· ≠ id) else node.children) }) ∧
      (∀ r, (s.remove id).root = some r ↔ s.root = some r ∧ ¬ s.Below id r) ∧
      ∀ g, (s.remove id).ghost = some g ↔ s.ghost = some g ∧ ¬ s.Below id g) ∧
    ∀ made t, Made made → Relation.ReflTransGen Operation made t →
      ∀ g, t.ghost = some g → t.contains g = true := by
  refine ⟨fun s id => ⟨turn_removeAll _ [id], contains_remove_iff s id, fun x node hn hx => ?_,
    fun r => ?_, fun g => ghost_remove_iff⟩,
    fun made t hmade hrun => hmade.ghostLive.operations hrun⟩
  · rw [node?_remove_of_not_below hx, node?_unlist, hn]
    split <;> rfl
  · exact mark_remove_iff Store.root (fun _ _ => rfl) (root_unlist s id)

/-- Two nodes that list each other, one of them twice, a third that lists one of them, and a root
that is gone. -/
def knot : Store where
  slots := #[some ⟨.compound .add, some 1, [1, 1, 9]⟩, some ⟨.compound .multiply, some 2, [0]⟩,
    some ⟨.compound .group, none, [1]⟩]
  root := some 9
  ghost := some 0

/-- Removing one of the two takes both away and leaves the third without a child. -/
theorem removal_exact_knot : (knot.remove 1).contains 0 = false ∧
    (knot.remove 1).node? 2 = some ⟨.compound .group, none, []⟩ ∧
      (knot.remove 1).root ≠ some 9 ∧ (knot.remove 1).ghost ≠ some 0 := by
  obtain ⟨-, hlive, hkept, hroot, hghost⟩ := removal_exact.1 knot 1
  have hring : knot.Below 1 0 := .single (by decide)
  have hout : ∀ x, knot.Below 1 x → x ≠ 2 := by
    intro x hx
    induction hx with
    | refl => decide
    | @tail y z _ hz ih =>
      rcases y with _ | _ | _ | y
      · obtain rfl | rfl : z = 1 ∨ z = 9 := by simpa [knot, children, node?] using hz
        all_goals decide
      · obtain rfl : z = 0 := by simpa [knot, children, node?] using hz
        decide
      · exact absurd rfl ih
      · simp [knot, children, node?] at hz
  refine ⟨?_, hkept 2 _ rfl fun hb => hout 2 hb rfl, fun hr => ?_, fun hg => ?_⟩
  · rw [Bool.eq_false_iff]
    exact fun hc => ((hlive 0).mp hc).2 hring
  · exact ((hroot 9).mp hr).2 (hring.tail (by decide))
  · exact ((hghost 0).mp hg).2 hring

end ArithTree.Store
