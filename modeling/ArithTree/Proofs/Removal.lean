import ArithTree.Store.Lemmas
import Mathlib.Logic.Relation

/-!
# Reachability and removal

What can be reached from a node by child links, whatever the links are, and that removing a subtree
empties exactly the slots that are reached: `node?_removeAll_of_below` and
`node?_removeAll_of_not_below`.
-/

namespace ArithTree.Store

/-- `x` is `top` or is reached from it by going down child lists. -/
def Below (s : Store) : NodeId → NodeId → Prop := Relation.ReflTransGen fun p c => c ∈ s.children p

/-- `x` is reached from one of the nodes in `tops`. -/
def BelowAny (s : Store) (tops : List NodeId) (x : NodeId) : Prop := ∃ top ∈ tops, s.Below top x

theorem children_of_node? {s : Store} {id : NodeId} {node : Node} (h : s.node? id = some node) :
    s.children id = node.children := by
  rw [children, h]

theorem label?_of_node? {s : Store} {id : NodeId} {node : Node} (h : s.node? id = some node) :
    s.label? id = some node.label := by
  rw [label?, h, Option.map_some]

theorem children_of_node?_none {s : Store} {id : NodeId} (h : s.node? id = none) :
    s.children id = [] := by
  rw [children, h]

theorem children_congr {s t : Store} {id : NodeId} (h : t.node? id = s.node? id) :
    t.children id = s.children id := by
  rw [children, children, h]

/-! ## Erasing one node -/

@[simp] theorem size_slots_erase (s : Store) (id : NodeId) :
    (s.erase id).slots.size = s.slots.size := by
  simp [erase]

theorem children_erase (s : Store) (id other : NodeId) :
    (s.erase id).children other = if other = id then [] else s.children other := by
  by_cases h : other = id
  · rw [if_pos h]
    exact children_of_node?_none (by rw [node?_erase, if_pos h])
  · rw [if_neg h]
    exact children_congr (by rw [node?_erase, if_neg h])

theorem below_of_below_erase {s : Store} {id top x : NodeId} (h : (s.erase id).Below top x) :
    s.Below top x := by
  induction h with
  | refl => exact Relation.ReflTransGen.refl
  | tail _ hc ih =>
    rw [children_erase] at hc
    split at hc
    · cases hc
    · exact ih.tail hc

/-- A way down either passes `id`, for the last time on some child list of it, or does without. -/
theorem below_erase_cases {s : Store} (id : NodeId) {top x : NodeId} (h : s.Below top x) :
    x = id ∨ (s.erase id).BelowAny (top :: s.children id) x := by
  induction h using Relation.ReflTransGen.head_induction_on with
  | refl => exact Or.inr ⟨x, List.mem_cons_self .., Relation.ReflTransGen.refl⟩
  | @head a b hab _ ih =>
    rcases ih with hx | ⟨top, ht, hb⟩
    · exact Or.inl hx
    · rcases List.mem_cons.mp ht with rfl | ht
      · by_cases ha : a = id
        · exact Or.inr ⟨top, List.mem_cons_of_mem _ (ha ▸ hab), hb⟩
        · have hstep : top ∈ (s.erase id).children a := by
            rw [children_erase, if_neg ha]
            exact hab
          exact Or.inr ⟨a, List.mem_cons_self .., hb.head hstep⟩
      · exact Or.inr ⟨top, List.mem_cons_of_mem _ ht, hb⟩

/-- One step of removing everything that is reached from a stack of nodes. -/
theorem belowAny_cons_iff (s : Store) (id : NodeId) (pending : List NodeId) (x : NodeId) :
    s.BelowAny (id :: pending) x ↔
      x = id ∨ (s.erase id).BelowAny (s.children id ++ pending) x := by
  constructor
  · rintro ⟨top, ht, hx⟩
    rcases below_erase_cases id hx with hx | ⟨a, ha, hax⟩
    · exact Or.inl hx
    · rcases List.mem_cons.mp ha with rfl | ha
      · rcases List.mem_cons.mp ht with rfl | ht
        · -- an erased node reaches itself only
          rcases Relation.ReflTransGen.cases_head hax with rfl | ⟨c, hc, -⟩
          · exact Or.inl rfl
          · rw [children_erase, if_pos rfl] at hc
            cases hc
        · exact Or.inr ⟨a, List.mem_append_right _ ht, hax⟩
      · exact Or.inr ⟨a, List.mem_append_left _ ha, hax⟩
  · rintro (rfl | ⟨top, ht, hx⟩)
    · exact ⟨x, List.mem_cons_self .., Relation.ReflTransGen.refl⟩
    · have hx := below_of_below_erase hx
      rcases List.mem_append.mp ht with ht | ht
      · exact ⟨id, List.mem_cons_self .., hx.head ht⟩
      · exact ⟨top, List.mem_cons_of_mem _ ht, hx⟩

/-! ## Erasing everything below a stack of nodes -/

theorem removeAll_nil (s : Store) : s.removeAll [] = s := by
  rw [removeAll]

theorem removeAll_cons (s : Store) (id : NodeId) (pending : List NodeId) :
    s.removeAll (id :: pending) = (s.erase id).removeAll (s.children id ++ pending) := by
  rw [removeAll]

theorem size_slots_removeAll (s : Store) (pending : List NodeId) :
    (s.removeAll pending).slots.size = s.slots.size := by
  induction s, pending using removeAll.induct with
  | case1 s => rw [removeAll_nil]
  | case2 s id pending _ ih => rw [removeAll_cons, ih, size_slots_erase]

theorem node?_removeAll_of_not_below (s : Store) (pending : List NodeId) (x : NodeId)
    (h : ¬ s.BelowAny pending x) : (s.removeAll pending).node? x = s.node? x := by
  induction s, pending using removeAll.induct with
  | case1 s => rw [removeAll_nil]
  | case2 s id pending _ ih =>
    rw [belowAny_cons_iff, not_or] at h
    rw [removeAll_cons, ih h.2, node?_erase, if_neg h.1]

/-- A slot that is empty stays so. -/
theorem node?_removeAll_of_none (s : Store) (pending : List NodeId) (x : NodeId)
    (h : s.node? x = none) : (s.removeAll pending).node? x = none := by
  induction s, pending using removeAll.induct with
  | case1 s => rw [removeAll_nil, h]
  | case2 s id pending _ ih =>
    rw [removeAll_cons]
    apply ih
    rw [node?_erase, h, ite_self]

theorem node?_removeAll_of_below (s : Store) (pending : List NodeId) (x : NodeId)
    (h : s.BelowAny pending x) : (s.removeAll pending).node? x = none := by
  induction s, pending using removeAll.induct with
  | case1 s =>
    obtain ⟨top, ht, -⟩ := h
    cases ht
  | case2 s id pending _ ih =>
    rw [removeAll_cons]
    rcases (belowAny_cons_iff s id pending x).mp h with rfl | h
    · apply node?_removeAll_of_none
      rw [node?_erase, if_pos rfl]
    · exact ih h

/-- The root or the ghost, seen as `mark`, stays unless it is reached. -/
theorem mark_removeAll_of_not_below (mark : Store → Option NodeId)
    (hmark : ∀ s id, mark (s.erase id) = if mark s = some id then none else mark s) (s : Store)
    (pending : List NodeId) (h : ∀ x, mark s = some x → ¬ s.BelowAny pending x) :
    mark (s.removeAll pending) = mark s := by
  induction s, pending using removeAll.induct with
  | case1 s => rw [removeAll_nil]
  | case2 s id pending _ ih =>
    have same : mark (s.erase id) = mark s := by
      have : mark s ≠ some id := fun hx =>
        h id hx ⟨id, List.mem_cons_self .., Relation.ReflTransGen.refl⟩
      rw [hmark, if_neg this]
    rw [removeAll_cons, ih, same]
    intro x hx hb
    rw [same] at hx
    exact h x hx ((belowAny_cons_iff s id pending x).mpr (Or.inr hb))

theorem mark_removeAll_of_none (mark : Store → Option NodeId)
    (hmark : ∀ s id, mark (s.erase id) = if mark s = some id then none else mark s) (s : Store)
    (pending : List NodeId) (h : mark s = none) : mark (s.removeAll pending) = none := by
  rw [mark_removeAll_of_not_below mark hmark, h]
  intro x hx
  rw [h] at hx
  cases hx

/-- A root or a ghost that is reached is taken off. -/
theorem mark_removeAll_of_below (mark : Store → Option NodeId)
    (hmark : ∀ s id, mark (s.erase id) = if mark s = some id then none else mark s) (s : Store)
    (pending : List NodeId) {x : NodeId} (hx : mark s = some x) (h : s.BelowAny pending x) :
    mark (s.removeAll pending) = none := by
  induction s, pending using removeAll.induct with
  | case1 s =>
    obtain ⟨top, ht, -⟩ := h
    cases ht
  | case2 s id pending _ ih =>
    rw [removeAll_cons]
    by_cases he : x = id
    · have gone : mark (s.erase id) = none := by rw [hmark, if_pos (he ▸ hx)]
      exact mark_removeAll_of_none mark hmark _ _ gone
    · refine ih ?_ (((belowAny_cons_iff s id pending x).mp h).resolve_left he)
      rw [hmark, hx, if_neg fun e => he (Option.some.inj e)]

/-! ## Taking a node off the list above it -/

/-- The node that the link up of `id` names no longer lists `id`. -/
def unlist (s : Store) (id : NodeId) : Store :=
  match s.parent? id with
  | some p => s.update p fun node => { node with children := node.children.filter (· ≠ id) }
  | none => s

theorem remove_eq (s : Store) (id : NodeId) : s.remove id = (s.unlist id).removeAll [id] := rfl

theorem node?_unlist (s : Store) (id x : NodeId) : (s.unlist id).node? x =
    if s.parent? id = some x then
      (s.node? x).map fun node => { node with children := node.children.filter (· ≠ id) }
    else s.node? x := by
  unfold unlist
  cases s.parent? id with
  | none => rfl
  | some p =>
    simp only [node?_update, Option.some.injEq, eq_comm (a := p)]
    split
    · next hx => rw [hx]
    · rfl

theorem children_unlist (s : Store) (id x : NodeId) : (s.unlist id).children x =
    if s.parent? id = some x then (s.children x).filter (· ≠ id) else s.children x := by
  have hread := node?_unlist s id x
  split at hread
  · next hx =>
    rw [if_pos hx, children, hread, children]
    cases s.node? x <;> rfl
  · next hx => rw [if_neg hx, children_congr hread]

/-- `id` is met at the start, so it does not matter that it is met no more on the list above it. -/
theorem below_unlist_iff (s : Store) (id x : NodeId) :
    (s.unlist id).Below id x ↔ s.Below id x := by
  constructor
  · intro h
    refine Relation.ReflTransGen.mono (fun p c hc => ?_) _ _ h
    rw [children_unlist] at hc
    split at hc
    · exact (List.mem_filter.mp hc).1
    · exact hc
  · intro h
    induction h with
    | refl => exact Relation.ReflTransGen.refl
    | @tail p c _ hc ih =>
      by_cases he : c = id
      · exact he ▸ Relation.ReflTransGen.refl
      · refine ih.tail ?_
        rw [children_unlist]
        split
        · exact List.mem_filter.mpr ⟨hc, by simpa using he⟩
        · exact hc

theorem belowAny_unlist_iff (s : Store) (id x : NodeId) :
    (s.unlist id).BelowAny [id] x ↔ s.Below id x := by
  rw [← below_unlist_iff]
  simp [BelowAny]

theorem node?_remove_of_below {s : Store} {id x : NodeId} (h : s.Below id x) :
    (s.remove id).node? x = none :=
  node?_removeAll_of_below _ _ x ((belowAny_unlist_iff s id x).mpr h)

theorem node?_remove_of_not_below {s : Store} {id x : NodeId} (h : ¬ s.Below id x) :
    (s.remove id).node? x = (s.unlist id).node? x :=
  node?_removeAll_of_not_below _ _ x fun hb => h ((belowAny_unlist_iff s id x).mp hb)

/-! ## What removing does to the marks -/

/-- A mark on a live node stays as long as the node does, and no mark is set. -/
structure Follows (mark : Store → Option NodeId) (s t : Store) : Prop where
  unset : mark s = none → mark t = none
  set : ∀ x, mark s = some x → s.contains x = true → mark t = if t.contains x then some x else none

/-- `t` comes from `s` by removing nodes and rewriting links. -/
structure Shrinks (s t : Store) : Prop where
  size : t.slots.size = s.slots.size
  live : ∀ x, t.contains x = true → s.contains x = true
  root : Follows Store.root s t
  ghost : Follows Store.ghost s t

theorem Follows.refl (mark : Store → Option NodeId) (s : Store) : Follows mark s s where
  unset h := h
  set x hx hl := by rw [hx, if_pos hl]

theorem Shrinks.refl (s : Store) : Shrinks s s := ⟨rfl, fun _ h => h, .refl _ s, .refl _ s⟩

theorem Follows.trans {mark : Store → Option NodeId} {r s t : Store} (h : Follows mark r s)
    (h' : Follows mark s t) (live : ∀ x, t.contains x = true → s.contains x = true) :
    Follows mark r t where
  unset hx := h'.unset (h.unset hx)
  set x hx hl := by
    have hs := h.set x hx hl
    by_cases hc : s.contains x = true
    · rw [if_pos hc] at hs
      exact h'.set x hs hc
    · rw [if_neg hc] at hs
      rw [if_neg fun ht => hc (live x ht), h'.unset hs]

theorem Shrinks.trans {r s t : Store} (h : Shrinks r s) (h' : Shrinks s t) : Shrinks r t where
  size := h'.size.trans h.size
  live x hx := h.live x (h'.live x hx)
  root := h.root.trans h'.root h'.live
  ghost := h.ghost.trans h'.ghost h'.live

@[simp] theorem contains_update (s : Store) (id x : NodeId) (f : Node → Node) :
    (s.update id f).contains x = s.contains x := by
  rw [contains, contains, node?_update]
  split
  · next h => rw [h, Option.isSome_map]
  · rfl

theorem shrinks_update (s : Store) (id : NodeId) (f : Node → Node) : Shrinks s (s.update id f) where
  size := size_slots_update s id f
  live x hx := by rwa [contains_update] at hx
  root := ⟨fun h => h, fun x hx hl => by rw [contains_update, if_pos hl, root_update, hx]⟩
  ghost := ⟨fun h => h, fun x hx hl => by rw [contains_update, if_pos hl, ghost_update, hx]⟩

theorem follows_removeAll (mark : Store → Option NodeId)
    (hmark : ∀ s id, mark (s.erase id) = if mark s = some id then none else mark s) (s : Store)
    (pending : List NodeId) : Follows mark s (s.removeAll pending) where
  unset h := mark_removeAll_of_none mark hmark s pending h
  set x hx hl := by
    by_cases hb : s.BelowAny pending x
    · rw [mark_removeAll_of_below mark hmark s pending hx hb, contains,
        node?_removeAll_of_below s pending x hb]
      rfl
    · have kept : ∀ y, mark s = some y → ¬ s.BelowAny pending y := by
        intro y hy
        rw [hx, Option.some.injEq] at hy
        exact hy ▸ hb
      rw [mark_removeAll_of_not_below mark hmark s pending kept, contains,
        node?_removeAll_of_not_below s pending x hb, ← contains, if_pos hl, hx]

theorem shrinks_removeAll (s : Store) (pending : List NodeId) :
    Shrinks s (s.removeAll pending) where
  size := size_slots_removeAll s pending
  live x hx := by
    cases hn : s.node? x with
    | none =>
      rw [contains, node?_removeAll_of_none s pending x hn] at hx
      cases hx
    | some node => exact contains_of_node? hn
  root := follows_removeAll Store.root (fun _ _ => rfl) s pending
  ghost := follows_removeAll Store.ghost (fun _ _ => rfl) s pending

theorem shrinks_remove (s : Store) (id : NodeId) : Shrinks s (s.remove id) := by
  unfold remove
  cases s.parent? id with
  | none => exact shrinks_removeAll s [id]
  | some p => exact (shrinks_update s p _).trans (shrinks_removeAll _ [id])

end ArithTree.Store
