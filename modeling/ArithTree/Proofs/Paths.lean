import ArithTree.Proofs.Removal
import ArithTree.Store.Path
import Mathlib.Data.Fintype.Card
import Mathlib.Data.List.Induction

/-!
# Paths and well-formed trees

What is reached from a node is what some path leads to. In a tree whose links are consistent
(`Rooted`) the path of a node is unique (`Rooted.path_unique`). Where child links close no circle it
is no longer than there are slots (`Acyclic.length_path_lt`), so in such a tree climbing up and
going down agree (`Rooted.pathOf?_eq_some_iff`).
-/

namespace ArithTree.Store

/-! ## Going down -/

theorem descend_cons_iff {s : Store} {a x : NodeId} {i : Nat} {p : List Nat} :
    s.descend a (i :: p) = some x ↔ ∃ c, (s.children a)[i]? = some c ∧ s.descend c p = some x := by
  rw [descend]
  cases (s.children a)[i]? with
  | none => simp
  | some c => simp

theorem descend_append_iff {s : Store} {a x : NodeId} {p q : List Nat} :
    s.descend a (p ++ q) = some x ↔ ∃ y, s.descend a p = some y ∧ s.descend y q = some x := by
  induction p generalizing a with
  | nil => simp [descend]
  | cons i p ih =>
    rw [List.cons_append, descend_cons_iff]
    simp only [ih, descend_cons_iff]
    constructor
    · rintro ⟨c, hc, y, hy, hx⟩
      exact ⟨y, ⟨c, hc, hy⟩, hx⟩
    · rintro ⟨y, ⟨c, hc, hy⟩, hx⟩
      exact ⟨c, hc, y, hy, hx⟩

theorem descend_singleton (s : Store) (a : NodeId) (i : Nat) :
    s.descend a [i] = (s.children a)[i]? := by
  rw [descend]
  cases (s.children a)[i]? <;> rfl

theorem descend_snoc_iff {s : Store} {a x : NodeId} {p : List Nat} {i : Nat} :
    s.descend a (p ++ [i]) = some x ↔
      ∃ y, s.descend a p = some y ∧ (s.children y)[i]? = some x := by
  simp only [descend_append_iff, descend_singleton]

theorem below_iff_descend {s : Store} {a x : NodeId} :
    s.Below a x ↔ ∃ p, s.descend a p = some x := by
  constructor
  · intro h
    induction h with
    | refl => exact ⟨[], rfl⟩
    | @tail y x _ hx ih =>
      obtain ⟨p, hp⟩ := ih
      obtain ⟨i, hi⟩ := List.mem_iff_getElem?.mp hx
      exact ⟨p ++ [i], descend_snoc_iff.mpr ⟨y, hp, hi⟩⟩
  · rintro ⟨p, hp⟩
    induction p generalizing a with
    | nil =>
      obtain rfl : a = x := Option.some.inj hp
      exact Relation.ReflTransGen.refl
    | cons i p ih =>
      obtain ⟨c, hc, hx⟩ := descend_cons_iff.mp hp
      exact (ih hx).head (List.mem_of_getElem? hc)

/-! ## Climbing up -/

theorem getElem?_of_idxOf? {l : List NodeId} {x : NodeId} {i : Nat} (h : l.idxOf? x = some i) :
    l[i]? = some x := by
  rw [List.idxOf?, List.findIdx?_eq_some_iff_getElem] at h
  obtain ⟨hlt, hget, -⟩ := h
  rw [List.getElem?_eq_getElem hlt, eq_of_beq hget]

/-- Where no handle is listed twice, the first position is the only one. -/
theorem idxOf?_eq_some_iff {l : List NodeId} (h : l.Nodup) {x : NodeId} {i : Nat} :
    l.idxOf? x = some i ↔ l[i]? = some x := by
  refine ⟨getElem?_of_idxOf?, fun hi => ?_⟩
  obtain ⟨j, hj⟩ : ∃ j, l.idxOf? x = some j := by
    rw [← Option.ne_none_iff_exists', Ne, List.idxOf?_eq_none_iff, not_not]
    exact List.mem_of_getElem? hi
  obtain ⟨hlt, -⟩ := List.getElem?_eq_some_iff.mp hi
  rw [hj, (List.getElem?_inj hlt h).mp (hi.trans (getElem?_of_idxOf? hj).symm)]

theorem getElem?_of_position? {s : Store} {id p : NodeId} {i : Nat} (hp : s.parent? id = some p)
    (hi : s.position? id = some i) : (s.children p)[i]? = some id := by
  rw [position?, hp] at hi
  exact getElem?_of_idxOf? hi

theorem nodeAt?_of_climb {s : Store} {steps : Nat} {id : NodeId} {path q : List Nat}
    (h : s.climb steps id path = some q) : ∃ p, q = p ++ path ∧ s.nodeAt? p = some id := by
  induction steps generalizing id path with
  | zero => cases h
  | succ steps ih =>
    rw [climb] at h
    cases hp : s.parent? id with
    | none =>
      simp only [hp] at h
      split at h
      · next hr =>
        obtain rfl : path = q := Option.some.inj h
        exact ⟨[], rfl, by rw [nodeAt?, hr]; rfl⟩
      · cases h
    | some p =>
      cases hi : s.position? id with
      | none =>
        simp only [hp, hi] at h
        cases h
      | some i =>
        simp only [hp, hi] at h
        obtain ⟨r, rfl, hr⟩ := ih h
        refine ⟨r ++ [i], by simp, ?_⟩
        cases hroot : s.root with
        | none => simp [nodeAt?, hroot] at hr
        | some root =>
          simp only [nodeAt?, hroot] at hr ⊢
          exact descend_snoc_iff.mpr ⟨p, hr, getElem?_of_position? hp hi⟩

/-- On any store, a path that is found is a path that leads back. -/
theorem nodeAt?_of_pathOf? {s : Store} {id : NodeId} {p : List Nat} (h : s.pathOf? id = some p) :
    s.nodeAt? p = some id := by
  obtain ⟨q, rfl, hq⟩ := nodeAt?_of_climb h
  rwa [List.append_nil]

/-! ## Consistent links -/

/-- The links below the root are consistent: the root is live and has no link up, and every node
on a child list is listed there once and has a link up to the node that lists it. -/
structure Rooted (s : Store) (root : NodeId) : Prop where
  marked : s.root = some root
  live : s.contains root = true
  top : s.parent? root = none
  listed : ∀ p c, s.Below root p → c ∈ s.children p → s.parent? c = some p
  once : ∀ p, s.Below root p → (s.children p).Nodup

/-- The links are consistent and every live node is in the tree. -/
structure WellFormed (s : Store) (root : NodeId) : Prop extends Rooted s root where
  reached : ∀ x, s.contains x = true → s.Below root x

/-- Child links below `top` close no circle. -/
def Acyclic (s : Store) (top : NodeId) : Prop :=
  ∀ p c, s.Below top p → c ∈ s.children p → ¬ s.Below c p

section

variable {s : Store} {met : List NodeId} {a x : NodeId}

/-- Where children come after their parents in the order of handles, going down does not go back. -/
theorem Below.mem_and_le (hstep : ∀ p ∈ met, ∀ c ∈ s.children p, c ∈ met ∧ p < c) (ha : a ∈ met)
    (hx : s.Below a x) : x ∈ met ∧ a ≤ x := by
  induction hx with
  | refl => exact ⟨ha, Nat.le_refl a⟩
  | @tail y z _ hz ih =>
    obtain ⟨hin, hlt⟩ := hstep y ih.1 z hz
    exact ⟨hin, Nat.le_trans ih.2 (Nat.le_of_lt hlt)⟩

theorem acyclic_of_lt (met : List NodeId) (ha : a ∈ met)
    (hstep : ∀ p ∈ met, ∀ c ∈ s.children p, c ∈ met ∧ p < c) : s.Acyclic a := by
  intro p c hp hc hback
  obtain ⟨hin, hlt⟩ := hstep p (hp.mem_and_le hstep ha).1 c hc
  exact Nat.not_lt.mpr (hback.mem_and_le hstep hin).2 hlt

end

section

variable {s : Store} {root : NodeId}

theorem contains_of_parent? {x p : NodeId} (h : s.parent? x = some p) : s.contains x = true := by
  rw [parent?] at h
  rw [contains]
  cases hn : s.node? x with
  | none => rw [hn] at h; cases h
  | some node => rfl

theorem contains_of_mem_children {p c : NodeId} (h : c ∈ s.children p) : s.contains p = true := by
  cases hn : s.node? p with
  | none =>
    rw [children_of_node?_none hn] at h
    cases h
  | some node => exact contains_of_node? hn

theorem Rooted.nodeAt?_eq (h : s.Rooted root) (p : List Nat) : s.nodeAt? p = s.descend root p := by
  rw [nodeAt?, h.marked]

/-- A node with a link up is not the root. -/
theorem Rooted.ne_root (h : s.Rooted root) {x p : NodeId} (hx : s.parent? x = some p) :
    x ≠ root := by
  rintro rfl
  rw [h.top] at hx
  cases hx

theorem Rooted.parent?_of_snoc (h : s.Rooted root) {y x : NodeId} {p : List Nat} {i : Nat}
    (hy : s.descend root p = some y) (hi : (s.children y)[i]? = some x) : s.parent? x = some y :=
  h.listed y x (below_iff_descend.mpr ⟨p, hy⟩) (List.mem_of_getElem? hi)

theorem Rooted.position?_of_snoc (h : s.Rooted root) {y x : NodeId} {p : List Nat} {i : Nat}
    (hy : s.descend root p = some y) (hi : (s.children y)[i]? = some x) :
    s.position? x = some i := by
  rw [position?, h.parent?_of_snoc hy hi]
  exact (idxOf?_eq_some_iff (h.once y (below_iff_descend.mpr ⟨p, hy⟩))).mpr hi

/-- Everything below the root is live. -/
theorem Rooted.contains (h : s.Rooted root) {x : NodeId} (hx : s.Below root x) :
    s.contains x = true := by
  rcases Relation.ReflTransGen.cases_tail hx with rfl | ⟨p, hp, hc⟩
  · exact h.live
  · exact contains_of_parent? (h.listed p x hp hc)

/-- **Path uniqueness.** Links up are unique and child lists hold no node twice, so two ways down
to one node agree from their ends on. -/
theorem Rooted.path_unique (h : s.Rooted root) {p q : List Nat} {x : NodeId}
    (hp : s.descend root p = some x) (hq : s.descend root q = some x) : p = q := by
  have not_root {r : List Nat} {i : Nat} (hr : s.descend root (r ++ [i]) = some root) : False := by
    obtain ⟨y, hy, hi⟩ := descend_snoc_iff.mp hr
    exact h.ne_root (h.parent?_of_snoc hy hi) rfl
  induction p using List.reverseRecOn generalizing q x with
  | nil =>
    obtain rfl : root = x := Option.some.inj hp
    rcases List.eq_nil_or_concat q with rfl | ⟨q, j, rfl⟩
    · rfl
    · exact (not_root (by rwa [List.concat_eq_append] at hq)).elim
  | append_singleton p i ih =>
    rcases List.eq_nil_or_concat q with rfl | ⟨q, j, rfl⟩
    · obtain rfl : root = x := Option.some.inj hq
      exact (not_root hp).elim
    · rw [List.concat_eq_append] at hq ⊢
      obtain ⟨y, hy, hi⟩ := descend_snoc_iff.mp hp
      obtain ⟨z, hz, hj⟩ := descend_snoc_iff.mp hq
      obtain rfl : y = z := Option.some.inj ((h.parent?_of_snoc hy hi).symm.trans
        (h.parent?_of_snoc hz hj))
      have hnodup := h.once y (below_iff_descend.mpr ⟨p, hy⟩)
      obtain ⟨hlt, -⟩ := List.getElem?_eq_some_iff.mp hi
      rw [ih hy hz, (List.getElem?_inj hlt hnodup).mp (hi.trans hj.symm)]

/-- A node with a parent is somewhere on its child list. -/
theorem Rooted.exists_position (h : s.Rooted root) {x parent : NodeId} (hx : s.Below root x)
    (hparent : s.parent? x = some parent) : ∃ (path : List Nat) (position : Nat),
      s.descend root path = some parent ∧ (s.children parent)[position]? = some x := by
  obtain ⟨p, hp⟩ := below_iff_descend.mp hx
  rcases List.eq_nil_or_concat p with rfl | ⟨q, i, rfl⟩
  · exact absurd (Option.some.inj hp).symm (h.ne_root hparent)
  · rw [List.concat_eq_append] at hp
    obtain ⟨y, hy, hi⟩ := descend_snoc_iff.mp hp
    obtain rfl : parent = y := Option.some.inj (hparent.symm.trans (h.parent?_of_snoc hy hi))
    exact ⟨q, i, hy, hi⟩

/-- The link up of a node in the tree goes to the node that lists it. -/
theorem Rooted.mem_children_of_parent? (h : s.Rooted root) {p c : NodeId}
    (hc : s.Below root c) (hp : s.parent? c = some p) : s.Below root p ∧ c ∈ s.children p := by
  obtain ⟨path, i, hpath, hi⟩ := h.exists_position hc hp
  exact ⟨below_iff_descend.mpr ⟨path, hpath⟩, List.mem_of_getElem? hi⟩

theorem WellFormed.exists_parent (h : s.WellFormed root) {x : NodeId} (hx : s.contains x = true)
    (hne : x ≠ root) : ∃ parent, s.parent? x = some parent := by
  rcases Relation.ReflTransGen.cases_tail (h.reached x hx) with rfl | ⟨p, hp, hc⟩
  · exact absurd rfl hne
  · exact ⟨p, h.listed p x hp hc⟩

/-- Child links below a root close no circle. -/
theorem Rooted.acyclic (h : s.Rooted root) {p c : NodeId} (hp : s.Below root p)
    (hc : c ∈ s.children p) : ¬ s.Below c p := by
  intro hround
  obtain ⟨q, hq⟩ := below_iff_descend.mp hp
  obtain ⟨i, hi⟩ := List.mem_iff_getElem?.mp hc
  obtain ⟨r, hr⟩ := below_iff_descend.mp hround
  have hlong : s.descend root (q ++ (i :: r)) = some p :=
    descend_append_iff.mpr ⟨p, hq, descend_cons_iff.mpr ⟨c, hi, hr⟩⟩
  have hlen := congrArg List.length (h.path_unique hq hlong)
  simp at hlen

/-- No child list below a node holds the node itself. -/
theorem WellFormed.not_mem_children_below (h : s.WellFormed root) {top p : NodeId}
    (hp : s.Below top p) : top ∉ s.children p := fun hmem =>
  h.acyclic (h.reached p (contains_of_mem_children hmem)) hmem hp

/-- No path to a live node is longer than there are slots, since it meets no node twice. -/
theorem Acyclic.length_path_lt {top : NodeId} (h : s.Acyclic top) {p : List Nat} {x : NodeId}
    (hp : s.descend top p = some x) (hx : s.contains x = true) : p.length < s.slots.size := by
  have node_at (k : Nat) : ∃ y, s.descend top (p.take k) = some y ∧
      s.descend y (p.drop k) = some x := by
    rw [← p.take_append_drop k] at hp
    exact descend_append_iff.mp hp
  choose y hy hrest using node_at
  have hlive (k : Nat) : y k < s.slots.size := by
    have hl : s.contains (y k) = true := by
      have hstep := hrest k
      cases hdrop : p.drop k with
      | nil =>
        rw [hdrop] at hstep
        obtain rfl : y k = x := Option.some.inj hstep
        exact hx
      | cons i q =>
        rw [hdrop] at hstep
        obtain ⟨c, hc, -⟩ := descend_cons_iff.mp hstep
        exact contains_of_mem_children (List.mem_of_getElem? hc)
    exact lt_size_of_contains hl
  -- a later node is below a child of an earlier one
  have hlater : ∀ j k, j < k → k ≤ p.length → y j ≠ y k := by
    intro j k hjk hk he
    have hway := hy k
    rw [show k = j + (k - j) by omega, List.take_add, List.drop_eq_getElem_cons (by omega),
      show k - j = k - j - 1 + 1 by omega, List.take_succ_cons, descend_append_iff] at hway
    obtain ⟨z, hz, hdown⟩ := hway
    obtain rfl : y j = z := Option.some.inj ((hy j).symm.trans hz)
    obtain ⟨c, hc, hcy⟩ := descend_cons_iff.mp hdown
    rw [show j + (k - j - 1 + 1) = k by omega, ← he] at hcy
    exact h (y j) c (below_iff_descend.mpr ⟨_, hy j⟩) (List.mem_of_getElem? hc)
      (below_iff_descend.mpr ⟨_, hcy⟩)
  have hinj : Function.Injective fun k : Fin (p.length + 1) =>
      (⟨y k, hlive k⟩ : Fin s.slots.size) := by
    intro j k hjk
    have heq : y j = y k := congrArg Fin.val hjk
    rcases Nat.lt_trichotomy j k with hlt | he | hlt
    · exact absurd heq (hlater j k hlt (Nat.le_of_lt_succ k.isLt))
    · exact Fin.ext he
    · exact absurd heq.symm (hlater k j hlt (Nat.le_of_lt_succ j.isLt))
  have hcard := Fintype.card_le_of_injective _ hinj
  rw [Fintype.card_fin, Fintype.card_fin] at hcard
  exact hcard

theorem Rooted.length_path_lt (h : s.Rooted root) {p : List Nat} {x : NodeId}
    (hp : s.descend root p = some x) : p.length < s.slots.size :=
  Acyclic.length_path_lt (fun _ _ => h.acyclic) hp (h.contains (below_iff_descend.mpr ⟨p, hp⟩))

theorem Rooted.climb_eq (h : s.Rooted root) {p : List Nat} : ∀ {x : NodeId} (steps : Nat)
    (path : List Nat), s.descend root p = some x → p.length < steps →
      s.climb steps x path = some (p ++ path) := by
  induction p using List.reverseRecOn with
  | nil =>
    intro x steps path hp hsteps
    obtain rfl : root = x := Option.some.inj hp
    cases steps with
    | zero => cases hsteps
    | succ steps => simp [climb, h.top, h.marked]
  | append_singleton p i ih =>
    intro x steps path hp hsteps
    obtain ⟨y, hy, hi⟩ := descend_snoc_iff.mp hp
    have hparent := h.parent?_of_snoc hy hi
    have hposition := h.position?_of_snoc hy hi
    rw [List.length_append] at hsteps
    cases steps with
    | zero => cases hsteps
    | succ steps =>
      simp only [climb, hparent, hposition]
      rw [ih steps (i :: path) hy (Nat.lt_of_succ_lt_succ hsteps), List.append_assoc]
      rfl

/-- Climbing up finds the path on which a node is reached. -/
theorem Rooted.pathOf?_eq_some_iff (h : s.Rooted root) {x : NodeId} {p : List Nat} :
    s.pathOf? x = some p ↔ s.nodeAt? p = some x := by
  refine ⟨nodeAt?_of_pathOf?, fun hp => ?_⟩
  rw [h.nodeAt?_eq] at hp
  have hlen := h.length_path_lt hp
  rw [pathOf?, h.climb_eq _ [] hp (Nat.lt_succ_of_lt hlen), List.append_nil]

/-- The end of a path that is not empty is the position of the node in the child list of its parent,
and the rest leads to the parent. -/
theorem Rooted.parent_of_pathOf? (h : s.Rooted root) {x : NodeId} {path : List Nat} {position : Nat}
    (hx : s.pathOf? x = some (path ++ [position])) : ∃ parent, s.parent? x = some parent ∧
      s.nodeAt? path = some parent ∧ (s.children parent)[position]? = some x ∧
        s.position? x = some position := by
  rw [h.pathOf?_eq_some_iff, h.nodeAt?_eq] at hx
  obtain ⟨parent, hpath, hposition⟩ := descend_snoc_iff.mp hx
  exact ⟨parent, h.parent?_of_snoc hpath hposition, by rwa [h.nodeAt?_eq], hposition,
    h.position?_of_snoc hpath hposition⟩

/-- Only the root is on the empty path. -/
theorem Rooted.exists_snoc (h : s.Rooted root) {x : NodeId} {p : List Nat}
    (hx : s.pathOf? x = some p) (hne : s.root ≠ some x) :
    ∃ path position, p = path ++ [position] := by
  rcases List.eq_nil_or_concat p with rfl | ⟨path, position, rfl⟩
  · rw [h.pathOf?_eq_some_iff, h.nodeAt?_eq] at hx
    exact absurd (h.marked.trans hx) hne
  · exact ⟨path, position, List.concat_eq_append⟩

end

end ArithTree.Store
