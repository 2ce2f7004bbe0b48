import ArithTree.Proofs.Renaming
import ArithTree.Proofs.Traversals

/-!
# Forests

While a tree is being put together a store holds several trees side by side, one of them perhaps
with the root. A forest is such a store: its two kinds of link say the same and child links close
no circle. Every node of a forest is the top of a tree that is held (`ForestLinks.holds`), and
adding, linking and removing nodes lead from forests to forests.
-/

namespace ArithTree.Store

open Unfolding hiding id

/-- Child links close no circle, no list holds a node twice, and a node has its link up to `p`
exactly when `p` lists it; so everything on a list is live, and it is on one list only. The root is
live and has no link up, and the ghost is live. -/
structure Forest (s : Store) : Prop where
  acyclic : ∀ p c, c ∈ s.children p → ¬ s.Below c p
  once : ∀ p, (s.children p).Nodup
  linked : ∀ p c, s.parent? c = some p ↔ c ∈ s.children p
  root : ∀ r, s.root = some r → s.contains r = true ∧ s.parent? r = none
  ghost : ∀ g, s.ghost = some g → s.contains g = true

section

variable {s t : Store}

theorem parent?_congr {x : NodeId} (h : t.node? x = s.node? x) : t.parent? x = s.parent? x := by
  rw [parent?, parent?, h]

theorem contains_congr {x : NodeId} (h : t.node? x = s.node? x) : t.contains x = s.contains x := by
  rw [contains, contains, h]

/-- Where the child lists have shrunk, no more is reached. -/
theorem Below.of_subset (h : ∀ x, t.children x ⊆ s.children x) {a b : NodeId}
    (hb : t.Below a b) : s.Below a b :=
  Relation.ReflTransGen.mono (fun x _ hc => h x hc) _ _ hb

/-! ## Trees in a forest -/

theorem Forest.eq_of_mem (h : s.Forest) {p q c : NodeId} (hp : c ∈ s.children p)
    (hq : c ∈ s.children q) : p = q := by
  have hup := (h.linked p c).mpr hp
  rw [(h.linked q c).mpr hq, Option.some.injEq] at hup
  exact hup.symm

/-- A forest with a root has a tree there. -/
theorem Forest.rooted (h : s.Forest) {root : NodeId} (hroot : s.root = some root) :
    s.Rooted root where
  marked := hroot
  live := (h.root root hroot).1
  top := (h.root root hroot).2
  listed p c _ hc := (h.linked p c).mpr hc
  once p _ := h.once p

theorem node?_setRoot (s : Store) (id x : NodeId) : (s.setRoot id).node? x =
    if x = id then (s.node? id).map fun node => { node with parent := none } else s.node? x :=
  node?_setParent s id x none

theorem children_setRoot (s : Store) (id x : NodeId) :
    (s.setRoot id).children x = s.children x := by
  by_cases hx : x = id
  · subst hx
    have hread := node?_setRoot s x x
    rw [if_pos rfl] at hread
    cases hn : s.node? x with
    | none => rw [children_of_node?_none hn, children_of_node?_none (by rw [hread, hn]; rfl)]
    | some node => rw [children_of_node? hn, children_of_node? (by rw [hread, hn]; rfl)]
  · exact children_congr (by rw [node?_setRoot, if_neg hx])

theorem below_setRoot_iff (s : Store) (id a b : NodeId) :
    (s.setRoot id).Below a b ↔ s.Below a b := by
  simp only [Below, children_setRoot]

/-- Child links close no circle, no list holds a node twice, and every node on a list is live and
has its link up to the node that lists it. Nothing is asked of other links up, of root and ghost. -/
structure ForestLinks (s : Store) : Prop where
  acyclic : ∀ p c, c ∈ s.children p → ¬ s.Below c p
  once : ∀ p, (s.children p).Nodup
  listed : ∀ p c, c ∈ s.children p → s.parent? c = some p

theorem Forest.links (h : s.Forest) : s.ForestLinks :=
  ⟨h.acyclic, h.once, fun p c => (h.linked p c).mpr⟩

/-- Cut off from what is above it, every node of a forest is the root of a tree. -/
theorem ForestLinks.rooted_setRoot (h : s.ForestLinks) {x : NodeId} (hx : s.contains x = true) :
    (s.setRoot x).Rooted x where
  marked := rfl
  live := by
    obtain ⟨n, hn⟩ := Option.isSome_iff_exists.mp hx
    rw [contains, node?_setRoot, if_pos rfl, hn]
    rfl
  top := by
    obtain ⟨n, hn⟩ := Option.isSome_iff_exists.mp hx
    rw [parent?, node?_setRoot, if_pos rfl, hn]
    rfl
  listed p c hp hc := by
    rw [below_setRoot_iff] at hp
    rw [children_setRoot] at hc
    have hne : c ≠ x := fun e => h.acyclic p c hc (e ▸ hp)
    have hread : (s.setRoot x).node? c = s.node? c := by rw [node?_setRoot, if_neg hne]
    rw [parent?_congr hread]
    exact h.listed p c hc
  once p _ := by
    rw [children_setRoot]
    exact h.once p

/-- **Every node of a forest is the top of a tree.** -/
theorem ForestLinks.holds (h : s.ForestLinks) {x : NodeId} (hx : s.contains x = true) :
    s.Holds (s.parent? x) (s.unfold x) ∧ (s.unfold x).ids.Nodup := by
  have hp := (h.rooted_setRoot hx).presents
  obtain ⟨n, hn⟩ := Option.isSome_iff_exists.mp hx
  have hid : ((s.setRoot x).unfold x).id = x := unfold_id _ x
  have hheld : s.Holds (s.parent? x) ((s.setRoot x).unfold x) := by
    refine hp.holds.reparent hp.nodup ?_ fun y _ hy => ?_
    · rw [hid, node?_setRoot, if_pos rfl, parent?, hn]
      rfl
    · rw [hid] at hy
      rw [node?_setRoot, if_neg hy]
  have hsame := unfold_of_holds hheld hp.nodup
  rw [hid] at hsame
  rw [hsame]
  exact ⟨hheld, hp.nodup⟩

/-! ## Trees are forests -/

theorem WellFormed.links {root : NodeId} (h : s.WellFormed root) : s.ForestLinks where
  acyclic p c hc := h.acyclic (h.reached p (contains_of_mem_children hc)) hc
  once p := by
    cases hn : s.node? p with
    | none =>
      rw [children_of_node?_none hn]
      exact List.nodup_nil
    | some node => exact h.once p (h.reached p (contains_of_node? hn))
  listed p c hc := h.listed p c (h.reached p (contains_of_mem_children hc)) hc

/-- A well-formed tree whose ghost is in it is a forest of one tree. -/
theorem WellFormed.forest {root : NodeId} (h : s.WellFormed root)
    (hghost : ∀ g, s.ghost = some g → s.contains g = true) : s.Forest where
  acyclic := h.links.acyclic
  once := h.links.once
  linked p c :=
    ⟨fun hp => (h.mem_children_of_parent? (h.reached c (contains_of_parent? hp)) hp).2,
      h.links.listed p c⟩
  root r hr := by
    rw [h.marked, Option.some.injEq] at hr
    exact hr ▸ ⟨h.live, h.top⟩
  ghost := hghost

theorem WellFormed.mem_preorder_iff {root : NodeId} (h : s.WellFormed root) {x : NodeId} :
    x ∈ s.preorder ↔ s.contains x = true := by
  have hp := h.toRooted.presents
  rw [preorder_eq hp.holds hp.nodup hp.root, h.mem_ids_iff]

theorem WellFormed.nodup_preorder {root : NodeId} (h : s.WellFormed root) : s.preorder.Nodup := by
  have hp := h.toRooted.presents
  rw [preorder_eq hp.holds hp.nodup hp.root]
  exact hp.nodup

/-- Going through a well-formed tree meets every live node once. -/
theorem WellFormed.length_preorder {root : NodeId} (h : s.WellFormed root) :
    s.preorder.length = s.size := by
  have hp := h.toRooted.presents
  rw [preorder_eq hp.holds hp.nodup hp.root,
    size_eq_length_ids hp.nodup fun x => (h.mem_ids_iff x).symm]

/-! ## Links that stay -/

/-- Links make a forest, whatever the labels are, when root and ghost are in their place. -/
theorem Forest.of_links (h : s.Forest) (hchildren : ∀ x, t.children x = s.children x)
    (hparent : ∀ x, t.parent? x = s.parent? x)
    (hroot : ∀ r, t.root = some r → t.contains r = true ∧ s.parent? r = none)
    (hghost : ∀ g, t.ghost = some g → t.contains g = true) : t.Forest where
  acyclic p c hc := by
    rw [hchildren] at hc
    exact fun hb => h.acyclic p c hc (hb.of_subset fun x _ hx => hchildren x ▸ hx)
  once p := hchildren p ▸ h.once p
  linked p c := by rw [hparent, hchildren, h.linked p c]
  root r hr := ⟨(hroot r hr).1, (hparent r).trans (hroot r hr).2⟩
  ghost := hghost

theorem Forest.congr (h : s.Forest) (hread : ∀ x, t.node? x = s.node? x) (hroot : t.root = s.root)
    (hghost : t.ghost = s.ghost) : t.Forest := by
  refine h.of_links (fun x => children_congr (hread x)) (fun x => parent?_congr (hread x)) ?_ ?_
  · intro r hr
    rw [contains_congr (hread r)]
    exact h.root r (hroot ▸ hr)
  · intro g hg
    rw [contains_congr (hread g)]
    exact h.ghost g (hghost ▸ hg)

/-! ## Adding and linking -/

theorem contains_insert (s : Store) (label : Label) (parent : Option NodeId) {x : NodeId}
    (h : s.contains x = true) : (s.insert label parent).2.contains x = true := by
  have hnew : (s.insert label none).2.contains x = true := by
    rw [contains, node?_insert_none]
    split
    · rfl
    · exact h
  cases parent with
  | none => exact hnew
  | some p =>
    have hlist : (s.insert label (some p)).2.contains x = (s.insert label none).2.contains x := by
      simp only [insert, list, contains_update]
      simp only [contains, node?, Array.getElem?_push]
      split <;> rfl
    exact hlist.trans hnew

/-- A new node without a parent has no links. -/
theorem Forest.insert_none (h : s.Forest) (label : Label) : (s.insert label none).2.Forest := by
  have hread := node?_insert_none s label
  have hlive : ∀ x, s.contains x = true → (s.insert label none).2.contains x = true := fun _ =>
    contains_insert s label none
  have hnew := node?_eq_none_of_size_le (Nat.le_refl s.slots.size)
  have hsame : ∀ x, x ≠ s.slots.size → (s.insert label none).2.node? x = s.node? x := fun x hx => by
    rw [hread, if_neg hx]
  refine h.of_links (fun x => ?_) (fun x => ?_) ?_ ?_
  · by_cases hx : x = s.slots.size
    · rw [hx, children_of_node?_none hnew, children_of_node? (by rw [hread, if_pos rfl])]
    · exact children_congr (hsame x hx)
  · by_cases hx : x = s.slots.size
    · rw [hx, parent?, parent?, hnew, hread, if_pos rfl]
      rfl
    · exact parent?_congr (hsame x hx)
  · exact fun r hr => ⟨hlive r (h.root r hr).1, (h.root r hr).2⟩
  · exact fun g hg => hlive g (h.ghost g hg)

theorem children_append {p c : NodeId} (hne : p ≠ c) (hp : s.contains p = true) (x : NodeId) :
    (s.append p c).children x = if x = p then s.children p ++ [c] else s.children x := by
  obtain ⟨n, hn⟩ := Option.isSome_iff_exists.mp hp
  by_cases hxp : x = p
  · subst hxp
    rw [if_pos rfl, children_of_node? hn]
    exact children_of_node? (by rw [node?_append s hne, if_neg hne, if_pos rfl, hn]; rfl)
  · rw [if_neg hxp, children, node?_append s hne, if_neg hxp]
    by_cases hxc : x = c
    · rw [if_pos hxc, hxc, children]
      cases s.node? c <;> rfl
    · rw [if_neg hxc, children]

theorem parent?_append {p c : NodeId} (hne : p ≠ c) (hc : s.contains c = true) (x : NodeId) :
    (s.append p c).parent? x = if x = c then some p else s.parent? x := by
  obtain ⟨n, hn⟩ := Option.isSome_iff_exists.mp hc
  rw [parent?, node?_append s hne]
  by_cases hxc : x = c
  · rw [if_pos hxc, if_pos hxc, hn]
    rfl
  · rw [if_neg hxc, if_neg hxc, parent?]
    by_cases hxp : x = p
    · rw [if_pos hxp, hxp]
      cases s.node? p <;> rfl
    · rw [if_neg hxp]

/-- What is reached after `c` has been put under `p` was reached before, or the way passes the new
link. -/
theorem below_append_cases {p c a b : NodeId} (hne : p ≠ c) (hp : s.contains p = true)
    (hcp : ¬ s.Below c p) (h : (s.append p c).Below a b) :
    s.Below a b ∨ (s.Below a p ∧ s.Below c b) := by
  induction h with
  | refl => exact Or.inl Relation.ReflTransGen.refl
  | @tail y z _ hz ih =>
    rw [children_append hne hp] at hz
    split at hz
    · next hy =>
      subst hy
      have hay : s.Below a y := ih.elim (fun h => h) (fun h => absurd h.2 hcp)
      rcases List.mem_append.mp hz with hz | hz
      · exact Or.inl (hay.tail hz)
      · rw [List.mem_singleton.mp hz]
        exact Or.inr ⟨hay, Relation.ReflTransGen.refl⟩
    · exact ih.imp (fun h => h.tail hz) (fun h => ⟨h.1, h.2.tail hz⟩)

/-- Putting a parentless node under one that is not below it. -/
theorem Forest.append (h : s.Forest) {p c : NodeId} (hp : s.contains p = true)
    (hc : s.contains c = true) (hfree : s.parent? c = none) (hcp : ¬ s.Below c p)
    (hroot : s.root ≠ some c) : (s.append p c).Forest := by
  have hne : p ≠ c := by
    rintro rfl
    exact hcp Relation.ReflTransGen.refl
  have hchildren := children_append hne hp
  have hparent := parent?_append hne hc
  have hunlisted : ∀ q, c ∉ s.children q := by
    intro q hq
    rw [← h.linked, hfree] at hq
    cases hq
  have hlive : ∀ x, (s.append p c).contains x = s.contains x := by
    intro x
    rw [Store.append, setParent, list, contains_update, contains_update]
  refine ⟨fun q d hd hround => ?_, fun q => ?_, fun q d => ?_, fun r hr => ?_, fun g hg => ?_⟩
  · rw [hchildren] at hd
    have hold : d ∈ s.children q → False := fun hd => by
      rcases below_append_cases hne hp hcp hround with hb | ⟨hdp, hcq⟩
      · exact h.acyclic q d hd hb
      · exact hcp (hcq.trans (Relation.ReflTransGen.head hd hdp))
    split at hd
    · next hq =>
      rcases List.mem_append.mp hd with hd | hd
      · exact hold (hq ▸ hd)
      · rw [List.mem_singleton.mp hd, hq] at hround
        rcases below_append_cases hne hp hcp hround with hb | ⟨hb, -⟩ <;> exact hcp hb
    · exact hold hd
  · rw [hchildren]
    split
    · exact List.nodup_append.mpr ⟨h.once p, List.nodup_singleton c, fun x hx y hy => by
        rw [List.mem_singleton.mp hy]
        rintro rfl
        exact hunlisted p hx⟩
    · exact h.once q
  · rw [hparent, hchildren]
    by_cases hd : d = c
    · rw [if_pos hd, Option.some.injEq, hd]
      by_cases hq : q = p
      · simp [hq]
      · simp [hq, hunlisted q, Ne.symm hq]
    · rw [if_neg hd, h.linked]
      by_cases hq : q = p
      · simp [hq, hd]
      · rw [if_neg hq]
  · have hr : s.root = some r := hr
    have hrc : r ≠ c := fun e => hroot (e ▸ hr)
    rw [hlive, hparent, if_neg hrc]
    exact h.root r hr
  · rw [hlive]
    exact h.ghost g hg

/-- A new node under a live one reads as if it had been added first and then linked. -/
theorem Forest.insert (h : s.Forest) (label : Label) (parent : Option NodeId)
    (hparent : ∀ p, parent = some p → s.contains p = true) : (s.insert label parent).2.Forest := by
  cases parent with
  | none => exact h.insert_none label
  | some p =>
    have hnone := h.insert_none label
    have hread := node?_insert_none s label
    obtain ⟨n, hn⟩ := Option.isSome_iff_exists.mp (hparent p rfl)
    have hne : p ≠ s.slots.size := Nat.ne_of_lt (lt_size_of_contains (hparent p rfl))
    have hlink : ((s.insert label none).2.append p s.slots.size).Forest := by
      refine hnone.append ?_ ?_ ?_ (fun hb => ?_) fun hr => ?_
      · rw [contains, hread, if_neg hne, hn]
        rfl
      · rw [contains, hread, if_pos rfl]
        rfl
      · rw [parent?, hread, if_pos rfl]
        rfl
      · -- nothing is below the new node
        rcases Relation.ReflTransGen.cases_head hb with he | ⟨d, hd, -⟩
        · exact hne he.symm
        · rw [children, hread, if_pos rfl] at hd
          cases hd
      · exact Nat.lt_irrefl _ (lt_size_of_contains (h.root _ hr).1)
    refine hlink.congr (fun x => ?_) rfl rfl
    rw [node?_insert_some s label p x hne, node?_append _ hne, hread, hread, hread]
    by_cases hx : x = s.slots.size
    · rw [if_pos hx, if_pos hx, if_pos rfl]
      rfl
    · rw [if_neg hx, if_neg hx, if_neg hx, if_neg hne]

/-- A parentless node keeps its links when it is made the root. -/
theorem Forest.setRoot (h : s.Forest) {id : NodeId} (hlive : s.contains id = true)
    (hfree : s.parent? id = none) : (s.setRoot id).Forest := by
  have hkept : ∀ x, (s.setRoot id).contains x = s.contains x := fun x =>
    contains_update s id x _
  have hparent : ∀ x, (s.setRoot id).parent? x = s.parent? x := by
    intro x
    by_cases hx : x = id
    · rw [hx, hfree, parent?, node?_setRoot, if_pos rfl]
      cases s.node? id <;> rfl
    · exact parent?_congr (by rw [node?_setRoot, if_neg hx])
  refine h.of_links (children_setRoot s id) hparent (fun r hr => ?_) fun g hg => ?_
  · obtain rfl : id = r := Option.some.inj hr
    rw [hkept]
    exact ⟨hlive, hfree⟩
  · rw [hkept]
    exact h.ghost g hg

/-! ## Removing -/

/-- A mark that is left after removing was there before, on a node that is still live. -/
theorem Follows.of_some {mark : Store → Option NodeId} (h : Follows mark s t)
    (hlive : ∀ x, mark s = some x → s.contains x = true) {x : NodeId} (hx : mark t = some x) :
    mark s = some x ∧ t.contains x = true := by
  cases hs : mark s with
  | none =>
    rw [h.unset hs] at hx
    cases hx
  | some y =>
    have hy := h.set y hs (hlive y hs)
    rw [hx] at hy
    split at hy
    · next hl =>
      obtain rfl := Option.some.inj hy
      exact ⟨rfl, hl⟩
    · cases hy

/-- Before anything is erased, the node is taken off the only list that holds it. -/
theorem Forest.children_unlist (h : s.Forest) (id q : NodeId) :
    (s.unlist id).children q = (s.children q).filter (· ≠ id) := by
  rw [Store.children_unlist]
  split
  · rfl
  · next hup =>
    symm
    refine List.filter_eq_self.mpr fun c hc => ?_
    rw [decide_eq_true_eq]
    rintro rfl
    exact hup ((h.linked q c).mpr hc)

theorem parent?_unlist (s : Store) (id x : NodeId) :
    (s.unlist id).parent? x = s.parent? x := by
  have hread := node?_unlist s id x
  split at hread
  · rw [parent?, hread, parent?]
    cases s.node? x <;> rfl
  · exact parent?_congr hread

/-- Removing takes whole trees out of a forest. -/
theorem Forest.remove (h : s.Forest) (id : NodeId) : (s.remove id).Forest := by
  have hshrinks := shrinks_remove s id
  have hkept : ∀ q, ¬ s.Below id q → (s.remove id).children q = (s.children q).filter (· ≠ id) := by
    intro q hq
    rw [children_congr (node?_remove_of_not_below hq), h.children_unlist]
  have hall : ∀ q, (s.remove id).children q ⊆ s.children q := by
    intro q c hc
    by_cases hq : s.Below id q
    · rw [children_of_node?_none (node?_remove_of_below hq)] at hc
      cases hc
    · rw [hkept q hq] at hc
      exact (List.mem_filter.mp hc).1
  -- whoever lists a removed node is removed as well, but for the one above `id`
  have lister : ∀ q c, c ∈ s.children q → c ≠ id → s.Below id c → s.Below id q := by
    intro q c hc hne hb
    rcases Relation.ReflTransGen.cases_tail hb with rfl | ⟨p, hp, hpc⟩
    · exact absurd rfl hne
    · exact h.eq_of_mem hpc hc ▸ hp
  have stays : ∀ q c, c ∈ (s.remove id).children q → ¬ s.Below id c := by
    intro q c hc hb
    by_cases hq : s.Below id q
    · rw [children_of_node?_none (node?_remove_of_below hq)] at hc
      cases hc
    · rw [hkept q hq, List.mem_filter, decide_eq_true_eq] at hc
      exact hq (lister q c hc.1 hc.2 hb)
  have up : ∀ x, ¬ s.Below id x → (s.remove id).parent? x = s.parent? x := fun x hx =>
    (parent?_congr (node?_remove_of_not_below hx)).trans (parent?_unlist s id x)
  refine ⟨fun q d hd hb => h.acyclic q d (hall q hd) (hb.of_subset hall), fun q => ?_,
    fun q c => ⟨fun hq => ?_, fun hc => ?_⟩, fun r hr => ?_, fun g hg => ?_⟩
  · by_cases hq : s.Below id q
    · rw [children_of_node?_none (node?_remove_of_below hq)]
      exact List.nodup_nil
    · rw [hkept q hq]
      exact (h.once q).filter _
  · by_cases hc : s.Below id c
    · rw [parent?, node?_remove_of_below hc] at hq
      cases hq
    · rw [up c hc, h.linked] at hq
      have hne : c ≠ id := fun e => hc (e ▸ Relation.ReflTransGen.refl)
      rw [hkept q fun hb => hc (hb.tail hq), List.mem_filter, decide_eq_true_eq]
      exact ⟨hq, hne⟩
  · rw [up c (stays q c hc), h.linked]
    exact hall q hc
  · obtain ⟨hs, hlive⟩ := hshrinks.root.of_some (fun x hx => (h.root x hx).1) hr
    have hstays : ¬ s.Below id r := fun hb => by
      rw [contains, node?_remove_of_below hb] at hlive
      cases hlive
    exact ⟨hlive, (up r hstays).trans (h.root r hs).2⟩
  · exact (hshrinks.ghost.of_some h.ghost hg).2

end

end ArithTree.Store
