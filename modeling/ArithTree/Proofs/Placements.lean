import ArithTree.Placement
import ArithTree.Proofs.Grafting
import ArithTree.Proofs.Relocation
import ArithTree.Proofs.Renaming

/-!
# Placements are complete

In a well-formed tree a node has one placement for each slot of its sibling list, and each is the
tree with the node moved there and marked (`place_of_lt`). A slot behind the list is refused
(`place_of_le`), and so is every slot of a node without siblings (`place_of_unlisted`). The three
ways to ask for placements give the same ones (`placements_complete`).
-/

namespace ArithTree

open Unfolding hiding id children

namespace Store

/-- `p` is the tree of `s` with the node moved within the child list of `parent`; the copy of the
node is the only ghost, on the slot that was asked for. -/
structure Relocates (s : Store) (parent : NodeId) (r : Relocation) (p : Placement) : Prop where
  wellFormed : ∃ root, p.tree.WellFormed root
  moved : ∃ f, (s.relocated parent r).Renaming f p.tree ∧ p.ghost = f r.node
  ghost : p.tree.ghost = some p.ghost
  slot : p.slot? = some r.slot
  path : ∃ path position, s.pathOf? r.node = some (path ++ [position]) ∧
    p.tree.pathOf? p.ghost = some (path ++ [r.slot])

section

variable {s : Store} {root parent : NodeId} {r : Relocation}

/-- The path of the ghost is that of the node but for its end. -/
theorem Relocates.pathOf?_ghost {p : Placement} (h : s.Relocates parent r p) {path : List Nat}
    {position : Nat} (hpath : s.pathOf? r.node = some (path ++ [position])) :
    p.tree.pathOf? p.ghost = some (path ++ [r.slot]) := by
  obtain ⟨path', position', hold, hnew⟩ := h.path
  rw [hpath, Option.some.injEq] at hold
  obtain ⟨rfl, -⟩ := List.append_inj' hold rfl
  exact hnew

/-! ## Nodes without siblings -/

theorem listed_of_mem_unfoldWithin (s : Store) (depth : Nat) {x : NodeId} : ∀ {top : NodeId},
    x ∈ idsAll (s.unfoldWithin depth top).children → ∃ p, s.Below top p ∧ x ∈ s.children p := by
  induction depth with
  | zero => exact fun h => (by cases h)
  | succ depth ih =>
    intro top h
    rw [unfoldWithin] at h
    cases hn : s.node? top with
    | none =>
      simp only [hn] at h
      cases h
    | some n =>
      simp only [hn, Unfolding.children] at h
      obtain ⟨u, hu, hx⟩ := mem_idsAll.mp h
      obtain ⟨c, hc, rfl⟩ := List.mem_map.mp hu
      have hstep : c ∈ s.children top := by rwa [children_of_node? hn]
      rw [ids_eq, unfoldWithin_id] at hx
      rcases List.mem_cons.mp hx with rfl | hx
      · exact ⟨top, Relation.ReflTransGen.refl, hstep⟩
      · obtain ⟨p, hp, hxp⟩ := ih hx
        exact ⟨p, hp.head hstep, hxp⟩

/-- On any store, a node that is not below `top` has no slot, and neither has `top` itself. -/
theorem place_of_not_mem (s : Store) (top : NodeId) (r : Relocation)
    (h : r.node ∉ idsAll (s.unfold top).children) :
    s.place top r = .error (.noMoreCombinations r.slot 0) := by
  have hghost : (graft (some r.node) (s.unfold top) .empty).2.ghost = none := by
    refine ghost_graft _ _ _ fun x hx hr => ?_
    exact h (Option.some.inj hr ▸ hx)
  simp only [place, rearrange_of_not_mem _ h, hghost]
  generalize (graft (some r.node) (s.unfold top) .empty).1 = copy
  cases copy <;> rfl

/-- On any store, a node that is on no child list below `top` has no slot. -/
theorem place_of_unlisted (s : Store) (top : NodeId) (r : Relocation)
    (h : ∀ p, s.Below top p → r.node ∉ s.children p) :
    s.place top r = .error (.noMoreCombinations r.slot 0) := by
  refine place_of_not_mem s top r fun hm => ?_
  obtain ⟨p, hp, hx⟩ := listed_of_mem_unfoldWithin s _ hm
  exact h p hp hx

/-! ## Slots of the sibling list -/

/-- A slot behind the sibling list is refused, with the number of siblings. -/
theorem place_of_le (h : s.Rooted root) (hbelow : s.Below root r.node)
    (hparent : s.parent? r.node = some parent) (hle : (s.children parent).length ≤ r.slot) :
    s.place root r = .error (.noMoreCombinations r.slot (s.children parent).length) := by
  have hp := h.presents
  have hmem : r.node ∈ idsAll (s.unfold root).children := by
    have hids := (h.mem_ids_iff r.node).mpr hbelow
    rw [ids_eq, unfold_id] at hids
    exact (List.mem_cons.mp hids).resolve_left (h.ne_root hparent)
  simp only [place, rearrange_of_le hparent hle hp.holds hmem]

theorem contains_relocated (s : Store) (parent : NodeId) (r : Relocation) (x : NodeId) :
    (s.relocated parent r).contains x = s.contains x :=
  contains_update s parent x _

/-- Away from the child list of `parent` the links down are the same. -/
theorem children_relocated_of_ne (s : Store) {parent x : NodeId} (r : Relocation) (h : x ≠ parent) :
    (s.relocated parent r).children x = s.children x :=
  children_congr (by rw [node?_relocated, if_neg h])

theorem children_relocated_self (s : Store) (r : Relocation) {parent : NodeId}
    (hlive : s.contains parent = true) : (s.relocated parent r).children parent =
      ((s.children parent).filter (· ≠ r.node)).insertIdx r.slot r.node := by
  obtain ⟨n, hn⟩ := Option.isSome_iff_exists.mp hlive
  rw [children_of_node? hn]
  exact children_of_node? (by rw [node?_relocated s parent r, if_pos rfl, hn]; rfl)

/-- The way from the root to `parent` is the same after the move. -/
theorem descend_relocated (h : s.Rooted root) {p : List Nat} (hp : s.descend root p = some parent) :
    (s.relocated parent r).descend root p = some parent := by
  -- no node on the way is `parent` before the end
  have on_the_way : ∀ q rest y, q ++ rest = p → s.descend root q = some y →
      (s.relocated parent r).descend root q = some y := by
    intro q
    induction q using List.reverseRecOn with
    | nil => exact fun _ _ _ hy => hy
    | append_singleton q i ih =>
      intro rest y hq hy
      obtain ⟨z, hz, hi⟩ := descend_snoc_iff.mp hy
      rw [List.append_assoc] at hq
      refine descend_snoc_iff.mpr ⟨z, ih _ z hq hz, ?_⟩
      rw [children_relocated_of_ne s r, hi]
      rintro rfl
      have hlen := congrArg List.length hq
      rw [h.path_unique hz hp] at hlen
      simp at hlen
  exact on_the_way p [] parent (List.append_nil p) hp

/-- The position of the moved node after the move. -/
theorem getElem?_children_relocated (hnodup : (s.children parent).Nodup)
    (hlisted : r.node ∈ s.children parent) (hlt : r.slot < (s.children parent).length) :
    ((s.relocated parent r).children parent)[r.slot]? = some r.node := by
  have hlen :
      ((s.children parent).filter (· ≠ r.node)).length = (s.children parent).length - 1 := by
    rw [filter_ne_eq_erase hnodup, List.length_erase_of_mem hlisted]
  rw [children_relocated_self s r (contains_of_mem_children hlisted),
    List.getElem?_insertIdx_self, if_pos (by rw [hlen]; omega)]

/-- The rearranged unfolding is the tree after the move. -/
theorem rearrange_presents (h : s.WellFormed root) (hparent : s.parent? r.node = some parent)
    (hlisted : r.node ∈ s.children parent) (hlt : r.slot < (s.children parent).length) :
    ∃ u, rearrange r (s.unfold root) = .ok u ∧ (s.relocated parent r).Presents u ∧
      (∀ x, (s.relocated parent r).contains x = true ↔ x ∈ u.ids) ∧ u.id = root := by
  have hp := h.toRooted.presents
  obtain ⟨u, hu, hheld, hperm, hid⟩ := rearrange_spec hparent hlisted hlt hp.holds hp.nodup
  rw [unfold_id] at hid
  refine ⟨u, hu, ⟨?_, hheld, hperm.nodup_iff.mpr hp.nodup⟩, fun x => ?_, hid⟩
  · rw [hid]
    exact h.marked
  · rw [contains_relocated, hperm.mem_iff, h.mem_ids_iff]

/-- **Placement lemma.** On a slot that the sibling list has, the copy is the tree with the node
moved there. -/
theorem place_of_lt (h : s.WellFormed root) (hparent : s.parent? r.node = some parent)
    (hlt : r.slot < (s.children parent).length) :
    ∃ p, s.place root r = .ok p ∧ s.Relocates parent r p := by
  have hrooted := h.toRooted
  have hlive := contains_of_parent? hparent
  obtain ⟨path, position, hpath, hposition⟩ := hrooted.exists_position (h.reached _ hlive) hparent
  have hlisted := List.mem_of_getElem? hposition
  obtain ⟨u, hu, hmoved, hmovedLive, hid⟩ := rearrange_presents h hparent hlisted hlt
  have hbelow : r.node ∈ idsAll u.children := by
    have hmem : r.node ∈ u.ids := by
      rw [← hmovedLive, contains_relocated]
      exact hlive
    rw [ids_eq, hid] at hmem
    exact (List.mem_cons.mp hmem).resolve_left (hrooted.ne_root hparent)
  obtain ⟨top, f, htop, hghost, hwf, hrenaming⟩ :=
    graft_renaming hmoved (fun x => (hmovedLive x).mp) hbelow
  -- the moved node is on the same path as its copy
  have hnew : (s.relocated parent r).nodeAt? (path ++ [r.slot]) = some r.node := by
    rw [← hid] at hpath hrooted
    rw [hmoved.rooted.nodeAt?_eq]
    have honce := hrooted.once _ (below_iff_descend.mpr ⟨path, hpath⟩)
    exact descend_snoc_iff.mpr ⟨parent, descend_relocated hrooted hpath,
      getElem?_children_relocated honce hlisted hlt⟩
  have hcopy := hrenaming.nodeAt? hmoved.rooted hnew
  refine ⟨⟨(graft (some r.node) u .empty).2.setRoot top, f r.node⟩, ?_, ⟨top, hwf⟩,
    ⟨f, hrenaming, rfl⟩, hghost, ?_, path, position, ?_, hwf.toRooted.pathOf?_eq_some_iff.mpr hcopy⟩
  · simp only [place, hu, htop, hghost]
  · rw [hwf.toRooted.nodeAt?_eq] at hcopy
    obtain ⟨y, hy, hi⟩ := descend_snoc_iff.mp hcopy
    exact hwf.toRooted.position?_of_snoc hy hi
  · rw [hrooted.pathOf?_eq_some_iff, hrooted.nodeAt?_eq]
    exact descend_snoc_iff.mpr ⟨parent, hpath, hposition⟩

/-! ## The widest list -/

theorem le_foldl_max {α : Type} (g : α → Nat) (l : List α) : ∀ start : Nat,
    start ≤ l.foldl (fun widest a => max widest (g a)) start ∧
      ∀ a ∈ l, g a ≤ l.foldl (fun widest a => max widest (g a)) start := by
  induction l with
  | nil => exact fun start => ⟨Nat.le_refl start, fun a ha => (by cases ha)⟩
  | cons b l ih =>
    intro start
    obtain ⟨hstart, hall⟩ := ih (max start (g b))
    refine ⟨Nat.le_trans (Nat.le_max_left ..) hstart, fun a ha => ?_⟩
    rcases List.mem_cons.mp ha with rfl | ha
    · exact Nat.le_trans (Nat.le_max_right ..) hstart
    · exact hall a ha

theorem length_children_le_widest (s : Store) (x : NodeId) : (s.children x).length ≤ s.widest := by
  cases hn : s.node? x with
  | none =>
    rw [children_of_node?_none hn]
    exact Nat.zero_le _
  | some n =>
    have hx : x < s.slots.size := lt_size_of_node? hn
    have hslot : s.slots[x] = some n := by simpa [node?, hx] using hn
    rw [children_of_node? hn, widest, ← Array.foldl_toList]
    have hmem : some n ∈ s.slots.toList := hslot ▸ Array.getElem_mem_toList hx
    exact (le_foldl_max (fun slot : Option Node => slot.elim 0 (·.children.length))
      s.slots.toList 0).2 (some n) hmem

end

end Store

/-! ## Enumerations -/

namespace Enumeration

/-- An enumeration that has come to its end stays there. -/
theorem next_of_next_none {e e' : Enumeration} (h : e.next = .ok (none, e')) :
    e'.next = .ok (none, e') := by
  have hdone : e'.done = true := by
    unfold next at h
    split at h
    · next hd =>
      cases h
      exact hd
    · split at h
      · cases h
        rfl
      · split at h
        · cases h
        · cases h
          rfl
        · cases h
  rw [next, if_pos hdone]

/-- Where the slots from `slot` on give the placements `all` and the slot behind these is refused,
this is what is taken, and then the enumeration is at its end. -/
theorem take_eq {s : Store} {root node : NodeId} (hroot : s.root = some root) (count : Nat) :
    ∀ (all : List Placement) (slot : Nat), all.length < count →
      (∀ i (hi : i < all.length), s.place root ⟨node, slot + i⟩ = .ok all[i]) →
      (∃ siblings, s.place root ⟨node, slot + all.length⟩ =
        .error (.noMoreCombinations (slot + all.length) siblings)) →
      take count ⟨s, node, slot, false⟩ = .ok (all, ⟨s, node, slot + all.length, true⟩) := by
  induction count with
  | zero => exact fun all slot h => absurd h (Nat.not_lt_zero _)
  | succ count ih =>
    intro all slot hcount hall hend
    cases all with
    | nil =>
      obtain ⟨siblings, hend⟩ := hend
      rw [List.length_nil, Nat.add_zero] at hend
      simp [take, next, hroot, hend]
    | cons p rest =>
      have hfirst : s.place root ⟨node, slot⟩ = .ok p := hall 0 (Nat.zero_lt_succ _)
      have shift : ∀ n, slot + 1 + n = slot + (n + 1) := fun n => by omega
      have hrest := ih rest (slot + 1) (Nat.lt_of_succ_lt_succ hcount)
        (fun i hi => shift i ▸ hall (i + 1) (Nat.succ_lt_succ hi)) (shift rest.length ▸ hend)
      rw [shift] at hrest
      simp only [take, next, hroot, hfirst, Bool.false_eq_true, if_false]
      rw [hrest]
      rfl

/-- What is collected when the enumeration gives `all`. -/
theorem toList_eq {s : Store} {root node : NodeId} (hroot : s.root = some root)
    {all : List Placement} (hlen : all.length ≤ s.widest)
    (hall : ∀ i (hi : i < all.length), s.place root ⟨node, i⟩ = .ok all[i])
    (hend : ∃ siblings, s.place root ⟨node, all.length⟩ =
      .error (.noMoreCombinations all.length siblings)) : (start s node).toList = .ok all := by
  have htake := take_eq hroot (s.widest + 1) all 0 (Nat.lt_succ_of_le hlen)
    (fun i hi => (Nat.zero_add i).symm ▸ hall i hi) ((Nat.zero_add all.length).symm ▸ hend)
  rw [toList, start]
  simp only [htake]

end Enumeration

namespace Store

theorem placements_of_ne_root {s : Store} {root node : NodeId} (hroot : s.root = some root)
    (hne : node ≠ root) : s.placements node = (Enumeration.start s node).toList := by
  rw [placements, if_neg]
  rw [hroot, Option.some.injEq]
  exact hne.symm

/-- A node with a parent has one placement for each slot of the sibling list, and these are what is
collected. -/
theorem WellFormed.exists_placements {s : Store} {root node parent : NodeId}
    (h : s.WellFormed root) (hparent : s.parent? node = some parent) :
    ∃ all : List Placement, s.placements node = .ok all ∧
      all.length = (s.children parent).length ∧
      ∀ i (hi : i < all.length), s.place root ⟨node, i⟩ = .ok all[i] ∧
        s.Relocates parent ⟨node, i⟩ all[i] := by
  have hbelow := h.reached node (contains_of_parent? hparent)
  have inside : ∀ i : Fin (s.children parent).length,
      ∃ p, s.place root ⟨node, i⟩ = .ok p ∧ s.Relocates parent ⟨node, i⟩ p :=
    fun i => place_of_lt (r := ⟨node, i⟩) h hparent i.isLt
  choose placed hplaced using inside
  have hlen := List.length_ofFn (f := placed)
  have hall : ∀ i (hi : i < (List.ofFn placed).length),
      s.place root ⟨node, i⟩ = .ok (List.ofFn placed)[i] ∧
        s.Relocates parent ⟨node, i⟩ (List.ofFn placed)[i] := by
    intro i hi
    rw [List.getElem_ofFn]
    exact hplaced ⟨i, hlen ▸ hi⟩
  refine ⟨List.ofFn placed, ?_, hlen, hall⟩
  rw [placements_of_ne_root h.marked (h.ne_root hparent)]
  exact Enumeration.toList_eq h.marked (hlen.le.trans (length_children_le_widest s parent))
    (fun i hi => (hall i hi).1)
    ⟨_, place_of_le (r := ⟨node, (List.ofFn placed).length⟩) h.toRooted hbelow hparent hlen.ge⟩

/-- **Placements are complete.** In a well-formed tree a node with `k` siblings, itself included,
has `k` placements, one for each slot and the same ones from every source, and no slot besides; a
node that is no child has none. -/
theorem placements_complete (s : Store) (root : NodeId) (h : s.WellFormed root) :
    (∀ node, s.contains node = true → node ≠ root → ∃ (parent : NodeId) (all : List Placement),
      s.parent? node = some parent ∧ all.length = (s.children parent).length ∧
      s.placements node = .ok all ∧ (Enumeration.start s node).toList = .ok all ∧
      (∀ count, all.length < count → ∃ e, (Enumeration.start s node).take count = .ok (all, e) ∧
        e.next = .ok (none, e)) ∧
      (∀ i (hi : i < all.length), s.place root ⟨node, i⟩ = .ok all[i] ∧
        s.Relocates parent ⟨node, i⟩ all[i]) ∧
      ∀ i, all.length ≤ i → s.place root ⟨node, i⟩ = .error (.noMoreCombinations i all.length)) ∧
    (∀ top node, (node = top ∨ ∀ p, s.Below top p → node ∉ s.children p) →
      ∀ i, s.place top ⟨node, i⟩ = .error (.noMoreCombinations i 0)) ∧
    (∀ node, (node = root ∨ ∀ p, s.Below root p → node ∉ s.children p) →
      s.placements node = .ok [] ∧ (Enumeration.start s node).toList = .ok []) ∧
    (∀ e e' : Enumeration, e.next = .ok (none, e') → e'.next = .ok (none, e')) := by
  have hroot := h.marked
  have unlisted : ∀ top node, (node = top ∨ ∀ p, s.Below top p → node ∉ s.children p) →
      ∀ i, s.place top ⟨node, i⟩ = .error (.noMoreCombinations i 0) := by
    rintro top node (rfl | hno) i
    · exact place_of_unlisted s node ⟨node, i⟩ fun p hp => h.not_mem_children_below hp
    · exact place_of_unlisted s top ⟨node, i⟩ hno
  refine ⟨?_, unlisted, ?_, fun e e' => Enumeration.next_of_next_none⟩
  · intro node hlive hne
    obtain ⟨parent, hparent⟩ := h.exists_parent hlive hne
    have inside : ∀ i, i < (s.children parent).length →
        ∃ p, s.place root ⟨node, i⟩ = .ok p ∧ s.Relocates parent ⟨node, i⟩ p :=
      fun i hi => place_of_lt (r := ⟨node, i⟩) h hparent hi
    have outside : ∀ i, (s.children parent).length ≤ i →
        s.place root ⟨node, i⟩ = .error (.noMoreCombinations i (s.children parent).length) :=
      fun i hi => place_of_le (r := ⟨node, i⟩) h.toRooted (h.reached node hlive) hparent hi
    choose P hP hrelocates using inside
    obtain ⟨all, hlen, hall⟩ : ∃ all : List Placement, all.length = (s.children parent).length ∧
        ∀ i (hi : i < all.length), s.place root ⟨node, i⟩ = .ok all[i] ∧
          s.Relocates parent ⟨node, i⟩ all[i] := by
      refine ⟨List.ofFn fun i : Fin (s.children parent).length => P i i.isLt, List.length_ofFn, ?_⟩
      intro i hi
      rw [List.length_ofFn] at hi
      rw [List.getElem_ofFn]
      exact ⟨hP i hi, hrelocates i hi⟩
    rw [← hlen] at outside
    have hend := outside all.length (Nat.le_refl _)
    have hlist : (Enumeration.start s node).toList = .ok all :=
      Enumeration.toList_eq hroot (hlen ▸ length_children_le_widest s parent)
        (fun i hi => (hall i hi).1) ⟨_, hend⟩
    refine ⟨parent, all, hparent, hlen, ?_, hlist, ?_, hall, outside⟩
    · rw [placements_of_ne_root hroot hne, hlist]
    · intro count hcount
      refine ⟨⟨s, node, 0 + all.length, true⟩, ?_, rfl⟩
      exact Enumeration.take_eq hroot count all 0 hcount
        (fun i hi => (Nat.zero_add i).symm ▸ (hall i hi).1)
        ⟨_, (Nat.zero_add all.length).symm ▸ hend⟩
  · intro node hno
    have hempty : (Enumeration.start s node).toList = .ok [] :=
      Enumeration.toList_eq hroot (Nat.zero_le _) (fun i hi => absurd hi (Nat.not_lt_zero i))
        ⟨0, unlisted root node hno 0⟩
    refine ⟨?_, hempty⟩
    by_cases he : node = root
    · rw [placements, if_pos (he ▸ hroot)]
    · rw [placements_of_ne_root hroot he, hempty]

theorem ofToken?_a : LiteralValue.ofToken? "a".toList = some (.identifier 'a') := by decide

theorem ofToken?_b : LiteralValue.ofToken? "b".toList = some (.identifier 'b') := by decide

/-- The sum of two names, with its nodes in preorder. -/
def sumOfNames : Store where
  slots := #[some ⟨.compound .add, none, [1, 2]⟩,
    some ⟨.literal ⟨"a", .identifier 'a', ofToken?_a⟩, some 0, []⟩,
    some ⟨.literal ⟨"b", .identifier 'b', ofToken?_b⟩, some 0, []⟩]
  root := some 0
  ghost := none

theorem wellFormed_sumOfNames : sumOfNames.WellFormed 0 := by
  have hp : sumOfNames.Presents (.node 0 (.compound .add) [
      .node 1 (.literal ⟨"a", .identifier 'a', by decide⟩) [],
      .node 2 (.literal ⟨"b", .identifier 'b', by decide⟩) []]) :=
    ⟨rfl, ⟨rfl, ⟨rfl, trivial⟩, ⟨rfl, trivial⟩, trivial⟩, by decide⟩
  exact hp.wellFormed_of_numbered rfl

/-- Either operand of a sum of two has two placements. -/
theorem placements_complete_sumOfNames : sumOfNames.WellFormed 0 ∧
    ∃ all, all.length = 2 ∧ sumOfNames.placements 1 = .ok all := by
  obtain ⟨parent, all, hparent, hlen, hall, -⟩ :=
    (placements_complete sumOfNames 0 wellFormed_sumOfNames).1 1 rfl (by decide)
  obtain rfl : parent = 0 := (Option.some.inj hparent).symm
  exact ⟨wellFormed_sumOfNames, all, hlen, hall⟩

end Store

end ArithTree
