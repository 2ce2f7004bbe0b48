import ArithTree.Proofs.Calls
import ArithTree.Proofs.Drops
import Mathlib.Algebra.Order.BigOperators.Group.Finset

/-!
# Dragging reaches every rearrangement

Whatever order the child lists of a tree are to be brought into, some run of a session does it, by
moving the focus, dragging and dropping (`rearrangements_reached`). As long as a child list is not
as wanted, one of its nodes can be taken to the slot where the wanted list first differs
(`exists_move`). A drag does that (`Sound.exists_dragged`), and since it spoils no other list the
total of what is left to do gets smaller (`exists_step`).
-/

namespace ArithTree

/-! ## Moves within a list -/

/-- Number of wanted entries from the place on where the present list first differs. -/
def behind : List NodeId → List NodeId → Nat
  | w :: wanted, p :: present => if w = p then behind wanted present else wanted.length + 1
  | wanted, _ => wanted.length

theorem behind_le_length (wanted : List NodeId) : ∀ present : List NodeId,
    behind wanted present ≤ wanted.length := by
  induction wanted with
  | nil => exact fun _ => Nat.le_refl 0
  | cons w wanted ih =>
    intro present
    cases present with
    | nil => exact Nat.le_refl _
    | cons p present =>
      rw [behind]
      split
      · exact Nat.le_succ_of_le (ih present)
      · exact Nat.le_refl _

/-- Renaming both lists alike does not make them differ earlier. -/
theorem behind_map_le (f : NodeId → NodeId) (wanted : List NodeId) : ∀ present : List NodeId,
    behind (wanted.map f) (present.map f) ≤ behind wanted present := by
  induction wanted with
  | nil => exact fun _ => Nat.le_refl 0
  | cons w wanted ih =>
    intro present
    cases present with
    | nil => simp [behind]
    | cons p present =>
      simp only [List.map_cons, behind]
      by_cases hw : w = p
      · rw [if_pos hw, if_pos (congrArg f hw)]
        exact ih present
      · rw [if_neg hw]
        split
        · refine Nat.le_succ_of_le ((behind_le_length _ _).trans ?_)
          rw [List.length_map]
        · rw [List.length_map]

/-- **Move lemma.** In a list that is not in the wanted order, some entry can be moved such that the
lists differ later. -/
theorem exists_move (wanted : List NodeId) : ∀ present : List NodeId, present.Perm wanted →
    wanted.Nodup → present ≠ wanted → ∃ x ∈ present, ∃ slot, slot < present.length ∧
      behind wanted ((present.filter (· ≠ x)).insertIdx slot x) < behind wanted present := by
  induction wanted with
  | nil => exact fun present hperm _ hne => absurd hperm.eq_nil hne
  | cons w wanted ih =>
    intro present hperm hnodup hne
    cases present with
    | nil => exact absurd hperm.symm.eq_nil (List.cons_ne_nil w wanted)
    | cons p present =>
      by_cases hw : w = p
      · -- the first entries agree, so the move is one in the rest
        subst hw
        have hperm := hperm.cons_inv
        rw [List.nodup_cons] at hnodup
        obtain ⟨x, hx, slot, hslot, hlt⟩ :=
          ih present hperm hnodup.2 fun he => hne (congrArg (w :: ·) he)
        have hwx : w ≠ x := by
          rintro rfl
          exact hnodup.1 (hperm.subset hx)
        refine ⟨x, List.mem_cons_of_mem w hx, slot + 1, Nat.succ_lt_succ hslot, ?_⟩
        rw [List.filter_cons_of_pos (by simpa using hwx), List.insertIdx_succ_cons]
        simpa [behind] using hlt
      · have hmem : w ∈ p :: present := hperm.symm.subset (List.mem_cons_self ..)
        refine ⟨w, hmem, 0, Nat.zero_lt_succ _, ?_⟩
        rw [List.insertIdx_zero, behind, if_pos rfl, behind, if_neg hw]
        exact Nat.lt_succ_of_le (behind_le_length _ _)

namespace Store

/-! ## Rearrangements -/

section

variable {f h : NodeId → NodeId} {s t target : Store} {root : NodeId}

/-- What is left to do until every child list of `s` is as in `target`, where `h` says which nodes
stand for which. -/
def disorder (h : NodeId → NodeId) (target s : Store) : Nat :=
  ∑ y ∈ Finset.range target.slots.size,
    behind ((target.children y).map h) (s.children (h y))

/-- A move that brings one child list nearer to what is wanted leaves less to do. -/
theorem disorder_lt (hh : target.Reorders h s) {y : NodeId} (hy : target.contains y = true)
    {r : Relocation} (hf : (s.relocated (h y) r).Renaming f t)
    (hlt : behind ((target.children y).map h)
        (((s.children (h y)).filter (· ≠ r.node)).insertIdx r.slot r.node) <
      behind ((target.children y).map h) (s.children (h y))) :
    disorder (f ∘ h) target t < disorder h target s := by
  have hlive : ∀ z, target.contains z = true → (s.relocated (h y) r).contains (h z) = true :=
    fun z hz => by
      rw [contains_relocated]
      exact hh.contains hz
  have htodo : ∀ z, target.contains z = true →
      behind ((target.children z).map (f ∘ h)) (t.children ((f ∘ h) z)) ≤
        behind ((target.children z).map h) ((s.relocated (h y) r).children (h z)) := by
    intro z hz
    rw [← List.map_map, Function.comp_apply, hf.children (hlive z hz)]
    exact behind_map_le f _ _
  refine Finset.sum_lt_sum (fun z _ => ?_) ⟨y, ?_, ?_⟩
  · by_cases hz : target.contains z = true
    · by_cases hzy : z = y
      · subst hzy
        refine (htodo z hz).trans ?_
        rw [children_relocated_self s r (hh.contains hz)]
        exact Nat.le_of_lt hlt
      · have hne : h z ≠ h y := fun he => hzy (hh.injective z y hz hy he)
        rw [← children_relocated_of_ne s r hne]
        exact htodo z hz
    · rw [contains, Bool.not_eq_true, Option.isSome_eq_false_iff, Option.isNone_iff_eq_none] at hz
      rw [children_of_node?_none hz]
      exact Nat.zero_le _
  · exact Finset.mem_range.mpr (lt_size_of_contains hy)
  · refine Nat.lt_of_le_of_lt (htodo y hy) ?_
    rw [children_relocated_self s r (hh.contains hy)]
    exact hlt

end

end Store

namespace Session

/-! ## Runs without a failure -/

/-- A call that succeeds. Nodes are found by walking, so no handle is given to the session. -/
inductive Succeeds (s : Session) : Session → Prop
  | focusChild {index : Nat} {child : NodeId} {t : Session} :
      s.focusChild index = (.ok child, t) → Succeeds s t
  | focusParent {parent : NodeId} {t : Session} : s.focusParent = (some parent, t) → Succeeds s t
  | beginDrag {count : Nat} {t : Session} : s.beginDrag = (.ok count, t) → Succeeds s t
  | update {σ : Type} {score : Placement → StateM σ Score} {state : σ} {chosen : Nat}
      {t : Session} :
      ((s.update score).run state).1 = (some chosen, t) → Succeeds s t
  | drop {node : NodeId} {t : Session} : s.drop = (.ok node, t) → Succeeds s t

section

variable {s t : Session} {original : Store}

theorem Succeeds.step (h : Succeeds s t) : Step s t := by
  cases h with
  | @focusChild index _ _ h =>
    have hstep : Step s _ := .focusChild index
    rwa [h] at hstep
  | focusParent h =>
    have hstep : Step s _ := .focusParent
    rwa [h] at hstep
  | beginDrag h =>
    have hstep : Step s _ := .beginDrag
    rwa [h] at hstep
  | @update σ score state _ _ h =>
    have hstep : Step s _ := .update score state
    rwa [h] at hstep
  | drop h =>
    have hstep : Step s _ := .drop
    rwa [h] at hstep

theorem Sound.run_succeeds (h : s.Sound original) (hrun : Relation.ReflTransGen Succeeds s t) :
    t.Sound original :=
  h.run (Relation.ReflTransGen.mono (fun _ _ => Succeeds.step) _ _ hrun)

/-! ## Walking -/

/-- From any focus one can walk up to the root. -/
theorem Sound.exists_ascent (path : List Nat) : ∀ {s : Session}, s.Sound original →
    s.drag = none → s.tree.pathOf? s.focus = some path → ∃ root, s.tree.root = some root ∧
      Relation.ReflTransGen Succeeds s { s with focus := root } := by
  induction path using List.reverseRecOn with
  | nil =>
    intro s h _ hpath
    obtain ⟨root, hwf⟩ := h.wellFormed
    rw [hwf.pathOf?_eq_some_iff, hwf.nodeAt?_eq] at hpath
    exact ⟨s.focus, hwf.marked.trans hpath, .refl⟩
  | append_singleton path position ih =>
    intro s h hidle hpath
    obtain ⟨parent, hup, hparent⟩ := h.focusParent_eq hidle hpath
    obtain ⟨root, hroot, hrun⟩ := ih (h.refocus hidle ⟨path, hparent⟩) hidle hparent
    exact ⟨root, hroot, hrun.head (.focusParent hup)⟩

/-- From the root one can walk down any path. -/
theorem Sound.exists_descent (h : s.Sound original) (hidle : s.drag = none) {root : NodeId}
    (hroot : s.tree.root = some root) (path : List Nat) : ∀ {node : NodeId},
    s.tree.nodeAt? path = some node →
      Relation.ReflTransGen Succeeds { s with focus := root } { s with focus := node } := by
  obtain ⟨top, hwf⟩ := h.wellFormed
  obtain rfl : top = root := Option.some.inj (hwf.marked.symm.trans hroot)
  simp only [hwf.nodeAt?_eq]
  induction path using List.reverseRecOn with
  | nil =>
    intro node hnode
    obtain rfl : top = node := Option.some.inj hnode
    exact .refl
  | append_singleton path position ih =>
    intro node hnode
    obtain ⟨parent, hparent, hchild⟩ := Store.descend_snoc_iff.mp hnode
    have hpath : s.tree.pathOf? parent = some path := by
      rw [hwf.pathOf?_eq_some_iff, hwf.nodeAt?_eq, hparent]
    have hdown := (h.refocus hidle ⟨path, hpath⟩).focusChild_eq hidle hpath hchild
    exact (ih hparent).tail (.focusChild hdown.1)

/-- Outside a drag every node can be reached by walking. -/
theorem Sound.exists_walk (h : s.Sound original) (hidle : s.drag = none) {path : List Nat}
    {node : NodeId} (hnode : s.tree.pathOf? node = some path) :
    Relation.ReflTransGen Succeeds s { s with focus := node } := by
  obtain ⟨here, hhere⟩ := h.attached
  obtain ⟨root, hroot, hascent⟩ := h.exists_ascent here hidle hhere
  exact hascent.trans (h.exists_descent hidle hroot path (Store.nodeAt?_of_pathOf? hnode))

/-! ## Dragging to a slot -/

/-- Scores by which the candidate on one slot is the only one with a distance. -/
def preferSlot (slot : Nat) (p : Placement) : StateM Unit Score :=
  pure (if p.slot? = some slot then .place 0 else .undefined)

/-- A score that is defined for one candidate makes an update choose it. -/
theorem earliestLeast?_preferSlot {slot : Nat} {candidates : List Placement}
    (hslots : ∀ i (hi : i < candidates.length), candidates[i].slot? = some i)
    (hslot : slot < candidates.length) :
    Score.earliestLeast? ((candidates.mapM (preferSlot slot)).run ()).1 = some slot := by
  have hscores : ((candidates.mapM (preferSlot slot)).run ()).1 =
      candidates.map fun p => if p.slot? = some slot then .place 0 else .undefined := by
    unfold preferSlot
    rw [List.mapM_pure]
    rfl
  rw [hscores]
  have hsome : (Score.earliestLeast? (candidates.map fun p =>
      if p.slot? = some slot then Score.place 0 else .undefined)).isSome = true := by
    rw [Score.isSome_earliestLeast?_iff]
    refine ⟨0, List.mem_map.mpr ⟨candidates[slot], List.getElem_mem hslot, ?_⟩⟩
    rw [if_pos (hslots slot hslot)]
  obtain ⟨index, hindex⟩ := Option.isSome_iff_exists.mp hsome
  obtain ⟨rank, hrank⟩ := Score.getElem?_of_earliestLeast? hindex
  rw [List.getElem?_map] at hrank
  obtain ⟨p, hp, hdefined⟩ := Option.map_eq_some_iff.mp hrank
  obtain ⟨hlt, rfl⟩ := List.getElem?_eq_some_iff.mp hp
  rw [hslots index hlt] at hdefined
  split at hdefined
  · next heq => rw [hindex, heq]
  · cases hdefined

/-- **Drag lemma.** Outside a drag, the focus can be taken to any slot among its siblings. -/
theorem Sound.exists_dragged (h : s.Sound original) (hidle : s.drag = none) {parent : NodeId}
    (hparent : s.tree.parent? s.focus = some parent) {slot : Nat}
    (hslot : slot < (s.tree.children parent).length) :
    ∃ t p, Relation.ReflTransGen Succeeds s t ∧ t.drag = none ∧ t.tree = p.tree.clearGhost ∧
      s.tree.Relocates parent ⟨s.focus, slot⟩ p := by
  obtain ⟨root, hwf⟩ := h.wellFormed
  obtain ⟨all, hall, hlen, hplaced⟩ := hwf.exists_placements hparent
  have hne := h.root_ne_focus hparent
  rw [← hlen] at hslot
  have hpick := earliestLeast?_preferSlot (fun i hi => (hplaced i hi).2.slot) hslot
  -- the drag begins, the slot is chosen, and the choice is dropped
  let first := (s.tree.position? s.focus).getD 0
  let dragging : Session := { s with drag := some ⟨all, first⟩ }
  have hbegin : s.beginDrag = (.ok all.length, dragging) := by
    simp [Session.beginDrag, isDragging_of_none hidle, hne, hall, dragging, first]
  have hdragging : dragging.drag = some ⟨all, first⟩ := rfl
  have hchoice : Score.earliestLeast? (dragging.answers (preferSlot slot) ()) = some slot := hpick
  have hupdate : ((dragging.update (preferSlot slot)).run ()).1 =
      (some slot, { s with drag := some ⟨all, slot⟩ }) := by
    refine Prod.ext ?_ ?_
    · rw [update_answer_of_drag _ _ hdragging, hchoice, Option.getD_some]
    · rw [run_update_of_drag _ _ hdragging, hchoice, Option.getD_some]
  have hdrop := drop_of_drag (s := { s with drag := some ⟨all, slot⟩ }) rfl
    (List.getElem?_eq_getElem hslot)
  exact ⟨_, all[slot], ((Relation.ReflTransGen.single (.beginDrag hbegin)).tail
    (.update hupdate)).tail (.drop hdrop), rfl, rfl, (hplaced slot hslot).2⟩

/-! ## Rearranging -/

variable {target : Store} {h : NodeId → NodeId}

/-- One drag leaves less to do, as long as anything is left. -/
theorem Sound.exists_step (hs : s.Sound original) (hidle : s.drag = none)
    (hh : target.Reorders h s.tree) {y : NodeId} (hy : target.contains y = true)
    (hne : s.tree.children (h y) ≠ (target.children y).map h) :
    ∃ t g, Relation.ReflTransGen Succeeds s t ∧ t.drag = none ∧ target.Reorders g t.tree ∧
      target.disorder g t.tree < target.disorder h s.tree := by
  obtain ⟨root, hwf⟩ := hs.wellFormed
  have hbelow := hwf.reached _ (hh.contains hy)
  have hperm := hh.children hy
  obtain ⟨x, hx, slot, hslot, hlt⟩ :=
    exists_move _ _ hperm (hperm.nodup_iff.mp (hwf.once _ hbelow)) hne
  have hparent := hwf.listed _ x hbelow hx
  obtain ⟨path, hpath⟩ : ∃ path, s.tree.pathOf? x = some path := by
    obtain ⟨path, hdown⟩ := Store.below_iff_descend.mp (hbelow.tail hx)
    exact ⟨path, by rw [hwf.pathOf?_eq_some_iff, hwf.nodeAt?_eq, hdown]⟩
  obtain ⟨t, p, hrun, hover, htree, hmoved⟩ :=
    (hs.refocus hidle ⟨path, hpath⟩).exists_dragged hidle hparent hslot
  obtain ⟨f, hf, -⟩ := hmoved.moved
  have hf : (s.tree.relocated (h y) ⟨x, slot⟩).Renaming f t.tree := htree ▸ hf.clearGhost
  refine ⟨t, f ∘ h, (hs.exists_walk hidle hpath).trans hrun, hover, ?_, ?_⟩
  · exact (hh.trans (Store.reorders_relocated (hwf.once _ hbelow) hx hslot)).trans hf.reorders
  · exact Store.disorder_lt hh hy hf hlt

/-- **Rearranging lemma.** However much is left to do, some run without a failure does it. -/
theorem Sound.exists_rearranged (hs : s.Sound original) (hidle : s.drag = none)
    (hh : target.Reorders h s.tree) : ∃ t, Relation.ReflTransGen Succeeds s t ∧ t.drag = none ∧
      ∃ g, target.Renaming g t.tree := by
  induction hleft : target.disorder h s.tree using Nat.strong_induction_on generalizing s h with
  | _ left ih =>
    by_cases hdone : ∀ y, target.contains y = true →
        s.tree.children (h y) = (target.children y).map h
    · exact ⟨s, .refl, hidle, h, hh.renaming hdone⟩
    · obtain ⟨y, hy, hne⟩ := not_forall₂.mp hdone
      obtain ⟨t, g, hrun, hover, hg, hless⟩ := hs.exists_step hidle hh hy hne
      obtain ⟨u, hrest, hrenamed⟩ := ih _ (hleft ▸ hless) (hs.run_succeeds hrun) hover hg rfl
      exact ⟨u, hrun.trans hrest, hrenamed⟩

/-- **Dragging reaches every rearrangement.** Let `target` be a parsed tree with all its child lists
in any other order, up to handles. Then a session on the parsed tree has a run in which no call
fails and which ends with `target`, up to handles. -/
theorem rearrangements_reached (options : ParserOptions) (text : String) (tree : Store)
    (id : TreeId) (hparse : Parser.parse options text = .ok tree) (f : NodeId → NodeId)
    (htarget : tree.Reorders f target) :
    ∃ start t, Session.start id tree = .ok start ∧ Relation.ReflTransGen Succeeds start t ∧
      t.drag = none ∧ ∃ g, target.Renaming g t.tree := by
  obtain ⟨root, hwf, -, hstart, hsound⟩ := start_of_parse id hparse
  obtain ⟨h, hh, -⟩ := htarget.symm hwf
  obtain ⟨t, hrun, hover, hrenamed⟩ := hsound.exists_rearranged rfl hh
  exact ⟨_, t, hstart, hrun, hover, hrenamed⟩

end

/-- The sum of two names with the operands the other way round. -/
def swappedSum : Store := parsedSum.relocated 2 ⟨0, 1⟩

/-- Some run swaps the operands of a sum. -/
theorem rearrangements_reached_swappedSum :
    Parser.parse ⟨true, none⟩ "a+b" = .ok parsedSum ∧ parsedSum.Reorders (fun x => x) swappedSum ∧
      ∃ start t, Session.start ⟨0, 0⟩ parsedSum = .ok start ∧
        Relation.ReflTransGen Succeeds start t ∧ t.drag = none ∧
          ∃ g, swappedSum.Renaming g t.tree := by
  have hswapped : parsedSum.Reorders (fun x => x) swappedSum :=
    Store.reorders_relocated (by decide) (by decide) (by decide)
  exact ⟨parse_parsedSum, hswapped, rearrangements_reached ⟨true, none⟩ "a+b" parsedSum ⟨0, 0⟩
    parse_parsedSum _ hswapped⟩

end Session

end ArithTree
