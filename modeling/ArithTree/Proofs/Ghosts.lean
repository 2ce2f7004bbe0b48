import ArithTree.Proofs.Copies
import ArithTree.Proofs.Edits
import ArithTree.Proofs.PathOrder
import ArithTree.Proofs.Sessions

/-!
# Finding the ghost

The search keeps a stack and stops when it meets the ghost. Where child links close no circle, a
stack of handles stands for their unfoldings one after the other, so what the loop meets is what
child links lead to, removed nodes included (`reaches_iff`). In a well-formed tree one node is below
another when its path goes on from that of the other (`Rooted.below_iff_prefix`). So the ghost of a
placement is found from the nodes on the way to it and from no others, and what is parsed, copied or
held by a session has none (`ghosts_reached`).
-/

namespace ArithTree

namespace Store

open Unfolding hiding id children size

section

variable {s : Store} {top root : NodeId}

/-! ## The loop -/

theorem Reads.children_eq {u : Unfolding} (h : s.Reads u) :
    s.children u.id = u.children.map Unfolding.id := by
  cases u with
  | dangling id => exact children_of_node?_none h
  | node id label below =>
    obtain ⟨⟨up, hn⟩, -⟩ := h
    exact children_of_node? hn

theorem Reads.readsAll_children {u : Unfolding} (h : s.Reads u) : s.ReadsAll u.children := by
  cases u with
  | dangling id => trivial
  | node id label below => exact h.2

theorem ReadsAll.append {us vs : List Unfolding} (hu : s.ReadsAll us) (hv : s.ReadsAll vs) :
    s.ReadsAll (us ++ vs) := by
  rw [readsAll_iff] at hu hv ⊢
  intro w hw
  rcases List.mem_append.mp hw with hw | hw
  · exact hu w hw
  · exact hv w hw

/-- Every entry that is taken off the stack is an occurrence, and its children come in front of the
rest. So the loop meets the occurrences of all unfoldings on the stack, and it needs one step for
each. -/
theorem reaches_iff (target : NodeId) (steps : Nat) : ∀ us : List Unfolding, s.ReadsAll us →
    (idsAll us).length ≤ steps →
      (s.reaches target steps (us.map Unfolding.id) = true ↔ target ∈ idsAll us) := by
  induction steps with
  | zero =>
    intro us _ hsteps
    rw [List.length_eq_zero_iff.mp (Nat.le_zero.mp hsteps)]
    simp [reaches]
  | succ steps ih =>
    intro us hus hsteps
    cases us with
    | nil => simp [reaches, idsAll]
    | cons u rest =>
      obtain ⟨hu, hrest⟩ := hus
      have hids : idsAll (u :: rest) = u.id :: idsAll (u.children ++ rest) := by
        rw [idsAll, u.ids_eq, idsAll_append, List.cons_append]
      rw [hids, List.length_cons] at hsteps
      have hnext := ih (u.children ++ rest) (hu.readsAll_children.append hrest)
        (Nat.le_of_succ_le_succ hsteps)
      rw [List.map_append, ← hu.children_eq] at hnext
      rw [List.map_cons, reaches, hids, List.mem_cons, ← hnext]
      by_cases heq : u.id = target
      · simp [heq]
      · simp [heq, Ne.symm heq]

/-- The search below a handle, run for long enough, finds what child links lead to. -/
theorem Acyclic.reaches_iff_below (h : s.Acyclic top) {steps : Nat} {target : NodeId}
    (hsteps : (s.unfold top).size ≤ steps) :
    s.reaches target steps [top] = true ↔ s.Below top target := by
  have hread := h.reads_unfold
  have hloop := reaches_iff target steps [s.unfold top] ⟨hread, trivial⟩
    (by rwa [idsAll_singleton, length_ids])
  rw [List.map_singleton, unfold_id, idsAll_singleton] at hloop
  rw [hloop, ← hread.below_iff, unfold_id]

theorem Acyclic.findGhost?_eq_some_iff (h : s.Acyclic top) {ghost : NodeId} :
    s.findGhost? top = some ghost ↔ s.ghost = some ghost ∧ s.Below top ghost := by
  unfold findGhost?
  cases hghost : s.ghost with
  | none => simp
  | some g =>
    simp only [Option.some.injEq]
    constructor
    · intro hfound
      split at hfound
      · next hreached =>
        obtain rfl := Option.some.inj hfound
        exact ⟨rfl, (h.reaches_iff_below (Nat.le_refl _)).mp hreached⟩
      · cases hfound
    · rintro ⟨rfl, hbelow⟩
      exact if_pos ((h.reaches_iff_below (Nat.le_refl _)).mpr hbelow)

/-- The ghost finds itself, on any links. -/
theorem findGhost?_self {ghost : NodeId} (h : s.ghost = some ghost) :
    s.findGhost? ghost = some ghost := by
  have hpos : 0 < (s.unfold ghost).size := by
    rw [← length_ids, ids_eq]
    exact Nat.succ_pos _
  obtain ⟨steps, hsteps⟩ := Nat.exists_eq_succ_of_ne_zero hpos.ne'
  simp only [findGhost?, h, hsteps, reaches, if_true]

/-- Nothing is found from anywhere exactly where nothing is marked. -/
theorem findGhost?_eq_none_iff (s : Store) :
    (∀ node, s.findGhost? node = none) ↔ s.ghost = none := by
  constructor
  · intro hnone
    rw [Option.eq_none_iff_forall_ne_some]
    intro ghost hghost
    cases (hnone ghost).symm.trans (findGhost?_self hghost)
  · intro hghost node
    rw [findGhost?, hghost]

/-! ## On the way to a node -/

/-- In a tree a node is below another when its path goes on from that of the other. -/
theorem Rooted.below_iff_prefix (h : s.Rooted root) {x y : NodeId} {p q : List Nat}
    (hx : s.pathOf? x = some p) (hy : s.pathOf? y = some q) : s.Below x y ↔ p <+: q := by
  rw [h.pathOf?_eq_some_iff, h.nodeAt?_eq] at hx hy
  rw [below_iff_descend]
  constructor
  · rintro ⟨rest, hrest⟩
    exact ⟨rest, h.path_unique (descend_append_iff.mpr ⟨x, hx, hrest⟩) hy⟩
  · rintro ⟨rest, rfl⟩
    obtain ⟨z, hz, hrest⟩ := descend_append_iff.mp hy
    obtain rfl := Option.some.inj (hx.symm.trans hz)
    exact ⟨rest, hrest⟩

/-- Child links of a well-formed tree close no circle, wherever they are followed from. -/
theorem WellFormed.acyclic_below (h : s.WellFormed root) (top : NodeId) : s.Acyclic top :=
  fun p c _ hc => h.links.acyclic p c hc

/-- Both handles have a path, and the path of the second goes on from that of the first. -/
def OnTheWay (s : Store) (x y : NodeId) : Prop :=
  ∃ p q, s.pathOf? x = some p ∧ s.pathOf? y = some q ∧ p <+: q

theorem WellFormed.below_iff_onTheWay (h : s.WellFormed root) {x y : NodeId}
    (hy : s.contains y = true) : s.Below x y ↔ s.OnTheWay x y := by
  constructor
  · intro hbelow
    have hx : s.contains x = true := by
      rcases Relation.ReflTransGen.cases_head hbelow with rfl | ⟨c, hc, -⟩
      · exact hy
      · exact contains_of_mem_children hc
    obtain ⟨p, hp⟩ := h.exists_path hx
    obtain ⟨q, hq⟩ := h.exists_path hy
    exact ⟨p, q, hp, hq, (h.below_iff_prefix hp hq).mp hbelow⟩
  · rintro ⟨p, q, hp, hq, hpre⟩
    exact (h.below_iff_prefix hp hq).mpr hpre

/-! ## Copies -/

theorem ghost_of_place {r : Relocation} {p : Placement} (h : s.place top r = .ok p) :
    p.tree.ghost = some p.ghost := by
  unfold place at h
  split at h
  · cases h
  · next u _ =>
    generalize graft (some r.node) u .empty = result at h
    obtain ⟨_ | root, copy⟩ := result
    · cases h
    · cases hghost : copy.ghost with
      | none => simp only [hghost] at h; cases h
      | some ghost =>
        simp only [hghost] at h
        obtain rfl := Except.ok.inj h
        exact hghost

theorem ghost_deepCopy (s : Store) (id : NodeId) : (s.deepCopy id).ghost = none := by
  have hghost := ghost_graft none (s.unfold id) .empty fun _ _ e => (by cases e)
  rw [deepCopy]
  generalize graft none (s.unfold id) .empty = result at hghost
  obtain ⟨_ | root, copy⟩ := result <;> exact hghost

/-- A placement of a node of a well-formed tree is a well-formed tree with the ghost in it. -/
theorem WellFormed.placed (h : s.WellFormed root) {r : Relocation} {p : Placement}
    (hplace : s.place top r = .ok p) :
    (∃ root, p.tree.WellFormed root) ∧ p.tree.contains p.ghost = true := by
  rcases h.links.place top r with ⟨p', hplace', hone⟩ | ⟨siblings, -, hrefused⟩
  · obtain rfl := Except.ok.inj (hplace.symm.trans hplace')
    have hlive := hone.ghost p.ghost (ghost_of_place hplace)
    exact ⟨hone.exists_wellFormed hlive, hlive⟩
  · rw [hplace] at hrefused
    cases hrefused

end

end Store

/-! ## Sessions -/

namespace Session

variable {s t : Session}

/-- A call keeps the tree, or it drops a placement, whose ghost is no longer one. -/
theorem Step.unmarked (hstep : s.Step t) (h : s.tree.ghost = none) : t.tree.ghost = none := by
  cases hstep with
  | focusOn tree node =>
    rcases focusOn_cases s tree node with ⟨e, he⟩ | ⟨-, -, hok⟩
    · rwa [he]
    · rwa [hok]
  | focusChild index =>
    rcases focusChild_cases s index with ⟨e, he⟩ | ⟨child, -, -, -, hok⟩
    · rwa [he]
    · rwa [hok]
  | focusParent =>
    rcases focusParent_cases s with he | ⟨parent, -, -, hok⟩
    · rwa [he]
    · rwa [hok]
  | beginDrag =>
    rcases beginDrag_cases s with ⟨e, he⟩ | ⟨candidates, -, -, -, hok⟩
    · rwa [he]
    · rwa [hok]
  | update score state =>
    cases hdrag : s.drag with
    | none => rwa [run_update_of_none score state hdrag]
    | some drag => rwa [run_update_of_drag score state hdrag]
  | drop =>
    unfold Session.drop
    split
    · exact h
    · split
      · exact h
      · rfl
  | cancel => exact h

theorem unmarked_of_run (hrun : Relation.ReflTransGen Step s t) (h : s.tree.ghost = none) :
    t.tree.ghost = none := by
  induction hrun with
  | refl => exact h
  | tail _ hstep ih => exact hstep.unmarked ih

theorem tree_of_start {id : TreeId} {tree : Store} (h : start id tree = .ok s) : s.tree = tree := by
  unfold start at h
  split at h
  · exact congrArg Session.tree (Except.ok.inj h).symm
  · cases h

end Session

namespace Store

/-- **The ghost is found where it is reached.** Where child links below a handle close no circle,
the loop of the search comes to its end, and it finds the ghost exactly when there is one and child
links lead to it, from the handle itself or from below. From a node of a placement of a well-formed
tree the ghost is found when the path of the ghost goes on from that of the node, and otherwise
nothing is. In trees that have been parsed or copied nothing is found from anywhere, and a session
that is started on such a tree has only such trees. -/
theorem ghosts_reached :
    (∀ (s : Store) (top : NodeId), s.Acyclic top →
      (∀ steps target, (s.unfold top).size ≤ steps →
        (s.reaches target steps [top] = true ↔ s.Below top target)) ∧
      (∀ ghost, s.findGhost? top = some ghost ↔ s.ghost = some ghost ∧ s.Below top ghost) ∧
      (s.findGhost? top = none ↔ ∀ ghost, s.ghost = some ghost → ¬ s.Below top ghost)) ∧
    (∀ (s : Store) (root top : NodeId) (r : Relocation) (p : Placement), s.WellFormed root →
      s.place top r = .ok p → ∀ node,
        (p.tree.findGhost? node = some p.ghost ↔ p.tree.OnTheWay node p.ghost) ∧
        (¬ p.tree.OnTheWay node p.ghost → p.tree.findGhost? node = none)) ∧
    (∀ options text tree, Parser.parse options text = .ok tree →
      ∀ node, tree.findGhost? node = none) ∧
    (∀ (s : Store) (id node : NodeId), (s.deepCopy id).findGhost? node = none) ∧
    ∀ (id : TreeId) (tree : Store) (start : Session), (∀ node, tree.findGhost? node = none) →
      Session.start id tree = .ok start → ∀ t, Relation.ReflTransGen Session.Step start t →
        ∀ node, t.tree.findGhost? node = none := by
  refine ⟨fun s top h => ⟨fun steps target => h.reaches_iff_below, fun ghost =>
    h.findGhost?_eq_some_iff, ?_⟩, ?_, fun options text tree hparse => ?_, fun s id =>
    (findGhost?_eq_none_iff _).mpr (ghost_deepCopy s id),
    fun id tree start hnone hstart t hrun => ?_⟩
  · rw [Option.eq_none_iff_forall_ne_some]
    simp only [Ne, h.findGhost?_eq_some_iff, not_and]
  · intro s root top r p h hplace node
    obtain ⟨⟨copy, hcopy⟩, hlive⟩ := h.placed hplace
    have hfound (ghost : NodeId) : p.tree.findGhost? node = some ghost ↔
        p.tree.ghost = some ghost ∧ p.tree.Below node ghost :=
      (hcopy.acyclic_below node).findGhost?_eq_some_iff
    rw [ghost_of_place hplace] at hfound
    refine ⟨?_, fun hstray => ?_⟩
    · rw [hfound, ← hcopy.below_iff_onTheWay hlive]
      exact and_iff_right rfl
    · rw [Option.eq_none_iff_forall_ne_some]
      intro ghost hghost
      obtain ⟨hmark, hbelow⟩ := (hfound ghost).mp hghost
      obtain rfl := Option.some.inj hmark
      exact hstray ((hcopy.below_iff_onTheWay hlive).mp hbelow)
  · obtain ⟨d, -, htree⟩ := Parser.isTree_of_parse hparse
    exact (findGhost?_eq_none_iff tree).mpr htree.ghost
  · rw [findGhost?_eq_none_iff] at hnone ⊢
    refine Session.unmarked_of_run hrun ?_
    rwa [Session.tree_of_start hstart]

/-- On shared links the ghost is found, also where it is a node that is gone and still listed. In a
placement it is found from the root and from itself, and not from its sibling; and once it has been
dropped, it is found no more. -/
theorem ghosts_reached_tangle : tangle.Acyclic 0 ∧ tangle.findGhost? 0 = some 1 ∧
    ({ tangle with ghost := some 7 } : Store).findGhost? 0 = some 7 ∧ sumOfNames.WellFormed 0 ∧
      ∃ p, sumOfNames.place 0 ⟨1, 1⟩ = .ok p ∧ p.ghost = 2 ∧ p.tree.findGhost? 0 = some 2 ∧
        p.tree.findGhost? 1 = none ∧ p.tree.findGhost? 2 = some 2 ∧
      ∃ start, Session.start ⟨0, 0⟩ Session.parsedSum = .ok start ∧
        ∀ node, (start.focusChild 0).2.beginDrag.2.drop.2.tree.findGhost? node = none := by
  obtain ⟨hany, hplaced, hparsed, -, hsession⟩ := ghosts_reached
  have hlisted : ∀ c ∈ [1, 7], tangle.Below 0 c := fun c hc => Relation.ReflTransGen.single (by
    fin_cases hc <;> decide)
  have hghost := (hany tangle 0 acyclic_tangle).2.1 1
  have hgone := (hany { tangle with ghost := some 7 } 0 acyclic_tangle).2.1 7
  obtain ⟨p, hplace, hp, h0, h1, h2⟩ : ∃ p, sumOfNames.place 0 ⟨1, 1⟩ = .ok p ∧ p.ghost = 2 ∧
      p.tree.pathOf? 0 = some [] ∧ p.tree.pathOf? 1 = some [0] ∧ p.tree.pathOf? 2 = some [1] :=
    ⟨_, rfl, rfl, by decide, by decide, by decide⟩
  have hfound := hplaced sumOfNames 0 0 ⟨1, 1⟩ p wellFormed_sumOfNames hplace
  rw [hp] at hfound
  refine ⟨acyclic_tangle, hghost.mpr ⟨rfl, hlisted 1 (by decide)⟩,
    hgone.mpr ⟨rfl, hlisted 7 (by decide)⟩, wellFormed_sumOfNames, p, hplace, hp,
    (hfound 0).1.mpr ⟨[], [1], h0, h2, List.nil_prefix⟩, (hfound 1).2 ?_,
    (hfound 2).1.mpr ⟨[1], [1], h2, h2, List.prefix_rfl⟩, _, rfl, ?_⟩
  · rintro ⟨path, deep, hpath, hdeep, hprefix⟩
    obtain rfl := Option.some.inj (h1.symm.trans hpath)
    obtain rfl := Option.some.inj (h2.symm.trans hdeep)
    exact absurd hprefix (by decide)
  · refine hsession ⟨0, 0⟩ Session.parsedSum _ (hparsed _ _ _ Session.parse_parsedSum) rfl _ ?_
    exact ((Relation.ReflTransGen.single (.focusChild 0)).tail .beginDrag).tail .drop

end Store

end ArithTree
