import ArithTree.Proofs.Composition
import ArithTree.Proofs.Moves
import ArithTree.Proofs.Sessions

/-!
# A drop commits the chosen move

Beginning a drag, scoring candidates any number of times and dropping is one move of the focus to
the slot that was picked last (`drop_commits`). Updates change the choice only (`Updates.eq`), and a
drop commits the choice, with the subtree below the focus as it was (`Sound.exists_dropped`).
-/

namespace ArithTree

namespace Store

section

variable {f : NodeId → NodeId} {s t : Store} {root parent : NodeId}

/-! ## What a move leaves alone -/

theorem Renaming.clearGhost (h : s.Renaming f t) : s.Renaming f t.clearGhost :=
  ⟨h.injective, h.onto, h.node, h.root⟩

/-- The subtree below the moved node is as it was, up to handles. -/
theorem Rooted.unfold_relocated (h : s.Rooted root) {r : Relocation}
    (hbelow : s.Below root r.node) (hparent : s.parent? r.node = some parent)
    (hf : (s.relocated parent r).Renaming f t) :
    t.unfold (f r.node) = (s.unfold r.node).rename f := by
  obtain ⟨hheld, hnodup⟩ := h.holds_unfold hbelow
  obtain ⟨hup, hlisted⟩ := h.mem_children_of_parent? hbelow hparent
  -- the child list that changes is not below the node
  have outside : parent ∉ (s.unfold r.node).ids := by
    rw [← hheld.below_iff, unfold_id]
    exact h.acyclic hup hlisted
  have hmoved : (s.relocated parent r).Holds (s.parent? r.node) (s.unfold r.node) :=
    hheld.congr fun x hx => by
      rw [Unfolding.node?_relocated, if_neg (ne_of_mem_of_not_mem hx outside)]
  have heq := hf.unfold_eq hmoved hnodup
  rwa [unfold_id] at heq

end

end Store

namespace Session

/-! ## Updates -/

/-- A run of updates, with the scores that were given to each of them. -/
inductive Updates (s : Session) : List (List Score) → Session → Prop
  | none : Updates s [] s
  | update {given : List (List Score)} {t : Session} {σ : Type}
      (score : Placement → StateM σ Score) (state : σ) : Updates s given t →
      Updates s (given ++ [t.answers score state]) ((t.update score).run state).1.2

/-- The number picked by the last update that was given a defined score, and `first` without one. -/
def lastPick (first : Nat) (given : List (List Score)) : Nat :=
  (given.filterMap Score.earliestLeast?).getLast?.getD first

theorem lastPick_concat (first : Nat) (given : List (List Score)) (scores : List Score) :
    lastPick first (given ++ [scores]) =
      (Score.earliestLeast? scores).getD (lastPick first given) := by
  unfold lastPick
  rw [List.filterMap_append]
  cases hpick : Score.earliestLeast? scores <;> simp [hpick]

/-- Without a defined score nothing is picked. -/
theorem lastPick_of_undefined {first : Nat} {given : List (List Score)}
    (h : ∀ scores ∈ given, ∀ rank, .place rank ∉ scores) : lastPick first given = first := by
  have hnone : given.filterMap Score.earliestLeast? = [] := by
    refine List.filterMap_eq_nil_iff.mpr fun scores hscores => ?_
    rw [← Option.not_isSome_iff_eq_none, Score.isSome_earliestLeast?_iff]
    exact fun ⟨rank, hrank⟩ => h scores hscores rank hrank
  rw [lastPick, hnone]
  rfl

section

variable {s t : Session} {given : List (List Score)}

/-- **Updates change the choice only.** -/
theorem Updates.eq (h : Updates s given t) {drag : Drag} (hdrag : s.drag = some drag) :
    t = { s with drag := some { drag with chosen := lastPick drag.chosen given } } := by
  induction h with
  | none =>
    obtain ⟨id, tree, focus, d⟩ := s
    obtain rfl : d = some drag := hdrag
    rfl
  | @update given t _ score state _ ih =>
    have hid : t.id = s.id := by rw [ih]
    have htree : t.tree = s.tree := by rw [ih]
    have hfocus : t.focus = s.focus := by rw [ih]
    have ht : t.drag = some { drag with chosen := lastPick drag.chosen given } := by rw [ih]
    rw [run_update_of_drag score state ht, lastPick_concat, hid, htree, hfocus]

theorem Updates.run (h : Updates s given t) : Relation.ReflTransGen Step s t := by
  induction h with
  | none => exact Relation.ReflTransGen.refl
  | update score state _ ih => exact ih.tail (.update score state)

/-! ## The whole drag -/

variable {original : Store} {path : List Nat} {position : Nat}

/-- A drag of a node with a parent begins, with the slot that the node is on. -/
theorem Sound.beginDrag_eq (h : s.Sound original) (hdrag : s.drag = none)
    (hpath : s.tree.pathOf? s.focus = some (path ++ [position])) : ∃ candidates, s.beginDrag =
      (.ok candidates.length, { s with drag := some ⟨candidates, position⟩ }) := by
  obtain ⟨root, hwf⟩ := h.wellFormed
  obtain ⟨parent, hparent, -, -, hposition⟩ := hwf.parent_of_pathOf? hpath
  obtain ⟨all, hall, -⟩ := hwf.exists_placements hparent
  have hne := h.root_ne_focus hparent
  refine ⟨all, ?_⟩
  simp [Session.beginDrag, isDragging, hdrag, hne, hall, hposition]

/-- `dropped` is `s` after a move of the focus from `position` to `slot` of its child list: the tree
is the one that the move gives, without its ghost, and the focus has moved with all that is below
it. A move to the same slot leaves the tree as it is, up to handles. -/
structure Commits (s dropped : Session) (path : List Nat) (position slot : Nat) : Prop where
  moved : ∃ root p, s.tree.root = some root ∧ s.tree.place root ⟨s.focus, slot⟩ = .ok p ∧
    dropped.tree = p.tree.clearGhost ∧
    ∀ written, NodePath.parse? written = some (path ++ [position]) →
      s.tree.relocate written slot = .ok p
  path : dropped.tree.pathOf? dropped.focus = some (path ++ [slot])
  below : ∃ f, dropped.tree.unfold dropped.focus = (s.tree.unfold s.focus).rename f
  still : slot = position → ∃ f, s.tree.Renaming f dropped.tree

/-- A drop commits the choice. -/
theorem Sound.exists_dropped (h : s.Sound original) {drag : Drag} (hdrag : s.drag = some drag)
    (hpath : s.tree.pathOf? s.focus = some (path ++ [position])) :
    ∃ dropped, s.drop = (.ok dropped.focus, dropped) ∧ dropped.drag = none ∧
      Commits s dropped path position drag.chosen := by
  obtain ⟨root, parent, p, hwf, hparent, hchosen, hplace, -, hrelocates⟩ := h.exists_chosen hdrag
  obtain ⟨parent', hparent', -, hlisted, -⟩ := hwf.parent_of_pathOf? hpath
  obtain rfl : parent' = parent := Option.some.inj (hparent'.symm.trans hparent)
  have hbelow := hwf.reached _ (Store.contains_of_parent? hparent)
  have hup := (hwf.mem_children_of_parent? hbelow hparent).1
  obtain ⟨f, hf, hghost⟩ := hrelocates.moved
  refine ⟨⟨s.id.next, p.tree.clearGhost, p.ghost, none⟩, drop_of_drag hdrag hchosen, rfl,
    ⟨root, p, hwf.marked, hplace, rfl, fun written hread => ?_⟩, ?_, ⟨f, ?_⟩, fun hstill => ?_⟩
  · exact Store.relocate_of_place (Store.resolveMovable_of_parse? hread
      (Store.nodeAt?_of_pathOf? hpath) (h.drags drag hdrag).movable) hwf.marked hplace
  · rw [Store.pathOf?_clearGhost, hrelocates.pathOf?_ghost hpath]
  · rw [hghost]
    exact hwf.unfold_relocated hbelow hparent hf.clearGhost
  · rw [hstill] at hf
    exact ⟨f, (hf.of_relocated_self (hwf.once _ hup) hlisted).clearGhost⟩

/-- **A drop commits the chosen move.** Outside a drag, let the focus of a session on a parsed tree
be on a path that is not empty. Then a drag can begin. After any updates it can be cancelled, with
the session as it was, and it can be dropped, which moves the focus to the slot that was picked
last. Where no update was given a defined score, the tree stays as it was, up to handles. -/
theorem drop_commits (options : ParserOptions) (text : String) (tree : Store) (id : TreeId)
    (h : Parser.parse options text = .ok tree) :
    ∃ start, Session.start id tree = .ok start ∧
      ∀ s, Relation.ReflTransGen Step start s → s.drag = none →
        ∀ path position, s.tree.pathOf? s.focus = some (path ++ [position]) →
          ∃ count dragging, s.beginDrag = (.ok count, dragging) ∧
            ∀ given dragged, Updates dragging given dragged →
              dragged.cancel = s ∧
              ∃ dropped, dragged.drop = (.ok dropped.focus, dropped) ∧ dropped.drag = none ∧
                Commits s dropped path position (lastPick position given) ∧
                ((∀ scores ∈ given, ∀ rank, .place rank ∉ scores) →
                  ∃ f, s.tree.Renaming f dropped.tree) := by
  obtain ⟨root, -, -, hstart, hsound⟩ := start_of_parse id h
  refine ⟨_, hstart, fun s hrun hdrag path position hpath => ?_⟩
  have hs := hsound.run hrun
  obtain ⟨candidates, hbegin⟩ := hs.beginDrag_eq hdrag hpath
  have hbegun : Sound tree s.beginDrag.2 := hs.beginDrag
  rw [hbegin] at hbegun
  refine ⟨_, _, hbegin, fun given dragged hupdates => ?_⟩
  have hdragged := hbegun.run hupdates.run
  obtain rfl := hupdates.eq rfl
  constructor
  · obtain ⟨_, _, _, d⟩ := s
    obtain rfl : d = none := hdrag
    rfl
  · obtain ⟨dropped, hdrop, hover, hmoved, hend, hbelow, hstill⟩ :=
      hdragged.exists_dropped rfl hpath
    exact ⟨dropped, hdrop, hover, ⟨hmoved, hend, hbelow, hstill⟩,
      fun hundefined => hstill (lastPick_of_undefined hundefined)⟩

end

/-- Scores by which the last candidate is the closest. -/
def preferLast (p : Placement) : StateM Unit Score := pure (.place (-(p.slot?.getD 0 : Nat)))

/-- The first name of a sum of two is dragged behind the second. -/
theorem drop_commits_parsedSum : Parser.parse ⟨true, none⟩ "a+b" = .ok parsedSum ∧
    ∃ start dropped, Session.start ⟨0, 0⟩ parsedSum = .ok start ∧
      (((start.focusChild 0).2.beginDrag.2.update preferLast).run ()).1.2.drop =
        (.ok dropped.focus, dropped) ∧
      Commits (start.focusChild 0).2 dropped [] 0 1 := by
  obtain ⟨start, hstart, hall⟩ :=
    drop_commits ⟨true, none⟩ "a+b" parsedSum ⟨0, 0⟩ parse_parsedSum
  obtain rfl : (⟨⟨0, 0⟩, parsedSum, 2, none⟩ : Session) = start := Except.ok.inj hstart
  obtain ⟨count, dragging, hbegin, hrun⟩ := hall _ (.single (.focusChild 0)) rfl [] 0 (by decide)
  obtain rfl : _ = dragging := congrArg Prod.snd hbegin
  obtain ⟨-, dropped, hdrop, -, hcommits, -⟩ := hrun _ _ (.update preferLast () .none)
  exact ⟨parse_parsedSum, _, dropped, hstart, hdrop, hcommits⟩

end Session

end ArithTree
