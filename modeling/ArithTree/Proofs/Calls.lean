import ArithTree.Proofs.Sessions

/-!
# How calls fail

What every call answers in a state that a session on a parsed tree can reach (`Session.Exact`).
During a drag the focus cannot be moved and no other drag begins; outside one there is nothing to
score and nothing to drop. A call that fails changes nothing (`Sound.eq_of_fails`), and a drop never
fails half way. Each drop counts the revision of the tree up (`revision_le`), so a handle with the
name of a tree from before a drop is refused ever after (`calls_exact`).
-/

namespace ArithTree

namespace Store

/-- The node is the root or hangs below it. -/
def Attached (s : Store) (node : NodeId) : Prop := ∃ root, s.root = some root ∧ s.Below root node

section

variable {s : Store} {root : NodeId}

/-- The nodes with a path are those below the root. -/
theorem Rooted.pathOf?_eq_none_iff (h : s.Rooted root) {node : NodeId} :
    s.pathOf? node = none ↔ ¬ s.Attached node := by
  rw [← Option.not_isSome_iff_eq_none, Option.isSome_iff_exists, not_iff_not]
  constructor
  · rintro ⟨path, hpath⟩
    rw [h.pathOf?_eq_some_iff, h.nodeAt?_eq] at hpath
    exact ⟨root, h.marked, below_iff_descend.mpr ⟨path, hpath⟩⟩
  · rintro ⟨top, hmarked, hbelow⟩
    obtain rfl : root = top := Option.some.inj (h.marked.symm.trans hmarked)
    obtain ⟨path, hpath⟩ := below_iff_descend.mp hbelow
    exact ⟨path, by rw [h.pathOf?_eq_some_iff, h.nodeAt?_eq, hpath]⟩

/-- Only the root has no link up. -/
theorem Rooted.parent?_eq_none_iff (h : s.Rooted root) {node : NodeId} {path : List Nat}
    (hpath : s.pathOf? node = some path) : s.parent? node = none ↔ s.root = some node := by
  constructor
  · intro hnone
    by_contra hne
    obtain ⟨front, position, rfl⟩ := h.exists_snoc hpath hne
    obtain ⟨parent, hparent, -⟩ := h.parent_of_pathOf? hpath
    cases hnone.symm.trans hparent
  · intro hroot
    obtain rfl : root = node := Option.some.inj (h.marked.symm.trans hroot)
    exact h.top

end

end Store

namespace Session

section

variable {s t : Session} {original : Store}

theorem isDragging_of_drag {drag : Drag} (h : s.drag = some drag) : s.isDragging = true := by
  rw [isDragging, h]
  rfl

theorem isDragging_of_none (h : s.drag = none) : s.isDragging = false := by
  rw [isDragging, h]
  rfl

/-! ## Faults -/

/-- How a call fails that needs the focus to be free: with `dragInProgress` during a drag, and
outside one with `fault`, exactly where it is `refused`. -/
def FailsWhere (s : Session) {α : Type} (answer : Except DragError α) (fault : DragError)
    (refused : Prop) : Prop :=
  ∀ e, answer = .error e ↔
    s.isDragging = true ∧ e = .dragInProgress ∨ s.isDragging = false ∧ refused ∧ e = fault

section

variable {α : Type} {answer : Except DragError α} {fault : DragError} {refused : Prop}

theorem failsWhere_of_drag {drag : Drag} (hdrag : s.drag = some drag)
    (h : answer = .error .dragInProgress) : s.FailsWhere answer fault refused := by
  intro e
  simp [h, isDragging_of_drag hdrag, eq_comm]

theorem failsWhere_of_refused (hidle : s.drag = none) (hrefused : refused)
    (h : answer = .error fault) : s.FailsWhere answer fault refused := by
  intro e
  simp [h, isDragging_of_none hidle, hrefused, eq_comm]

theorem failsWhere_of_ok (hidle : s.drag = none) (hfine : ¬ refused) {a : α} (h : answer = .ok a) :
    s.FailsWhere answer fault refused := by
  intro e
  simp [h, isDragging_of_none hidle, hfine]

end

theorem focusOn_failsWhere {root : NodeId} (hwf : s.tree.WellFormed root) (tree : TreeId)
    (node : NodeId) :
    s.FailsWhere (s.focusOn tree node).1 .unknownNode (tree ≠ s.id ∨ ¬ s.tree.Attached node) := by
  rw [← hwf.pathOf?_eq_none_iff]
  cases hdrag : s.drag with
  | some drag =>
    exact failsWhere_of_drag hdrag (by rw [focusOn, if_pos (isDragging_of_drag hdrag)])
  | none =>
    have hidle := isDragging_of_none hdrag
    by_cases hrefused : tree ≠ s.id ∨ s.tree.pathOf? node = none
    · exact failsWhere_of_refused hdrag hrefused (by simp [focusOn, hidle, hrefused])
    · exact failsWhere_of_ok hdrag hrefused (a := ()) (by simp [focusOn, hidle, hrefused])

/-- A child of the focus has the path of the focus with its position added. -/
theorem Sound.focusChild_eq (h : s.Sound original) (hidle : s.drag = none) {path : List Nat}
    (hpath : s.tree.pathOf? s.focus = some path) {index : Nat} {child : NodeId}
    (hchild : (s.tree.children s.focus)[index]? = some child) :
    s.focusChild index = (.ok child, { s with focus := child }) ∧
      s.tree.pathOf? child = some (path ++ [index]) := by
  obtain ⟨root, hwf⟩ := h.wellFormed
  have hend : s.tree.pathOf? child = some (path ++ [index]) := by
    rw [hwf.pathOf?_eq_some_iff, hwf.nodeAt?_eq] at hpath ⊢
    exact Store.descend_snoc_iff.mpr ⟨s.focus, hpath, hchild⟩
  refine ⟨?_, hend⟩
  simp [Session.focusChild, Session.focusOn, isDragging_of_none hidle, hchild, hend]

theorem Sound.focusChild_failsWhere (h : s.Sound original) (index : Nat) :
    s.FailsWhere (s.focusChild index).1 .unknownNode
      ((s.tree.children s.focus).length ≤ index) := by
  cases hdrag : s.drag with
  | some drag =>
    exact failsWhere_of_drag hdrag (by rw [Session.focusChild, if_pos (isDragging_of_drag hdrag)])
  | none =>
    cases hchild : (s.tree.children s.focus)[index]? with
    | none =>
      refine failsWhere_of_refused hdrag (List.getElem?_eq_none_iff.mp hchild) ?_
      simp [Session.focusChild, isDragging_of_none hdrag, hchild]
    | some child =>
      obtain ⟨path, hpath⟩ := h.attached
      have hlt := (List.getElem?_eq_some_iff.mp hchild).1
      exact failsWhere_of_ok hdrag (Nat.not_le.mpr hlt)
        (congrArg Prod.fst (h.focusChild_eq hdrag hpath hchild).1)

theorem Sound.beginDrag_failsWhere (h : s.Sound original) :
    s.FailsWhere s.beginDrag.1 .rootNotMovable (s.tree.root = some s.focus) := by
  cases hdrag : s.drag with
  | some drag =>
    exact failsWhere_of_drag hdrag (by rw [Session.beginDrag, if_pos (isDragging_of_drag hdrag)])
  | none =>
    have hidle := isDragging_of_none hdrag
    by_cases hroot : s.tree.root = some s.focus
    · exact failsWhere_of_refused hdrag hroot (by simp [Session.beginDrag, hidle, hroot])
    · obtain ⟨root, parent, -, -, hwf, -, hparent, -⟩ := h.exists_parent hroot
      obtain ⟨all, hall, -⟩ := hwf.exists_placements hparent
      exact failsWhere_of_ok hdrag hroot (a := all.length)
        (by simp [Session.beginDrag, hidle, hroot, hall])

/-- Outside a drag the focus moves up where it is not the root. -/
theorem Sound.focusParent_eq (h : s.Sound original) (hidle : s.drag = none) {path : List Nat}
    {position : Nat} (hpath : s.tree.pathOf? s.focus = some (path ++ [position])) :
    ∃ parent, s.focusParent = (some parent, { s with focus := parent }) ∧
      s.tree.pathOf? parent = some path := by
  obtain ⟨root, hwf⟩ := h.wellFormed
  obtain ⟨parent, hparent, hat, -⟩ := hwf.parent_of_pathOf? hpath
  exact ⟨parent, by simp [Session.focusParent, isDragging_of_none hidle, hparent],
    hwf.pathOf?_eq_some_iff.mpr hat⟩

theorem Sound.focusParent_eq_none_iff (h : s.Sound original) :
    s.focusParent.1 = none ↔ s.isDragging = true ∨ s.tree.root = some s.focus := by
  cases hdrag : s.drag with
  | some drag =>
    have hdragging := isDragging_of_drag hdrag
    simp [Session.focusParent, hdragging]
  | none =>
    obtain ⟨root, hwf⟩ := h.wellFormed
    obtain ⟨path, hpath⟩ := h.attached
    have hidle := isDragging_of_none hdrag
    rw [← hwf.parent?_eq_none_iff hpath]
    cases hparent : s.tree.parent? s.focus <;> simp [Session.focusParent, hidle, hparent]

/-- An update answers with its choice. -/
theorem update_answer_of_drag {σ : Type} (score : Placement → StateM σ Score) (state : σ)
    {drag : Drag} (hdrag : s.drag = some drag) : ((s.update score).run state).1.1 =
      some ((Score.earliestLeast? (s.answers score state)).getD drag.chosen) := by
  have hcandidates : s.candidates = drag.candidates := by rw [candidates, hdrag]
  rw [answers, hcandidates, update, hdrag]
  rfl

theorem update_eq_none_iff {σ : Type} (score : Placement → StateM σ Score) (state : σ) :
    ((s.update score).run state).1.1 = none ↔ s.isDragging = false := by
  cases hdrag : s.drag with
  | some drag => simp [update_answer_of_drag score state hdrag, isDragging_of_drag hdrag]
  | none =>
    rw [update, hdrag]
    exact iff_of_true rfl (isDragging_of_none hdrag)

/-- A drag always has the placement that it is to commit. -/
theorem Sound.drop_eq_error_iff (h : s.Sound original) (e : DragError) :
    s.drop.1 = .error e ↔ s.isDragging = false ∧ e = .notDragging := by
  cases hdrag : s.drag with
  | none =>
    have hidle := isDragging_of_none hdrag
    simp [Session.drop, hdrag, hidle, eq_comm]
  | some drag =>
    obtain ⟨root, parent, p, -, -, hchosen, -⟩ := h.exists_chosen hdrag
    simp [drop_of_drag hdrag hchosen, isDragging_of_drag hdrag]

/-! ## Failed calls -/

/-- A call of `s` that answers with an error or with nothing, and the session after it. -/
inductive Fails (s : Session) : Session → Prop
  | focusOn {tree : TreeId} {node : NodeId} {e : DragError} :
      (s.focusOn tree node).1 = .error e → Fails s (s.focusOn tree node).2
  | focusChild {index : Nat} {e : DragError} :
      (s.focusChild index).1 = .error e → Fails s (s.focusChild index).2
  | focusParent : s.focusParent.1 = none → Fails s s.focusParent.2
  | beginDrag {e : DragError} : s.beginDrag.1 = .error e → Fails s s.beginDrag.2
  | update {σ : Type} {score : Placement → StateM σ Score} {state : σ} :
      ((s.update score).run state).1.1 = none → Fails s ((s.update score).run state).1.2
  | drop {e : DragError} : s.drop.1 = .error e → Fails s s.drop.2

/-- **A call that fails changes nothing.** -/
theorem Sound.eq_of_fails (h : s.Sound original) (hfails : Fails s t) : t = s := by
  cases hfails with
  | @focusOn tree node e he =>
    rcases focusOn_cases s tree node with ⟨_, hsame⟩ | ⟨-, -, hok⟩
    · rw [hsame]
    · rw [hok] at he
      cases he
  | @focusChild index e he =>
    rcases focusChild_cases s index with ⟨_, hsame⟩ | ⟨_, -, -, -, hok⟩
    · rw [hsame]
    · rw [hok] at he
      cases he
  | focusParent hnone =>
    rcases focusParent_cases s with hsame | ⟨_, -, -, hok⟩
    · rw [hsame]
    · rw [hok] at hnone
      cases hnone
  | @beginDrag e he =>
    rcases beginDrag_cases s with ⟨_, hsame⟩ | ⟨_, -, -, -, hok⟩
    · rw [hsame]
    · rw [hok] at he
      cases he
  | @update σ score state hnone =>
    cases hdrag : s.drag with
    | none => exact run_update_of_none score state hdrag
    | some drag =>
      rw [update_answer_of_drag score state hdrag] at hnone
      cases hnone
  | @drop e he =>
    cases hdrag : s.drag with
    | none => simp only [Session.drop, hdrag]
    | some drag =>
      rw [h.drop_eq_error_iff, isDragging_of_drag hdrag] at he
      cases he.1

/-! ## Revisions -/

/-- Only a drop gives the session another tree, with the revision counted up. -/
theorem id_of_step (h : Step s t) : t.id = s.id ∨ t.id = s.id.next := by
  cases h with
  | focusOn tree node =>
    rcases focusOn_cases s tree node with ⟨_, hsame⟩ | ⟨-, -, hok⟩
    · exact Or.inl (by rw [hsame])
    · exact Or.inl (by rw [hok])
  | focusChild index =>
    rcases focusChild_cases s index with ⟨_, hsame⟩ | ⟨_, -, -, -, hok⟩
    · exact Or.inl (by rw [hsame])
    · exact Or.inl (by rw [hok])
  | focusParent =>
    rcases focusParent_cases s with hsame | ⟨_, -, -, hok⟩
    · exact Or.inl (by rw [hsame])
    · exact Or.inl (by rw [hok])
  | beginDrag =>
    rcases beginDrag_cases s with ⟨_, hsame⟩ | ⟨_, -, -, -, hok⟩
    · exact Or.inl (by rw [hsame])
    · exact Or.inl (by rw [hok])
  | update score state =>
    cases hdrag : s.drag with
    | none => exact Or.inl (by rw [run_update_of_none score state hdrag])
    | some drag => exact Or.inl (by rw [run_update_of_drag score state hdrag])
  | drop =>
    cases hdrag : s.drag with
    | none => exact Or.inl (by simp only [Session.drop, hdrag])
    | some drag =>
      cases hchosen : drag.candidates[drag.chosen]? with
      | none => exact Or.inl (by simp only [Session.drop, hdrag, hchosen])
      | some p => exact Or.inr (by rw [drop_of_drag hdrag hchosen])
  | cancel => exact Or.inl rfl

theorem revision_le (h : Relation.ReflTransGen Step s t) : s.id.revision ≤ t.id.revision := by
  induction h with
  | refl => exact Nat.le_refl _
  | tail _ hstep ih =>
    refine Nat.le_trans ih ?_
    rcases id_of_step hstep with hid | hid
    · rw [hid]
    · rw [hid]
      exact Nat.le_succ _

theorem id_drop {node : NodeId} (h : s.drop.1 = .ok node) : s.drop.2.id = s.id.next := by
  cases hdrag : s.drag with
  | none =>
    simp only [drop, hdrag] at h
    cases h
  | some drag =>
    cases hchosen : drag.candidates[drag.chosen]? with
    | none =>
      simp only [drop, hdrag, hchosen] at h
      cases h
    | some p => rw [drop_of_drag hdrag hchosen]

/-- The name of a tree from before a drop is no name of a tree after it. -/
theorem id_ne_of_drop {before after : Session} {node : NodeId}
    (hbefore : Relation.ReflTransGen Step s before) (hdrop : before.drop.1 = .ok node)
    (hafter : Relation.ReflTransGen Step before.drop.2 after) : s.id ≠ after.id := by
  intro hid
  have hle := revision_le hbefore
  have hle' := revision_le hafter
  rw [id_drop hdrop, ← hid] at hle'
  exact absurd hle' (Nat.not_le.mpr (Nat.lt_succ_of_le hle))

/-- Another tree than the present one is refused, whatever the handle. -/
theorem focusOn_of_ne {tree : TreeId} (h : tree ≠ s.id) (node : NodeId) : s.focusOn tree node =
    (.error (if s.isDragging then .dragInProgress else .unknownNode), s) := by
  unfold focusOn
  split
  · rfl
  · rw [if_pos (Or.inl h)]

/-! ## All calls -/

/-- How the calls of a session end, and where the focus is after those that move it. -/
structure Exact (s : Session) : Prop where
  beginDrag : s.FailsWhere s.beginDrag.1 .rootNotMovable (s.tree.root = some s.focus)
  focusOn : ∀ tree node,
    s.FailsWhere (s.focusOn tree node).1 .unknownNode (tree ≠ s.id ∨ ¬ s.tree.Attached node)
  focusChild : ∀ index,
    s.FailsWhere (s.focusChild index).1 .unknownNode ((s.tree.children s.focus).length ≤ index)
  focusParent : s.focusParent.1 = none ↔ s.isDragging = true ∨ s.tree.root = some s.focus
  update : ∀ {σ : Type} (score : Placement → StateM σ Score) (state : σ),
    ((s.update score).run state).1.1 = none ↔ s.isDragging = false
  drop : ∀ e, s.drop.1 = .error e ↔ s.isDragging = false ∧ e = .notDragging
  focusedOn : ∀ tree node, (s.focusOn tree node).1 = .ok () →
    (s.focusOn tree node).2 = { s with focus := node }
  focusedChild : ∀ index child, (s.focusChild index).1 = .ok child →
    (s.focusChild index).2 = { s with focus := child } ∧
      ∃ path, s.tree.pathOf? s.focus = some path ∧ s.tree.pathOf? child = some (path ++ [index])
  focusedParent : ∀ parent, s.focusParent.1 = some parent →
    s.focusParent.2 = { s with focus := parent } ∧
      ∃ path position, s.tree.pathOf? s.focus = some (path ++ [position]) ∧
        s.tree.pathOf? parent = some path

theorem Sound.exact (h : s.Sound original) : s.Exact where
  beginDrag := h.beginDrag_failsWhere
  focusOn tree node := by
    obtain ⟨root, hwf⟩ := h.wellFormed
    exact focusOn_failsWhere hwf tree node
  focusChild := h.focusChild_failsWhere
  focusParent := h.focusParent_eq_none_iff
  update := update_eq_none_iff
  drop := h.drop_eq_error_iff
  focusedOn tree node hok := by
    rcases focusOn_cases s tree node with ⟨e, he⟩ | ⟨-, -, heq⟩
    · rw [he] at hok
      cases hok
    · rw [heq]
  focusedChild index child hok := by
    rcases focusChild_cases s index with ⟨e, he⟩ | ⟨c, hlisted, hidle, -, heq⟩
    · rw [he] at hok
      cases hok
    · rw [heq] at hok ⊢
      obtain rfl : c = child := Except.ok.inj hok
      obtain ⟨path, hpath⟩ := h.attached
      exact ⟨rfl, path, hpath, (h.focusChild_eq hidle hpath hlisted).2⟩
  focusedParent parent hok := by
    rcases focusParent_cases s with hnone | ⟨p, hparent, hidle, heq⟩
    · rw [hnone] at hok
      cases hok
    · rw [heq] at hok ⊢
      obtain rfl : p = parent := Option.some.inj hok
      obtain ⟨-, p', path, position, -, hpath, hparent', hup, -⟩ :=
        h.exists_parent (h.root_ne_focus hparent)
      obtain rfl : p' = p := Option.some.inj (hparent'.symm.trans hparent)
      exact ⟨rfl, path, position, hpath, hup⟩

/-- **Calls fail exactly where they have to.** In every state of a session on a parsed tree each
call fails under its own condition and with its own error, and a call that fails changes nothing.
Once a drop has succeeded, no handle is accepted with the name of a tree that the session held
before. -/
theorem calls_exact (options : ParserOptions) (text : String) (tree : Store) (id : TreeId)
    (h : Parser.parse options text = .ok tree) :
    ∃ start, Session.start id tree = .ok start ∧
      ∀ s, Relation.ReflTransGen Step start s → s.Exact ∧ (∀ t, Fails s t → t = s) ∧
        ∀ before dropped after, Relation.ReflTransGen Step s before →
          before.drop.1 = .ok dropped → Relation.ReflTransGen Step before.drop.2 after →
          ∀ node, after.focusOn s.id node =
            (.error (if after.isDragging then .dragInProgress else .unknownNode), after) := by
  obtain ⟨root, -, -, hstart, hsound⟩ := start_of_parse id h
  refine ⟨_, hstart, fun s hrun => ?_⟩
  have hs := hsound.run hrun
  refine ⟨hs.exact, fun t => hs.eq_of_fails, ?_⟩
  intro before dropped after hbefore hdrop hafter
  exact focusOn_of_ne (id_ne_of_drop hbefore hdrop hafter)

end

/-- After the first name of a sum has been picked up and dropped, its handle in the tree that was
parsed is refused. -/
theorem calls_exact_parsedSum : Parser.parse ⟨true, none⟩ "a+b" = .ok parsedSum ∧
    ∃ start, Session.start ⟨0, 0⟩ parsedSum = .ok start ∧
      ((start.focusChild 0).2.beginDrag.2.drop.2.focusOn ⟨0, 0⟩ 0).1 = .error .unknownNode := by
  obtain ⟨start, hstart, hall⟩ :=
    calls_exact ⟨true, none⟩ "a+b" parsedSum ⟨0, 0⟩ parse_parsedSum
  obtain rfl : (⟨⟨0, 0⟩, parsedSum, 2, none⟩ : Session) = start := Except.ok.inj hstart
  obtain ⟨-, -, hstale⟩ := hall _ .refl
  refine ⟨parse_parsedSum, _, hstart, ?_⟩
  have hbefore : Relation.ReflTransGen Step ⟨⟨0, 0⟩, parsedSum, 2, none⟩ _ :=
    (Relation.ReflTransGen.single (.focusChild 0)).tail .beginDrag
  exact congrArg Prod.fst (hstale _ 1 _ hbefore rfl .refl 0)

end Session

end ArithTree
