import ArithTree.Proofs.Reordering
import ArithTree.Proofs.RoundTrip
import ArithTree.Proofs.Scores
import ArithTree.Session
import Mathlib

/-!
# Drag sessions

What every run of calls keeps in a session (`Session.Sound`): the tree is the one that was parsed
but for the order of children, the focus hangs below its root, and a drag has one candidate for each
sibling of the focus and chooses one of them. Each call is inverted once and keeps the invariant
(`Sound.step`), and so does every run (`sessions_sound`).
-/

namespace ArithTree

namespace Session

/-! ## Scoring -/

/-- What a host answers to an update when it scores with `score` and this state of its own. -/
def answers {σ : Type} (score : Placement → StateM σ Score) (state : σ) (s : Session) :
    List Score :=
  ((s.candidates.mapM score).run state).1

theorem length_run_mapM {σ α β : Type} (f : α → StateM σ β) (l : List α) :
    ∀ state : σ, ((l.mapM f).run state).1.length = l.length := by
  induction l with
  | nil => exact fun _ => rfl
  | cons a l ih =>
    intro state
    rw [List.mapM_cons]
    exact congrArg (· + 1) (ih ((f a).run state).2)

section

variable {σ : Type} (score : Placement → StateM σ Score) (state : σ) (s : Session)

theorem length_answers : (s.answers score state).length = s.candidates.length :=
  length_run_mapM score s.candidates state

/-- An update of a drag makes a new choice where some score is defined, and keeps the old one
otherwise. -/
theorem run_update_of_drag {s : Session} {drag : Drag} (hdrag : s.drag = some drag) :
    ((s.update score).run state).1.2 = { s with drag := some { drag with
      chosen := (Score.earliestLeast? (s.answers score state)).getD drag.chosen } } := by
  have hcandidates : s.candidates = drag.candidates := by rw [candidates, hdrag]
  rw [answers, hcandidates, update, hdrag]
  rfl

theorem run_update_of_none {s : Session} (hdrag : s.drag = none) :
    ((s.update score).run state).1.2 = s := by
  rw [update, hdrag]
  rfl

end

/-! ## Calls -/

/-- One call of a session, with any arguments. Scoring may keep a state of any type. -/
inductive Step (s : Session) : Session → Prop
  | focusOn (tree : TreeId) (node : NodeId) : Step s (s.focusOn tree node).2
  | focusChild (index : Nat) : Step s (s.focusChild index).2
  | focusParent : Step s s.focusParent.2
  | beginDrag : Step s s.beginDrag.2
  | update {σ : Type} (score : Placement → StateM σ Score) (state : σ) :
      Step s ((s.update score).run state).1.2
  | drop : Step s s.drop.2
  | cancel : Step s s.cancel

section

variable {s : Session}

/-- The focus goes to a node below the root, or the call fails. -/
theorem focusOn_cases (s : Session) (tree : TreeId) (node : NodeId) :
    (∃ e, s.focusOn tree node = (.error e, s)) ∨
      s.drag = none ∧ (∃ path, s.tree.pathOf? node = some path) ∧
        s.focusOn tree node = (.ok (), { s with focus := node }) := by
  unfold focusOn isDragging
  cases hdrag : s.drag with
  | some drag => exact Or.inl ⟨_, rfl⟩
  | none =>
    by_cases hrefused : tree ≠ s.id ∨ s.tree.pathOf? node = none
    · exact Or.inl ⟨.unknownNode, by simp [hrefused]⟩
    · obtain ⟨-, hpath⟩ := not_or.mp hrefused
      exact Or.inr ⟨rfl, Option.ne_none_iff_exists'.mp hpath, by simp [hrefused]⟩

theorem focusChild_cases (s : Session) (index : Nat) :
    (∃ e, s.focusChild index = (.error e, s)) ∨
      ∃ child, (s.tree.children s.focus)[index]? = some child ∧ s.drag = none ∧
        (∃ path, s.tree.pathOf? child = some path) ∧
          s.focusChild index = (.ok child, { s with focus := child }) := by
  unfold focusChild
  by_cases hdrag : s.isDragging = true
  · exact Or.inl ⟨_, if_pos hdrag⟩
  · rw [if_neg hdrag]
    cases hchild : (s.tree.children s.focus)[index]? with
    | none => exact Or.inl ⟨_, rfl⟩
    | some child =>
      rcases focusOn_cases s s.id child with ⟨e, he⟩ | ⟨hnone, hpath, hok⟩
      · exact Or.inl ⟨e, by simp only [he]⟩
      · exact Or.inr ⟨child, rfl, hnone, hpath, by simp only [hok]⟩

theorem focusParent_cases (s : Session) :
    s.focusParent = (none, s) ∨ ∃ parent, s.tree.parent? s.focus = some parent ∧ s.drag = none ∧
      s.focusParent = (some parent, { s with focus := parent }) := by
  unfold focusParent isDragging
  cases hdrag : s.drag with
  | some drag => exact Or.inl rfl
  | none =>
    cases hparent : s.tree.parent? s.focus with
    | none => exact Or.inl rfl
    | some parent => exact Or.inr ⟨parent, rfl, rfl, rfl⟩

/-- A drag starts with the placements of the focus and the slot it is on, or the call fails. -/
theorem beginDrag_cases (s : Session) :
    (∃ e, s.beginDrag = (.error e, s)) ∨
      ∃ candidates, s.drag = none ∧ s.tree.root ≠ some s.focus ∧
        s.tree.placements s.focus = .ok candidates ∧
          s.beginDrag = (.ok candidates.length,
            { s with drag := some ⟨candidates, (s.tree.position? s.focus).getD 0⟩ }) := by
  unfold beginDrag isDragging
  cases hdrag : s.drag with
  | some drag => exact Or.inl ⟨_, rfl⟩
  | none =>
    by_cases hroot : s.tree.root = some s.focus
    · exact Or.inl ⟨.rootNotMovable, by simp [hroot]⟩
    · cases hall : s.tree.placements s.focus with
      | error e => exact Or.inl ⟨.listedTwice, by simp [hroot]⟩
      | ok candidates => exact Or.inr ⟨candidates, rfl, hroot, rfl, by simp [hroot]⟩

theorem drop_of_drag {drag : Drag} {p : Placement} (hdrag : s.drag = some drag)
    (hchosen : drag.candidates[drag.chosen]? = some p) :
    s.drop = (.ok p.ghost, ⟨s.id.next, p.tree.clearGhost, p.ghost, none⟩) := by
  simp only [drop, hdrag, hchosen]

/-! ## The invariant -/

/-- The focus is being moved: it is not the root, the candidates are all its placements, one for
each of its siblings with itself, and the choice is one of them. -/
structure Drags (s : Session) (drag : Drag) : Prop where
  movable : s.tree.root ≠ some s.focus
  candidates : s.tree.placements s.focus = .ok drag.candidates
  siblings : ∃ parent, s.tree.parent? s.focus = some parent ∧
    drag.candidates.length = (s.tree.children parent).length
  chosen : drag.chosen < drag.candidates.length

/-- The tree is well-formed, has no ghost and differs from `original` by the order of children
only; the focus is in the tree; and a drag moves the focus. -/
structure Sound (original : Store) (s : Session) : Prop where
  wellFormed : ∃ root, s.tree.WellFormed root
  unmarked : s.tree.ghost = none
  reordered : ∃ f, original.Reorders f s.tree
  attached : ∃ path, s.tree.pathOf? s.focus = some path
  drags : ∀ drag, s.drag = some drag → s.Drags drag

variable {original : Store}

/-- Outside a drag the focus may go to any node of the tree. -/
theorem Sound.refocus (h : s.Sound original) {node : NodeId} (hdrag : s.drag = none)
    (hpath : ∃ path, s.tree.pathOf? node = some path) :
    Sound original { s with focus := node } where
  wellFormed := h.wellFormed
  unmarked := h.unmarked
  reordered := h.reordered
  attached := hpath
  drags drag hd := by
    have hd : s.drag = some drag := hd
    rw [hdrag] at hd
    cases hd

/-- A drag may be put into a session when it moves the focus. -/
theorem Sound.redrag (h : s.Sound original) {drag : Option Drag}
    (hdrag : ∀ d, drag = some d → s.Drags d) : Sound original { s with drag := drag } where
  wellFormed := h.wellFormed
  unmarked := h.unmarked
  reordered := h.reordered
  attached := h.attached
  drags d hd := ⟨(hdrag d hd).movable, (hdrag d hd).candidates, (hdrag d hd).siblings,
    (hdrag d hd).chosen⟩

theorem Sound.root_ne_focus (h : s.Sound original) {parent : NodeId}
    (hparent : s.tree.parent? s.focus = some parent) : s.tree.root ≠ some s.focus := by
  intro hroot
  obtain ⟨root, hwf⟩ := h.wellFormed
  exact hwf.ne_root hparent (Option.some.inj (hroot.symm.trans hwf.marked))

/-- The place of a focus that is not the root. -/
theorem Sound.exists_parent (h : s.Sound original) (hne : s.tree.root ≠ some s.focus) :
    ∃ root parent path position, s.tree.WellFormed root ∧
      s.tree.pathOf? s.focus = some (path ++ [position]) ∧
        s.tree.parent? s.focus = some parent ∧ s.tree.pathOf? parent = some path ∧
          (s.tree.children parent)[position]? = some s.focus ∧
            s.tree.position? s.focus = some position := by
  obtain ⟨root, hwf⟩ := h.wellFormed
  obtain ⟨p, hp⟩ := h.attached
  obtain ⟨path, position, rfl⟩ := hwf.exists_snoc hp hne
  obtain ⟨parent, hparent, hpath, hlisted, hposition⟩ := hwf.parent_of_pathOf? hp
  exact ⟨root, parent, path, position, hwf, hp, hparent, hwf.pathOf?_eq_some_iff.mpr hpath,
    hlisted, hposition⟩

theorem Sound.focusOn (h : s.Sound original) (tree : TreeId) (node : NodeId) :
    Sound original (s.focusOn tree node).2 := by
  rcases focusOn_cases s tree node with ⟨e, he⟩ | ⟨hdrag, hpath, hok⟩
  · rwa [he]
  · rw [hok]
    exact h.refocus hdrag hpath

theorem Sound.focusChild (h : s.Sound original) (index : Nat) :
    Sound original (s.focusChild index).2 := by
  rcases focusChild_cases s index with ⟨e, he⟩ | ⟨child, -, hdrag, hpath, hok⟩
  · rwa [he]
  · rw [hok]
    exact h.refocus hdrag hpath

theorem Sound.focusParent (h : s.Sound original) : Sound original s.focusParent.2 := by
  rcases focusParent_cases s with he | ⟨parent, hparent, hdrag, hok⟩
  · rwa [he]
  · rw [hok]
    obtain ⟨_, parent', path, _, _, _, hparent', hpath, _⟩ :=
      h.exists_parent (h.root_ne_focus hparent)
    obtain rfl : parent' = parent := Option.some.inj (hparent'.symm.trans hparent)
    exact h.refocus hdrag ⟨path, hpath⟩

theorem Sound.beginDrag (h : s.Sound original) : Sound original s.beginDrag.2 := by
  rcases beginDrag_cases s with ⟨e, he⟩ | ⟨candidates, -, hne, hall, hok⟩
  · rwa [he]
  · rw [hok]
    refine h.redrag fun d hd => ?_
    obtain rfl := Option.some.inj hd
    obtain ⟨root, parent, -, position, hwf, -, hparent, -, hlisted, hposition⟩ :=
      h.exists_parent hne
    obtain ⟨all, hall', hlen, -⟩ := hwf.exists_placements hparent
    obtain rfl : candidates = all := Except.ok.inj (hall.symm.trans hall')
    refine ⟨hne, hall, ⟨parent, hparent, hlen⟩, ?_⟩
    rw [hposition, Option.getD_some, hlen]
    exact (List.getElem?_eq_some_iff.mp hlisted).1

theorem Sound.update (h : s.Sound original) {σ : Type} (score : Placement → StateM σ Score)
    (state : σ) : Sound original ((s.update score).run state).1.2 := by
  cases hdrag : s.drag with
  | none => rwa [run_update_of_none score state hdrag]
  | some drag =>
    rw [run_update_of_drag score state hdrag]
    refine h.redrag fun d hd => ?_
    obtain rfl := Option.some.inj hd
    have hdrags := h.drags drag hdrag
    refine ⟨hdrags.movable, hdrags.candidates, hdrags.siblings, ?_⟩
    cases hchoice : Score.earliestLeast? (s.answers score state) with
    | none => exact hdrags.chosen
    | some index =>
      have hlt := Score.earliestLeast?_lt hchoice
      rwa [length_answers, candidates, hdrag] at hlt

/-- The placement that a drop commits is the one on the chosen slot. -/
theorem Sound.exists_chosen (h : s.Sound original) {drag : Drag} (hdrag : s.drag = some drag) :
    ∃ root parent p, s.tree.WellFormed root ∧ s.tree.parent? s.focus = some parent ∧
      drag.candidates[drag.chosen]? = some p ∧
        s.tree.place root ⟨s.focus, drag.chosen⟩ = .ok p ∧
          drag.chosen < (s.tree.children parent).length ∧
            s.tree.Relocates parent ⟨s.focus, drag.chosen⟩ p := by
  have hdrags := h.drags drag hdrag
  obtain ⟨root, parent, -, -, hwf, -, hparent, -⟩ := h.exists_parent hdrags.movable
  obtain ⟨all, hall, hlen, hplaced⟩ := hwf.exists_placements hparent
  obtain rfl : drag.candidates = all := Except.ok.inj (hdrags.candidates.symm.trans hall)
  obtain ⟨hok, hrelocates⟩ := hplaced drag.chosen hdrags.chosen
  exact ⟨root, parent, _, hwf, hparent, List.getElem?_eq_getElem hdrags.chosen, hok,
    hlen ▸ hdrags.chosen, hrelocates⟩

theorem Sound.drop (h : s.Sound original) : Sound original s.drop.2 := by
  cases hdrag : s.drag with
  | none => simpa only [Session.drop, hdrag] using h
  | some drag =>
    obtain ⟨root, parent, p, hwf, hparent, hchosen, -, hlt, hp⟩ := h.exists_chosen hdrag
    obtain ⟨hbelow, hlisted⟩ :=
      hwf.mem_children_of_parent? (hwf.reached _ (Store.contains_of_parent? hparent)) hparent
    obtain ⟨f, hf⟩ := h.reordered
    obtain ⟨g, hg⟩ := hp.reorders (hwf.once parent hbelow) hlisted hlt
    obtain ⟨root', hwf'⟩ := hp.wellFormed
    obtain ⟨path, -, -, hpath⟩ := hp.path
    rw [drop_of_drag hdrag hchosen]
    exact ⟨⟨root', hwf'.clearGhost⟩, rfl, ⟨_, (hf.trans hg).clearGhost⟩,
      ⟨_, by rw [Store.pathOf?_clearGhost, hpath]⟩, fun d hd => (by cases hd)⟩

/-- **Every call keeps the invariant.** -/
theorem Sound.step {t : Session} (h : s.Sound original) (hstep : Step s t) : t.Sound original := by
  cases hstep with
  | focusOn tree node => exact h.focusOn tree node
  | focusChild index => exact h.focusChild index
  | focusParent => exact h.focusParent
  | beginDrag => exact h.beginDrag
  | update score state => exact h.update score state
  | drop => exact h.drop
  | cancel => exact h.redrag fun d hd => (by cases hd)

theorem Sound.run {t : Session} (h : s.Sound original) (hrun : Relation.ReflTransGen Step s t) :
    t.Sound original := by
  induction hrun with
  | refl => exact h
  | tail _ hstep ih => exact ih.step hstep

end

/-! ## Sessions on parsed trees -/

/-- A session starts on every parsed tree, with the invariant and the focus on the root. -/
theorem start_of_parse {options : ParserOptions} {text : String} {tree : Store} (id : TreeId)
    (h : Parser.parse options text = .ok tree) : ∃ root, tree.WellFormed root ∧
      tree.Normal root ∧ start id tree = .ok ⟨id, tree, root, none⟩ ∧
        Sound tree ⟨id, tree, root, none⟩ := by
  obtain ⟨root, hwf, hnormal⟩ := Parser.parse_normal h
  obtain ⟨d, -, htree⟩ := Parser.isTree_of_parse h
  refine ⟨root, hwf, hnormal, by rw [start, hwf.marked], ⟨root, hwf⟩, htree.ghost,
    ⟨_, Store.Reorders.refl tree⟩, ⟨[], ?_⟩, fun d hd => (by cases hd)⟩
  rw [hwf.pathOf?_eq_some_iff, hwf.nodeAt?_eq]
  rfl

/-- **Sessions stay sound.** Whatever is called on a session that was started on a parsed tree, the
tree stays normal and keeps its nodes and its labels, the focus stays in it, and a drag has all
placements of the focus and chooses one of them. -/
theorem sessions_sound (options : ParserOptions) (text : String) (tree : Store) (id : TreeId)
    (h : Parser.parse options text = .ok tree) :
    ∃ s, start id tree = .ok s ∧ ∀ t, Relation.ReflTransGen Step s t →
      t.Sound tree ∧ (∃ root, t.tree.Normal root) ∧ t.tree.size = tree.size ∧
        t.tree.labels.Perm tree.labels := by
  obtain ⟨root, hwf, hnormal, hstart, hsound⟩ := start_of_parse id h
  refine ⟨_, hstart, fun t hrun => ?_⟩
  have ht := hsound.run hrun
  obtain ⟨root', hwf'⟩ := ht.wellFormed
  obtain ⟨f, hf⟩ := ht.reordered
  exact ⟨ht, ⟨root', hf.normal hwf hnormal hwf'.toRooted⟩, hf.size hwf hwf', hf.labels hwf hwf'⟩

/-- The tree that is parsed from the sum of two names: its root is the last node that was made. -/
def parsedSum : Store where
  slots := #[some ⟨.literal ⟨"a", .identifier 'a', Store.ofToken?_a⟩, some 2, []⟩,
    some ⟨.literal ⟨"b", .identifier 'b', Store.ofToken?_b⟩, some 2, []⟩,
    some ⟨.compound .add, none, [0, 1]⟩]
  root := some 2
  ghost := none

theorem parse_parsedSum : Parser.parse ⟨true, none⟩ "a+b" = .ok parsedSum := by cbv

/-- The first name is picked up and dropped. -/
theorem sessions_sound_parsedSum : Parser.parse ⟨true, none⟩ "a+b" = .ok parsedSum ∧
    ∃ s, start ⟨0, 0⟩ parsedSum = .ok s ∧
      Sound parsedSum (s.focusChild 0).2.beginDrag.2.drop.2 := by
  obtain ⟨s, hs, hall⟩ := sessions_sound ⟨true, none⟩ "a+b" parsedSum ⟨0, 0⟩ parse_parsedSum
  refine ⟨parse_parsedSum, s, hs, (hall _ ?_).1⟩
  exact ((Relation.ReflTransGen.single (.focusChild 0)).tail .beginDrag).tail .drop

end Session

end ArithTree
