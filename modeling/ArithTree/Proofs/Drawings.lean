import ArithTree.Proofs.Outlines
import ArithTree.Render.Drawing

/-!
# The drawing is unambiguous

In a drawing the line of a node starts with one segment of four characters for each level above it:
a column for every node on the way, and a branch for the node itself (`stem`). The lines of a
well-formed tree are those of its nodes in preorder (`Rooted.toList_drawing`). A label holds no
character of a stem, so a line tells the level, the label and the mark of the ghost (`reads_line`),
and the lines tell the tree with its ghost (`drawing_eq_iff`).
-/

namespace ArithTree

namespace Store

/-! ## Stems -/

/-- Whether position `i` is the last on the child list of `id`. -/
def isLast (s : Store) (id : NodeId) (i : Nat) : Bool := i + 1 == (s.children id).length

/-- What the lines below a child hold in its column. -/
def column (last : Bool) : String := if last then "    " else "│   "

/-- What leads to a child on its own line. -/
def branch (last : Bool) : String := if last then "└── " else "├── "

/-- The columns of all nodes on a path below `id`. -/
def columns (s : Store) (id : NodeId) : List Nat → String
  | [] => ""
  | i :: path =>
    match (s.children id)[i]? with
    | some child => column (s.isLast id i) ++ s.columns child path
    | none => ""

/-- What is in front of the label of the node on a path. Nothing is in front of the root. -/
def stem (s : Store) (root : NodeId) (path : List Nat) : String :=
  match path.getLast?, s.descend root path.dropLast with
  | some i, some parent => s.columns root path.dropLast ++ branch (s.isLast parent i)
  | _, _ => ""

/-- The line of a node: its stem, its label, and a star behind the ghost. -/
def drawnLine (s : Store) (root id : NodeId) : String :=
  match s.pathOf? id, s.label? id with
  | some path, some label =>
    s.stem root path ++ label.text ++ if s.ghost = some id then " *" else ""
  | _, _ => ""

section

variable {s : Store} {root : NodeId}

theorem columns_snoc {id parent : NodeId} {path : List Nat} {i : Nat} {child : NodeId}
    (hpath : s.descend id path = some parent) (hi : (s.children parent)[i]? = some child) :
    s.columns id (path ++ [i]) = s.columns id path ++ column (s.isLast parent i) := by
  induction path generalizing id with
  | nil =>
    obtain rfl : id = parent := Option.some.inj hpath
    simp [columns, hi]
  | cons j path ih =>
    obtain ⟨c, hc, hpath⟩ := descend_cons_iff.mp hpath
    simp only [List.cons_append, columns, hc, ih hpath, String.append_assoc]

theorem stem_snoc {id parent : NodeId} {path : List Nat} {i : Nat}
    (hpath : s.descend id path = some parent) :
    s.stem id (path ++ [i]) = s.columns id path ++ branch (s.isLast parent i) := by
  simp [stem, hpath]

/-! ## The lines of a tree -/

/-- The line of a node of the tree, by its path and its label. -/
theorem Rooted.drawnLine_eq (h : s.Rooted root) {id : NodeId} {path : List Nat} {node : Node}
    (hpath : s.descend root path = some id) (hnode : s.node? id = some node) :
    s.drawnLine root id =
      s.stem root path ++ node.label.text ++ if s.ghost = some id then " *" else "" := by
  have hup : s.pathOf? id = some path := h.pathOf?_eq_some_iff.mpr (by rwa [h.nodeAt?_eq])
  simp only [drawnLine, hup, label?_of_node? hnode]

/-- Lines with their ends. -/
def drawnLines (s : Store) (root : NodeId) (ids : List NodeId) : List Char :=
  ids.flatMap fun id => (s.drawnLine root id).toList ++ ['\n']

theorem drawnLines_append (s : Store) (root : NodeId) (xs ys : List NodeId) :
    s.drawnLines root (xs ++ ys) = s.drawnLines root xs ++ s.drawnLines root ys :=
  List.flatMap_append

theorem caption_eq {ghost : Option NodeId} {id : NodeId} {label : Label} {below : List Unfolding} :
    (Unfolding.node id label below).caption ghost =
      label.text ++ if ghost = some id then " *" else "" := by
  rw [Unfolding.caption]
  split <;> simp

open Unfolding hiding id

mutual

/-- What is drawn below a node are the lines of the nodes below it. -/
theorem Rooted.toList_branches (h : s.Rooted root) : ∀ (u : Unfolding) {up : Option NodeId}
    {path : List Nat}, s.Holds up u → s.descend root path = some u.id →
      (u.branches s.ghost (s.columns root path)).toList = s.drawnLines root (idsAll u.children)
  | .dangling _, _, _, hu, _ => hu.elim
  | .node id label below, _, path, hu, hpath => by
    rw [Unfolding.branches, Unfolding.children]
    exact h.toList_branchesAll below [] hu.2 hpath (by rw [children_of_node? hu.1]; rfl)

/-- The children `us` stand on the child list of their parent behind the handles `before`. -/
theorem Rooted.toList_branchesAll (h : s.Rooted root) : ∀ (us : List Unfolding)
    (before : List NodeId) {path : List Nat} {parent : NodeId}, s.HoldsAll (some parent) us →
      s.descend root path = some parent → s.children parent = before ++ us.map Unfolding.id →
        (Unfolding.branchesAll s.ghost (s.columns root path) us).toList =
          s.drawnLines root (idsAll us)
  | [], _, _, _, _, _, _ => rfl
  | .dangling _ :: _, _, _, _, hus, _, _ => hus.1.elim
  | .node id label below :: rest, before, path, parent, hus, hpath, hchildren => by
    have hi : (s.children parent)[before.length]? = some id := by simp [hchildren, Unfolding.id]
    have hdown : s.descend root (path ++ [before.length]) = some id :=
      descend_snoc_iff.mpr ⟨parent, hpath, hi⟩
    have hlast : s.isLast parent before.length = rest.isEmpty := by
      cases rest <;> simp [isLast, hchildren]
    have hline := h.drawnLine_eq hdown hus.1.1
    rw [stem_snoc hpath, hlast] at hline
    have hbelow := h.toList_branches _ hus.1 hdown
    rw [columns_snoc hpath hi, hlast] at hbelow
    have hrest := h.toList_branchesAll rest (before ++ [id]) hus.2 hpath
      (by rw [hchildren, List.append_assoc]; rfl)
    have hglyphs : (if rest.isEmpty then ("└── ", "    ") else ("├── ", "│   ")) =
        (branch rest.isEmpty, column rest.isEmpty) := by
      cases rest.isEmpty <;> rfl
    rw [Unfolding.branchesAll, hglyphs, caption_eq, idsAll, ids_eq, drawnLines_append, ← hrest]
    simp only [String.toList_append]
    rw [hbelow]
    simp [drawnLines, hline, Unfolding.id, Unfolding.children]

end

/-- **Lines of a drawing.** A tree with consistent links is drawn as the lines of its nodes in
preorder. -/
theorem Rooted.toList_drawing (h : s.Rooted root) :
    s.drawing.toList = s.drawnLines root s.preorder := by
  have hp := h.presents
  rw [preorder_eq hp.holds hp.nodup hp.root, drawing, h.marked]
  cases hu : s.unfold root with
  | dangling id =>
    rw [hu] at hp
    exact hp.holds.elim
  | node id label below =>
    obtain rfl : id = root := by rw [← s.unfold_id root, hu, Unfolding.id]
    rw [hu] at hp
    have hempty : s.descend id [] = some id := rfl
    have hline := h.drawnLine_eq hempty hp.holds.1
    have hbelow := h.toList_branches _ hp.holds hempty
    rw [columns] at hbelow
    rw [ids_eq, drawnLines, List.flatMap_cons, ← drawnLines, ← hbelow]
    simp only [Unfolding.id, hline, stem, hu, caption_eq]
    simp

/-! ## Reading a line -/

/-- The characters that segments are made of. -/
def inStem (c : Char) : Bool := ['│', '├', '└', '─', ' '].contains c

theorem inStem_column (last : Bool) :
    (column last).toList.all inStem = true ∧ (column last).toList.length = 4 := by
  cases last <;> decide

theorem inStem_branch (last : Bool) :
    (branch last).toList.all inStem = true ∧ (branch last).toList.length = 4 := by
  cases last <;> decide

/-- Every node on the way has its segment. -/
theorem inStem_columns {id x : NodeId} {path : List Nat} (hpath : s.descend id path = some x) :
    (s.columns id path).toList.all inStem = true ∧
      (s.columns id path).toList.length = 4 * path.length := by
  induction path generalizing id with
  | nil => exact ⟨rfl, rfl⟩
  | cons i path ih =>
    obtain ⟨c, hc, hpath⟩ := descend_cons_iff.mp hpath
    obtain ⟨hall, hlen⟩ := ih hpath
    obtain ⟨hall', hlen'⟩ := inStem_column (s.isLast id i)
    simp only [columns, hc, String.toList_append, List.all_append, List.length_append, hall, hall',
      hlen, hlen', List.length_cons]
    exact ⟨rfl, by omega⟩

theorem inStem_stem {id x : NodeId} {path : List Nat} (hpath : s.descend id path = some x) :
    (s.stem id path).toList.all inStem = true ∧
      (s.stem id path).toList.length = 4 * path.length := by
  rcases List.eq_nil_or_concat path with rfl | ⟨path, i, rfl⟩
  · exact ⟨rfl, rfl⟩
  · rw [List.concat_eq_append] at hpath ⊢
    obtain ⟨y, hy, -⟩ := descend_snoc_iff.mp hpath
    obtain ⟨hall, hlen⟩ := inStem_columns hy
    obtain ⟨hall', hlen'⟩ := inStem_branch (s.isLast y i)
    simp only [stem_snoc hy, String.toList_append, List.all_append, List.length_append, hall, hall',
      hlen, hlen', List.length_singleton]
    exact ⟨rfl, by omega⟩

end

end Store

/-- A label is not empty and holds no character of a stem. -/
theorem Label.not_inStem_text (l : Label) :
    l.text.toList ≠ [] ∧ ∀ c ∈ l.text.toList, Store.inStem c = false := by
  cases l with
  | compound op => cases op <;> simp [text, Operator.symbol, Store.inStem]
  | literal l =>
    have htoken := Parser.literalToken_text l
    refine ⟨htoken.ne_nil, fun c hc => Bool.eq_false_iff.mpr fun hstem => ?_⟩
    simp only [Store.inStem, List.contains_iff_mem, List.mem_cons, List.not_mem_nil,
      or_false] at hstem
    rcases hstem with rfl | rfl | rfl | rfl | rfl <;> exact absurd (htoken.mem hc) (by decide)

namespace Store

/-- The mark behind a label. -/
def markText (marked : Bool) : List Char := if marked then [' ', '*'] else []

theorem takeWhile_label (l : Label) (marked : Bool) :
    (l.text.toList ++ markText marked).takeWhile (fun c => !inStem c) = l.text.toList := by
  rw [List.takeWhile_append_of_pos fun c hc => by rw [l.not_inStem_text.2 c hc]; rfl]
  cases marked <;> simp [markText, inStem]

theorem takeWhile_stem {stem : List Char} (hstem : stem.all inStem = true) (l : Label)
    (rest : List Char) : (stem ++ (l.text.toList ++ rest)).takeWhile inStem = stem := by
  rw [List.takeWhile_append_of_pos (List.all_eq_true.mp hstem)]
  obtain ⟨hne, hplain⟩ := l.not_inStem_text
  cases htext : l.text.toList with
  | nil => exact absurd htext hne
  | cons c cs => simp [hplain c (by simp [htext])]

/-- **Line lemma.** A line tells its stem, its label and its mark, although the mark and a product
are both written as a star: the mark has a blank in front of it. -/
theorem reads_line {stem stem' : List Char} (hstem : stem.all inStem = true)
    (hstem' : stem'.all inStem = true) {l l' : Label} {marked marked' : Bool}
    (h : stem ++ (l.text.toList ++ markText marked) =
      stem' ++ (l'.text.toList ++ markText marked')) :
    stem = stem' ∧ l = l' ∧ marked = marked' := by
  have hstems : stem = stem' := by
    rw [← takeWhile_stem hstem l (markText marked), h, takeWhile_stem hstem']
  have hrest := List.append_cancel_left (hstems ▸ h)
  have htexts : l.text.toList = l'.text.toList := by
    rw [← takeWhile_label l marked, hrest, takeWhile_label]
  have hmarks := List.append_cancel_left (htexts ▸ hrest)
  refine ⟨hstems, Label.text_injective (String.toList_inj.mp htexts), ?_⟩
  cases marked <;> cases marked' <;> first | rfl | cases hmarks

/-! ## Lines and outlines -/

/-- The level and the label of a node of the tree. -/
def depicted? (s : Store) (id : NodeId) : Option (Nat × Label) :=
  match s.pathOf? id, s.label? id with
  | some path, some label => some (path.length, label)
  | _, _ => none

section

variable {s t : Store} {root root' : NodeId}

theorem Rooted.depicted?_eq (h : s.Rooted root) {id : NodeId} {path : List Nat} {node : Node}
    (hpath : s.descend root path = some id) (hnode : s.node? id = some node) :
    s.depicted? id = some (path.length, node.label) := by
  have hup : s.pathOf? id = some path := h.pathOf?_eq_some_iff.mpr (by rwa [h.nodeAt?_eq])
  simp only [depicted?, hup, label?_of_node? hnode]

/-- A live node of a well-formed tree has its place there. -/
theorem WellFormed.exists_place (h : s.WellFormed root) {id : NodeId}
    (hlive : s.contains id = true) :
    ∃ path node, s.descend root path = some id ∧ s.node? id = some node := by
  obtain ⟨path, hpath⟩ := below_iff_descend.mp (h.reached id hlive)
  obtain ⟨node, hnode⟩ := Option.isSome_iff_exists.mp hlive
  exact ⟨path, node, hpath, hnode⟩

theorem Rooted.toList_drawnLine (h : s.Rooted root) {id : NodeId} {path : List Nat} {node : Node}
    (hpath : s.descend root path = some id) (hnode : s.node? id = some node) :
    (s.drawnLine root id).toList = (s.stem root path).toList ++
      (node.label.text.toList ++ markText (s.isGhost id)) := by
  have hmark : (if s.ghost = some id then " *" else "").toList = markText (s.isGhost id) := by
    by_cases hghost : s.ghost = some id <;> simp [isGhost, markText, hghost]
  rw [h.drawnLine_eq hpath hnode, String.toList_append, String.toList_append, hmark,
    List.append_assoc]

/-- Two lines that are the same tell the same entry and the same mark. -/
theorem WellFormed.depicted?_of_drawnLine (hs : s.WellFormed root) (ht : t.WellFormed root')
    {x y : NodeId} (hx : s.contains x = true) (hy : t.contains y = true)
    (hline : s.drawnLine root x = t.drawnLine root' y) :
    s.depicted? x = t.depicted? y ∧ s.isGhost x = t.isGhost y := by
  obtain ⟨path, node, hpath, hnode⟩ := hs.exists_place hx
  obtain ⟨path', node', hpath', hnode'⟩ := ht.exists_place hy
  have hlines := congrArg String.toList hline
  rw [hs.toList_drawnLine hpath hnode, ht.toList_drawnLine hpath' hnode'] at hlines
  obtain ⟨hall, hlen⟩ := inStem_stem hpath
  obtain ⟨hall', hlen'⟩ := inStem_stem hpath'
  obtain ⟨hstem, hlabel, hmark⟩ := reads_line hall hall' hlines
  have hlevel : path.length = path'.length := by rw [hstem] at hlen; omega
  rw [hs.depicted?_eq hpath hnode, ht.depicted?_eq hpath' hnode', hlevel, hlabel]
  exact ⟨rfl, hmark⟩

theorem WellFormed.newline_not_mem (h : s.WellFormed root) {id : NodeId}
    (hlive : s.contains id = true) : '\n' ∉ (s.drawnLine root id).toList := by
  obtain ⟨path, node, hpath, hnode⟩ := h.exists_place hlive
  rw [h.toList_drawnLine hpath hnode, List.mem_append, List.mem_append, not_or, not_or]
  refine ⟨fun hmem => ?_, node.label.not_blank_text.2, ?_⟩
  · exact absurd (List.all_eq_true.mp (inStem_stem hpath).1 _ hmem) (by decide)
  · cases s.isGhost id <;> decide

open Unfolding hiding id

mutual

/-- The outline lists the entries of the nodes in preorder. -/
theorem Rooted.outline_eq (h : s.Rooted root) : ∀ (u : Unfolding) {d : Shape}
    {up : Option NodeId} {path : List Nat}, s.Holds up u → s.descend root path = some u.id →
      u.shape? = some d → (d.outline path.length).map some = u.ids.map s.depicted?
  | .dangling _, _, _, _, hu, _, _ => hu.elim
  | .node id label below, d, _, path, hu, hpath, hd => by
    rw [Unfolding.shape?, Option.some.injEq] at hd
    have hbelow := h.outlineAll_eq below [] hu.2 hpath (by rw [children_of_node? hu.1]; rfl)
    rw [← hd, Shape.outline, ids, List.map_cons, List.map_cons, hbelow]
    exact congrArg (· :: _) (h.depicted?_eq hpath hu.1).symm

theorem Rooted.outlineAll_eq (h : s.Rooted root) : ∀ (us : List Unfolding)
    (before : List NodeId) {path : List Nat} {parent : NodeId}, s.HoldsAll (some parent) us →
      s.descend root path = some parent → s.children parent = before ++ us.map Unfolding.id →
        (Shape.outlineAll (path.length + 1) (shapes us)).map some = (idsAll us).map s.depicted?
  | [], _, _, _, _, _, _ => rfl
  | u :: rest, before, path, parent, hus, hpath, hchildren => by
    have hi : (s.children parent)[before.length]? = some u.id := by simp [hchildren]
    have hdown : s.descend root (path ++ [before.length]) = some u.id :=
      descend_snoc_iff.mpr ⟨parent, hpath, hi⟩
    obtain ⟨d, hd⟩ := hus.1.whole.exists_shape?
    have htop := h.outline_eq u hus.1 hdown hd
    have hrest := h.outlineAll_eq rest (before ++ [u.id]) hus.2 hpath
      (by rw [hchildren, List.append_assoc]; rfl)
    rw [List.length_append, List.length_singleton] at htop
    simp only [shapes, hd, Shape.outlineAll, idsAll, List.map_append, htop, hrest]

end

theorem Rooted.outline_preorder (h : s.Rooted root) {d : Shape} (hd : s.shape? = some d) :
    (d.outline 0).map some = s.preorder.map s.depicted? := by
  have hp := h.presents
  rw [hp.shape?_eq] at hd
  rw [preorder_eq hp.holds hp.nodup hp.root]
  have hempty : s.descend root [] = some (s.unfold root).id := by rw [descend, unfold_id]
  exact h.outline_eq _ hp.holds hempty hd

/-! ## Drawings -/

/-- Trees that are equal up to handles have their nodes in one order. -/
theorem Renaming.preorder_eq {f : NodeId → NodeId} (h : Renaming f s t) (hs : s.Rooted root) :
    t.preorder = s.preorder.map f := by
  have hp := hs.presents
  have hroot : t.root = some ((s.unfold root).rename f).id := by
    rw [h.root, hp.root, Option.map_some, id_rename]
  have hnodup : ((s.unfold root).rename f).ids.Nodup := by
    rw [ids_rename]
    exact hp.nodup.map_on fun x hx y hy hxy =>
      h.injective x y (hp.holds.contains hx) (hp.holds.contains hy) hxy
  rw [Store.preorder_eq (hp.holds.rename h) hnodup hroot,
    Store.preorder_eq hp.holds hp.nodup hp.root,
    ids_rename]

theorem Renaming.columns_eq {f : NodeId → NodeId} (h : Renaming f s t) (hs : s.Rooted root)
    {path : List Nat} : ∀ {id : NodeId}, s.descend root path = some id →
      t.descend (f root) path = some (f id) ∧
        t.columns (f root) path = s.columns root path := by
  induction path using List.reverseRecOn with
  | nil =>
    intro id hpath
    exact ⟨by rw [← Option.some.inj hpath]; rfl, rfl⟩
  | append_singleton path i ih =>
    intro id hpath
    obtain ⟨parent, hparent, hi⟩ := descend_snoc_iff.mp hpath
    obtain ⟨hdown, hcolumns⟩ := ih hparent
    have hchildren := h.children (hs.contains (below_iff_descend.mpr ⟨path, hparent⟩))
    have hi' : (t.children (f parent))[i]? = some (f id) := by
      rw [hchildren, List.getElem?_map, hi, Option.map_some]
    refine ⟨descend_snoc_iff.mpr ⟨f parent, hdown, hi'⟩, ?_⟩
    rw [columns_snoc hdown hi', columns_snoc hparent hi, hcolumns, isLast, isLast, hchildren,
      List.length_map]

theorem Renaming.stem_eq {f : NodeId → NodeId} (h : Renaming f s t) (hs : s.Rooted root)
    {path : List Nat} {id : NodeId} (hpath : s.descend root path = some id) :
    t.stem (f root) path = s.stem root path := by
  rcases List.eq_nil_or_concat path with rfl | ⟨path, i, rfl⟩
  · rfl
  · rw [List.concat_eq_append] at hpath ⊢
    obtain ⟨parent, hparent, hi⟩ := descend_snoc_iff.mp hpath
    obtain ⟨hdown, hcolumns⟩ := h.columns_eq hs hparent
    rw [stem_snoc hdown, stem_snoc hparent, hcolumns, isLast, isLast,
      h.children (hs.contains (below_iff_descend.mpr ⟨path, hparent⟩)), List.length_map]

/-- Where the values of `f` tell those of `g`, equal lists of the former are equal lists of the
latter. -/
theorem map_eq_map_of_imp {α β γ : Type} {f f' : α → β} {g g' : α → γ} {xs ys : List α}
    (himp : ∀ x ∈ xs, ∀ y ∈ ys, f x = f' y → g x = g' y) (h : xs.map f = ys.map f') :
    xs.map g = ys.map g' := by
  have hlen : xs.length = ys.length := by simpa using congrArg List.length h
  refine List.ext_getElem (by simpa using hlen) fun i hi hi' => ?_
  simp only [List.length_map] at hi hi'
  rw [List.getElem_map, List.getElem_map]
  refine himp _ (List.getElem_mem hi) _ (List.getElem_mem hi') ?_
  simpa [hi, hi'] using congrArg (·[i]?) h

/-- Lines that hold no line end are what a text of them falls into. -/
theorem splitOn_flatMap {α : Type} {line : α → List Char} {xs : List α}
    (hplain : ∀ x ∈ xs, '\n' ∉ line x) :
    (xs.flatMap fun x => line x ++ ['\n']).splitOn '\n' = xs.map line ++ [[]] := by
  induction xs with
  | nil => rfl
  | cons x xs ih =>
    obtain ⟨hx, hxs⟩ := List.forall_mem_cons.mp hplain
    have hline : ∀ c ∈ line x, (c == '\n') = false := fun c hc =>
      beq_false_of_ne fun heq => hx (heq ▸ hc)
    rw [List.flatMap_cons, List.append_assoc, List.singleton_append, List.splitOn,
      List.splitOnP_append_cons _ _ (by rfl), List.splitOnP_eq_singleton hline, ← List.splitOn,
      ih hxs]
    rfl

theorem WellFormed.splitOn_drawing (h : s.WellFormed root) :
    s.drawing.toList.splitOn '\n' =
      (s.preorder.map fun id => (s.drawnLine root id).toList) ++ [[]] := by
  rw [h.toList_drawing]
  exact splitOn_flatMap fun id hid => h.newline_not_mem (h.mem_preorder_iff.mp hid)

/-- The drawing tells its lines. -/
theorem WellFormed.drawnLines_of_drawing (hs : s.WellFormed root) (ht : t.WellFormed root')
    (h : s.drawing = t.drawing) :
    s.preorder.map (s.drawnLine root) = t.preorder.map (t.drawnLine root') := by
  have hsplit := hs.splitOn_drawing
  rw [h, ht.splitOn_drawing] at hsplit
  exact map_eq_map_of_imp (fun x _ y _ => String.toList_inj.mp)
    (List.append_cancel_right hsplit).symm

/-- Trees with the same lines have the same shape. -/
theorem WellFormed.shape?_of_drawnLines (hs : s.WellFormed root) (ht : t.WellFormed root')
    (h : s.preorder.map (s.drawnLine root) = t.preorder.map (t.drawnLine root')) :
    s.shape? = t.shape? := by
  obtain ⟨d, hd⟩ := hs.exists_shape?
  obtain ⟨d', hd'⟩ := ht.exists_shape?
  have hentries := map_eq_map_of_imp (fun x hx y hy hline =>
    (hs.depicted?_of_drawnLine ht (hs.mem_preorder_iff.mp hx) (ht.mem_preorder_iff.mp hy)
      hline).1) h
  rw [← hs.outline_preorder hd, ← ht.outline_preorder hd'] at hentries
  have houtline := List.map_injective_iff.mpr (Option.some_injective _) hentries
  have houtlines : Shape.outlineAll 0 [d] = Shape.outlineAll 0 [d'] := by
    simpa [Shape.outlineAll] using houtline
  have hsingle : [d] = [d'] := Shape.outlineAll_injective [d] [d'] houtlines
  rw [hd, hd', List.singleton_inj.mp hsingle]

/-- A node and its partner have the same line exactly when both are the ghost or neither is. -/
theorem Renaming.drawnLine_eq_iff {f : NodeId → NodeId} (h : Renaming f s t)
    (hs : s.WellFormed root)
    (ht : t.WellFormed (f root)) {id : NodeId} (hlive : s.contains id = true) :
    t.drawnLine (f root) (f id) = s.drawnLine root id ↔ t.isGhost (f id) = s.isGhost id := by
  obtain ⟨path, node, hpath, hnode⟩ := hs.exists_place hlive
  have hdown := (h.columns_eq hs.toRooted hpath).1
  have hnode' := h.node id node hnode
  rw [← String.toList_inj, ht.toList_drawnLine hdown hnode', hs.toList_drawnLine hpath hnode,
    h.stem_eq hs.toRooted hpath]
  refine ⟨fun heq => (reads_line ?_ ?_ heq).2.2, fun heq => by rw [heq]⟩ <;>
    exact (inStem_stem hpath).1

/-- **Drawings tell trees apart.** The drawing of a well-formed tree has one line for each live
node, in preorder: one segment for every level above the node, its label, and a star on the line of
the ghost and on no other. Two trees have the same drawing exactly when they are equal up to
handles, the ghost or its absence included. -/
theorem drawing_eq_iff (s t : Store) (root root' : NodeId) (hs : s.WellFormed root)
    (ht : t.WellFormed root') :
    (s.drawing.toList.splitOn '\n' =
        (s.preorder.map fun id => (s.drawnLine root id).toList) ++ [[]] ∧
      s.preorder.Nodup ∧ (∀ id, id ∈ s.preorder ↔ s.contains id = true) ∧
      ∀ id node, s.node? id = some node → ∃ path, s.pathOf? id = some path ∧
        (s.stem root path).toList.length = 4 * path.length ∧
        s.drawnLine root id =
          s.stem root path ++ node.label.text ++ if s.ghost = some id then " *" else "") ∧
    (s.drawing = t.drawing ↔ ∃ f, s.Renaming f t ∧
      ∀ id, s.contains id = true → (t.ghost = some (f id) ↔ s.ghost = some id)) := by
  refine ⟨⟨hs.splitOn_drawing, hs.nodup_preorder, fun id => hs.mem_preorder_iff,
    fun id node hnode => ?_⟩, fun h => ?_, fun ⟨f, hf, hghost⟩ => ?_⟩
  · obtain ⟨path, -, hpath, -⟩ := hs.exists_place (contains_of_node? hnode)
    exact ⟨path, hs.pathOf?_eq_some_iff.mpr (by rwa [hs.nodeAt?_eq]), (inStem_stem hpath).2,
      hs.drawnLine_eq hpath hnode⟩
  · have hlines := hs.drawnLines_of_drawing ht h
    obtain ⟨f, hf⟩ := renaming_of_shape? hs ht (hs.shape?_of_drawnLines ht hlines)
    obtain rfl : root' = f root := Option.some.inj (by rw [← ht.marked, hf.root, hs.marked]; rfl)
    refine ⟨f, hf, fun id hlive => ?_⟩
    rw [hf.preorder_eq hs.toRooted, List.map_map, List.map_inj_left] at hlines
    have hline := hlines id (hs.mem_preorder_iff.mpr hlive)
    have hmark := (hf.drawnLine_eq_iff hs ht hlive).mp hline.symm
    rwa [isGhost, isGhost, Bool.eq_iff_iff, beq_iff_eq, beq_iff_eq] at hmark
  · obtain rfl : root' = f root := Option.some.inj (by rw [← ht.marked, hf.root, hs.marked]; rfl)
    rw [← String.toList_inj, hs.toList_drawing, ht.toList_drawing, hf.preorder_eq hs.toRooted,
      drawnLines, drawnLines, List.flatMap_map]
    refine List.flatMap_congr fun id hid => ?_
    have hlive := hs.mem_preorder_iff.mp hid
    have hmark : t.isGhost (f id) = s.isGhost id := by
      rw [isGhost, isGhost, Bool.eq_iff_iff, beq_iff_eq, beq_iff_eq]
      exact hghost id hlive
    rw [(hf.drawnLine_eq_iff hs ht hlive).mpr hmark]

end

theorem WellFormed.mark {s : Store} {root : NodeId} (h : s.WellFormed root) (id : NodeId) :
    (s.mark id).WellFormed root :=
  ⟨⟨h.marked, h.live, h.top, h.listed, h.once⟩, h.reached⟩

/-- The sum of two names, built by hand and parsed, has one drawing when its first operand is
moved. -/
theorem drawing_eq_iff_sumOfNames : (sumOfNames.mark 1).WellFormed 0 ∧
    (Session.parsedSum.mark 0).WellFormed 2 ∧
      (sumOfNames.mark 1).drawing = (Session.parsedSum.mark 0).drawing ∧
        ∃ f, (sumOfNames.mark 1).Renaming f (Session.parsedSum.mark 0) ∧ f 1 = 0 := by
  obtain ⟨root, hwf, -⟩ := Parser.parse_normal Session.parse_parsedSum
  obtain rfl : root = 2 := Option.some.inj hwf.marked.symm
  have hs := wellFormed_sumOfNames.mark 1
  have ht := hwf.mark 0
  obtain ⟨f, hf, hghost⟩ := (drawing_eq_iff _ _ 0 2 hs ht).2.mp rfl
  exact ⟨hs, ht, rfl, f, hf, (Option.some.inj ((hghost 1 rfl).mpr rfl)).symm⟩

end Store

end ArithTree
