import ArithTree.Proofs.Sessions
import ArithTree.Render.Dump

/-!
# The dump is unambiguous

A dump lists the labels of a tree in preorder, each with its level (`Shape.outline`). The levels
tell where the children of a node end, so the outline decides the tree (`outlineAll_injective`). No
label holds a tab or a line break and no two labels are written alike (`Label.text_injective`), so
the text decides the outline (`lines_injective`). Trees with one dump are therefore equal up to
handles (`dump_eq_iff`).
-/

namespace ArithTree

namespace Shape

/-! ## Outlines -/

mutual

/-- The labels in preorder, each with its level. -/
def outline (level : Nat) : Shape → List (Nat × Label)
  | .node label below => (level, label) :: outlineAll (level + 1) below

def outlineAll (level : Nat) : List Shape → List (Nat × Label)
  | [] => []
  | t :: rest => t.outline level ++ outlineAll level rest

end

mutual

/-- What is below a node has a higher level. -/
theorem le_of_mem_outline : ∀ (t : Shape) {level : Nat}, ∀ entry ∈ t.outline level, level ≤ entry.1
  | .node label below, level, entry, h => by
    rw [outline] at h
    rcases List.mem_cons.mp h with rfl | h
    · exact Nat.le_refl level
    · exact Nat.le_of_succ_le (le_of_mem_outlineAll below entry h)

theorem le_of_mem_outlineAll : ∀ (ts : List Shape) {level : Nat}, ∀ entry ∈ outlineAll level ts,
    level ≤ entry.1
  | [], _, _, h => by cases h
  | t :: rest, _, entry, h => by
    rcases List.mem_append.mp h with h | h
    · exact le_of_mem_outline t entry h
    · exact le_of_mem_outlineAll rest entry h

end

/-- The children of a node reach up to the next entry on its own level. -/
theorem takeWhile_outlineAll (level : Nat) (below rest : List Shape) :
    (outlineAll (level + 1) below ++ outlineAll level rest).takeWhile (fun e => level < e.1) =
      outlineAll (level + 1) below := by
  have hrest : (outlineAll level rest).takeWhile (fun e => level < e.1) = [] := by
    cases rest with
    | nil => rfl
    | cons t rest =>
      cases t with
      | node label below => simp [outlineAll, outline]
  rw [List.takeWhile_append_of_pos, hrest, List.append_nil]
  intro entry hentry
  exact decide_eq_true (le_of_mem_outlineAll below entry hentry)

/-- **Outline lemma.** Trees with one outline are the same. -/
theorem outlineAll_injective : ∀ (ts us : List Shape) {level : Nat},
    outlineAll level ts = outlineAll level us → ts = us
  | [], [], _, _ => rfl
  | [], .node _ _ :: _, _, h => by simp [outlineAll, outline] at h
  | .node _ _ :: _, [], _, h => by simp [outlineAll, outline] at h
  | .node label below :: ts, .node label' below' :: us, level, h => by
    simp only [outlineAll, outline, List.cons_append, List.cons.injEq, Prod.mk.injEq,
      true_and] at h
    obtain ⟨hlabel, h⟩ := h
    have hbelow : outlineAll (level + 1) below = outlineAll (level + 1) below' := by
      rw [← takeWhile_outlineAll level below ts, h, takeWhile_outlineAll]
    have hrest := List.append_cancel_left (hbelow ▸ h)
    rw [hlabel, outlineAll_injective below below' hbelow, outlineAll_injective ts us hrest]
termination_by ts => sizeOf ts

end Shape

/-! ## Lines -/

theorem Label.not_blank_text (l : Label) : '\t' ∉ l.text.toList ∧ '\n' ∉ l.text.toList := by
  cases l with
  | compound op => cases op <;> decide
  | literal l =>
    have htoken := Parser.literalToken_text l
    exact ⟨fun h => absurd (htoken.mem h) (by decide), fun h => absurd (htoken.mem h) (by decide)⟩

/-- No token is written like an operator. -/
theorem Label.symbol_ne_text (op : Operator) (l : Literal) : op.symbol ≠ l.text := by
  intro h
  have htoken := Parser.literalToken_text l
  rw [← h] at htoken
  cases op with
  | add => exact absurd (htoken.mem (c := '+') (by decide)) (by decide)
  | multiply => exact absurd (htoken.mem (c := '*') (by decide)) (by decide)
  | group => exact absurd (htoken.mem (c := '(') (by decide)) (by decide)

/-- **Labels are told apart by their texts.** -/
theorem Label.text_injective {l l' : Label} (h : l.text = l'.text) : l = l' := by
  match l, l' with
  | .compound op, .compound op' =>
    cases op <;> cases op' <;> first | rfl | exact absurd h (by decide)
  | .compound op, .literal l => exact absurd h (symbol_ne_text op l)
  | .literal l, .compound op => exact absurd h.symm (symbol_ne_text op l)
  | .literal l, .literal l' => exact congrArg Label.literal (Literal.ext_text h)

/-- The line of a label, without its end. -/
def line (entry : Nat × Label) : List Char :=
  List.replicate entry.1 '\t' ++ entry.2.text.toList

theorem newline_not_mem_line (entry : Nat × Label) : '\n' ∉ line entry := by
  rw [line, List.mem_append, not_or]
  exact ⟨fun h => absurd (List.eq_of_mem_replicate h) (by decide), entry.2.not_blank_text.2⟩

/-- The tabs in front tell the level and the rest tells the label. -/
theorem line_injective {entry entry' : Nat × Label} (h : line entry = line entry') :
    entry = entry' := by
  have tabs : ∀ e : Nat × Label, (line e).count '\t' = e.1 := fun e => by
    rw [line, List.count_append, List.count_replicate_self,
      List.count_eq_zero_of_not_mem e.2.not_blank_text.1, Nat.add_zero]
  have hlevel : entry.1 = entry'.1 := by rw [← tabs entry, h, tabs]
  rw [line, line, hlevel] at h
  exact Prod.ext hlevel (Label.text_injective (String.toList_inj.mp (List.append_cancel_left h)))

/-- The lines of an outline, each with its end. -/
def lines (entries : List (Nat × Label)) : List Char :=
  entries.flatMap fun entry => line entry ++ ['\n']

theorem lines_cons (entry : Nat × Label) (entries : List (Nat × Label)) :
    lines (entry :: entries) = line entry ++ '\n' :: lines entries := by
  simp [lines]

/-- **Line lemma.** The text tells its lines. -/
theorem lines_injective (entries : List (Nat × Label)) : ∀ entries' : List (Nat × Label),
    lines entries = lines entries' → entries = entries' := by
  induction entries with
  | nil =>
    intro entries' h
    cases entries' with
    | nil => rfl
    | cons entry' entries' =>
      rw [lines_cons] at h
      exact absurd h.symm (by simp [lines])
  | cons entry entries ih =>
    intro entries' h
    cases entries' with
    | nil =>
      rw [lines_cons] at h
      exact absurd h (by simp [lines])
    | cons entry' entries' =>
      rw [lines_cons, lines_cons] at h
      -- a line that reached into the other one would hold a line break
      rcases Parser.append_cons_cases h with ⟨hline, -, hrest⟩ | ⟨z, hz, -⟩ | ⟨z, hz, -⟩
      · rw [line_injective hline, ih entries' hrest]
      · exact absurd (by rw [hz]; simp) (newline_not_mem_line entry')
      · exact absurd (by rw [hz]; simp) (newline_not_mem_line entry)

/-! ## Dumps -/

namespace Unfolding

mutual

/-- The dump is the text of the outline. -/
theorem dump_of_shape? : ∀ (u : Unfolding) {t : Shape} (level : Nat),
    u.shape? = some t → (u.dump level).toList = lines (t.outline level)
  | .dangling _, _, _, ht => by cases ht
  | .node _ label below, t, level, ht => by
    rw [shape?, Option.some.injEq] at ht
    rw [← ht, dump, Shape.outline, lines_cons, line, ← dumpAll_of_shapes below (level + 1)]
    simp [indentation]

theorem dumpAll_of_shapes : ∀ (us : List Unfolding) (level : Nat),
    (dumpAll level us).toList = lines (Shape.outlineAll level (shapes us))
  | [], _ => rfl
  | u :: rest, level => by
    rw [dumpAll, String.toList_append, dumpAll_of_shapes rest level]
    cases ht : u.shape? with
    | none =>
      cases u with
      | dangling id => simp [dump, shapes, shape?]
      | node id label below => cases ht
    | some t =>
      simp only [shapes, ht, Shape.outlineAll]
      rw [dump_of_shape? u level ht, lines, lines, lines, List.flatMap_append]

end

end Unfolding

namespace Store

theorem Rooted.toList_dump {s : Store} {root : NodeId} (h : s.Rooted root) {t : Shape}
    (ht : s.shape? = some t) : s.dump.toList = lines (t.outline 0) := by
  have hp := h.presents
  rw [hp.shape?_eq] at ht
  rw [dump, h.marked]
  exact (s.unfold root).dump_of_shape? 0 ht

/-- **Dumps tell trees apart.** Two well-formed trees, with any labels at any nodes, have the same
dump exactly when they are equal up to handles: the same labels, literals with their texts and
values, in the same places. -/
theorem dump_eq_iff (s t : Store) (root root' : NodeId) (hs : s.WellFormed root)
    (ht : t.WellFormed root') : s.dump = t.dump ↔ ∃ f, s.Renaming f t := by
  obtain ⟨d, hd⟩ := hs.exists_shape?
  obtain ⟨d', hd'⟩ := ht.exists_shape?
  constructor
  · intro h
    have houtline : Shape.outlineAll 0 [d] = Shape.outlineAll 0 [d'] := by
      refine lines_injective _ _ ?_
      simp only [Shape.outlineAll, List.append_nil]
      rw [← hs.toList_dump hd, ← ht.toList_dump hd', h]
    obtain rfl : d = d' := List.singleton_inj.mp (Shape.outlineAll_injective _ _ houtline)
    exact renaming_of_shape? hs ht (hd.trans hd'.symm)
  · rintro ⟨f, hf⟩
    have hshape := hf.shape?_eq hs.toRooted
    rw [hd, hd', Option.some.injEq] at hshape
    rw [← String.toList_inj, hs.toList_dump hd, ht.toList_dump hd', hshape]

/-- The sum of two names, built by hand and parsed, has one dump. -/
theorem dump_eq_iff_sumOfNames : sumOfNames.WellFormed 0 ∧
    Parser.parse ⟨true, none⟩ "a+b" = .ok Session.parsedSum ∧
      ∃ f, sumOfNames.Renaming f Session.parsedSum := by
  obtain ⟨root, hwf, -⟩ := Parser.parse_normal Session.parse_parsedSum
  exact ⟨wellFormed_sumOfNames, Session.parse_parsedSum,
    (dump_eq_iff sumOfNames Session.parsedSum 0 root wellFormed_sumOfNames hwf).mp rfl⟩

end Store

end ArithTree
