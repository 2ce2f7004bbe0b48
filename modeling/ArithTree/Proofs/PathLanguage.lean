import ArithTree.Proofs.Grammar
import ArithTree.Proofs.Moves
import ArithTree.Proofs.PathOrder
import Mathlib.Algebra.Group.Nat.Defs
import Mathlib.Data.List.TakeWhile

/-!
# The language of written paths

Which texts are paths, and which path a text is. Blanks around the whole and around each part do not
matter (`parse?_eq_some_iff`), a text of blanks is the path of the root, and every other text is
refused as it stands between the blanks. Paths that are written read back, so in a well-formed tree
every node is found under its written path (`written_paths_read`).
-/

namespace ArithTree

namespace Text

/-- Trimming drops blanks only. -/
theorem mem_trimBlanks {cs : List Char} {c : Char} (hc : c ∈ cs) (hblank : isBlank c = false) :
    c ∈ trimBlanks cs := by
  have keeps {l : List Char} (hl : c ∈ l) : c ∈ l.dropWhile isBlank := by
    rw [← List.takeWhile_append_dropWhile (p := isBlank) (l := l)] at hl
    refine (List.mem_append.mp hl).resolve_left fun hdropped => ?_
    rw [List.mem_takeWhile_imp hdropped] at hblank
    cases hblank
  exact List.mem_reverse.mpr (keeps (List.mem_reverse.mpr (keeps hc)))

theorem trimBlanks_eq_nil_iff (cs : List Char) :
    trimBlanks cs = [] ↔ ∀ c ∈ cs, isBlank c = true := by
  constructor
  · intro hnil c hc
    by_contra hblank
    have := mem_trimBlanks hc (Bool.eq_false_of_not_eq_true hblank)
    rw [hnil] at this
    cases this
  · intro hall
    rw [trimBlanks, List.dropWhile_eq_nil_iff.mpr hall]
    rfl

namespace Numeral

/-- `token` is a position: at most one plus, then digits, with a value that fits into a machine
word. -/
def IsPosition (token : List Char) (n : Nat) : Prop :=
  ∃ digits, (token = digits ∨ token = '+' :: digits) ∧ digits ≠ [] ∧
    (∀ c ∈ digits, c.isDigit = true) ∧ Nat.ofDigitChars 10 digits 0 = n ∧ n ≤ 2 ^ 64 - 1

theorem unsigned?_eq_some_iff (token : List Char) (n : Nat) :
    unsigned? token = some n ↔ IsPosition token n := by
  have read (cs : List Char) := Parser.digitsUpTo?_eq_some_iff maxUnsigned cs n
  constructor
  · intro h
    unfold unsigned? at h
    split at h
    · next cs => exact ⟨cs, Or.inr rfl, (read cs).mp h⟩
    · exact ⟨token, Or.inl rfl, (read token).mp h⟩
  · rintro ⟨digits, rfl | rfl, hdigits⟩
    · rw [unsigned?_of_isDigit hdigits.2.1]
      exact (read token).mpr hdigits
    · exact (read digits).mpr hdigits

/-- There is no dot in a position. -/
theorem IsPosition.dot_notMem {token : List Char} {n : Nat} (h : IsPosition token n) :
    '.' ∉ token := by
  obtain ⟨digits, htoken, -, hall, -⟩ := h
  intro hdot
  have hdigits : '.' ∈ digits := by
    rcases htoken with rfl | rfl
    · exact hdot
    · exact (List.mem_cons.mp hdot).resolve_left (by decide)
  exact absurd (hall '.' hdigits) (by decide)

end Numeral

end Text

namespace NodePath

open Text Text.Numeral

/-- `cs` is a run of parts with dots between them, and each part but for blanks around it is the
position at the same place in `path`. -/
def Writes (cs : List Char) (path : List Nat) : Prop :=
  ∃ parts, parts ≠ [] ∧ cs = ['.'].intercalate parts ∧
    List.Forall₂ (fun part n => IsPosition (trimBlanks part) n) parts path

/-- The parts of a run that writes a path are those between its dots. -/
theorem writes_iff (cs : List Char) (path : List Nat) :
    Writes cs path ↔
      List.Forall₂ (fun part n => IsPosition (trimBlanks part) n) (parts cs) path := by
  rw [parts_eq_splitOn]
  constructor
  · rintro ⟨parts, hne, rfl, hpath⟩
    have hplain : List.Forall₂ (fun part n => '.' ∉ part ∧ IsPosition (trimBlanks part) n)
      parts path :=
      hpath.imp fun part n h => ⟨fun hdot => h.dot_notMem (mem_trimBlanks hdot rfl), h⟩
    rwa [List.splitOn_intercalate '.' ((List.forall₂_and_left _ _).mp hplain).1 hne]
  · intro hpath
    exact ⟨cs.splitOn '.', List.splitOn_ne_nil '.' cs, (List.intercalate_splitOn '.').symm, hpath⟩

/-- A text that does not consist of blanks is read as the path that it writes. -/
theorem parse?_eq_some_iff {text : String} (h : ∃ c ∈ text.toList, isBlank c = false)
    (path : List Nat) : parse? text = some path ↔ Writes (trimBlanks text.toList) path := by
  have hne : trimBlanks text.toList ≠ [] := by
    obtain ⟨c, hc, hblank⟩ := h
    exact List.ne_nil_of_mem (mem_trimBlanks hc hblank)
  rw [writes_iff, parse?]
  split
  · next hnil => exact absurd hnil hne
  · simp only [mapM_eq_some_iff, unsigned?_eq_some_iff]

theorem parse?_of_isBlank {text : String} (h : ∀ c ∈ text.toList, isBlank c = true) :
    parse? text = some [] := by
  rw [parse?, (trimBlanks_eq_nil_iff _).mpr h]

end NodePath

namespace Store

open Text Text.Numeral NodePath

/-- Where no child list is longer than `bound`, the positions on a path are below it. -/
theorem lt_of_mem_path {s : Store} {root node : NodeId} {path : List Nat} {bound : Nat}
    (hshort : ∀ p, (s.children p).length ≤ bound) (hpath : s.descend root path = some node) :
    ∀ n ∈ path, n < bound := by
  intro n hn
  obtain ⟨above, below, rfl⟩ := List.append_of_mem hn
  obtain ⟨p, -, hrest⟩ := descend_append_iff.mp hpath
  obtain ⟨c, hc, -⟩ := descend_cons_iff.mp hrest
  exact Nat.lt_of_lt_of_le (List.getElem?_eq_some_iff.mp hc).1 (hshort p)

/-- **Written paths are read back.** A text of blanks is the path of the root. Any other text is
read as the path that is written between the blanks at its ends, if there is one, and otherwise it
is refused without these blanks. What is written for a path of machine words is read as this path;
so every node of a well-formed tree is found under its written path, as long as machine words can
count the children of a node. -/
theorem written_paths_read :
    (∀ text, (∀ c ∈ text.toList, isBlank c = true) → parse? text = some []) ∧
    (∀ text path, (∃ c ∈ text.toList, isBlank c = false) →
      (parse? text = some path ↔ Writes (trimBlanks text.toList) path)) ∧
    (∀ text, parse? text = none ↔ (∃ c ∈ text.toList, isBlank c = false) ∧
      ∀ path, ¬ Writes (trimBlanks text.toList) path) ∧
    (∀ (s : Store) text, parse? text = none → s.resolve text = .error (.invalidPath (trim text))) ∧
    (∀ path, (∀ n ∈ path, n ≤ 2 ^ 64 - 1) → parse? (format path) = some path) ∧
    ∀ (s : Store) root, s.WellFormed root → (∀ p, (s.children p).length ≤ 2 ^ 64) →
      ∀ node, s.contains node = true →
        ∃ path, s.pathOf? node = some path ∧ s.resolve (format path) = .ok node := by
  refine ⟨fun text => parse?_of_isBlank, fun text path => (parse?_eq_some_iff · path),
    fun text => ?_,
    fun s text hnone => ?_, fun path => parse?_format, fun s root h hshort node hnode => ?_⟩
  · by_cases hblank : ∀ c ∈ text.toList, isBlank c = true
    · rw [parse?_of_isBlank hblank]
      refine iff_of_false (by simp) fun ⟨⟨c, hc, hvisible⟩, _⟩ => ?_
      rw [hblank c hc] at hvisible
      cases hvisible
    · have hvisible : ∃ c ∈ text.toList, isBlank c = false := by simpa using hblank
      rw [Option.eq_none_iff_forall_ne_some]
      simp only [ne_eq, parse?_eq_some_iff hvisible, hvisible, true_and]
  · simp only [resolve, hnone]
  · obtain ⟨path, hpath⟩ := h.exists_path hnode
    have hdown : s.descend root path = some node := (h.nodeAt?_eq path).symm.trans
      (h.pathOf?_eq_some_iff.mp hpath)
    refine ⟨path, hpath, resolve_format hpath fun n hn => ?_⟩
    exact Nat.le_pred_of_lt (lt_of_mem_path hshort hdown n hn)

/-- Signs, zeros and blanks around a position do not matter, a blank inside one does; the largest
machine word is read back; and the second operand of a sum is found under its written path. -/
theorem written_paths_read_sumOfNames :
    parse? " " = some [] ∧
    (parse? " +007 . 1 " = some [7, 1] ∧ Writes (trimBlanks " +007 . 1 ".toList) [7, 1]) ∧
    ((∀ path, ¬ Writes (trimBlanks " 1 2 ".toList) path) ∧
      sumOfNames.resolve " 1 2 " = .error (.invalidPath (trim " 1 2 "))) ∧
    parse? (format [0, 2 ^ 64 - 1]) = some [0, 2 ^ 64 - 1] ∧
    ∃ path, sumOfNames.pathOf? 2 = some path ∧ sumOfNames.resolve (format path) = .ok 2 := by
  obtain ⟨hblank, hread, hrefused, hresolve, hback, hfound⟩ := written_paths_read
  have hsome : parse? " +007 . 1 " = some [7, 1] := by decide +kernel
  have hnone : parse? " 1 2 " = none := by decide +kernel
  have hspace : ∀ c ∈ " ".toList, isBlank c = true := by
    intro c hc
    obtain rfl : c = ' ' := by simpa using hc
    rfl
  refine ⟨hblank " " hspace, ⟨hsome, (hread _ _ ?_).mp hsome⟩, ⟨((hrefused _).mp hnone).2,
    hresolve sumOfNames _ hnone⟩, hback _ (by decide), ?_⟩
  · exact ⟨'1', by simp, by decide⟩
  · refine hfound sumOfNames 0 wellFormed_sumOfNames (fun p => ?_) 2 (by decide)
    match p with
    | 0 | 1 | 2 => decide
    | p + 3 => exact Nat.zero_le _

end Store

end ArithTree
