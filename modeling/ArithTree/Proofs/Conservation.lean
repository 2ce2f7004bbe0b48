import ArithTree.Proofs.Parentheses
import ArithTree.Proofs.RoundTrip
import Mathlib

/-!
# Formulas conserve the text

The formula of a parsed tree is the text without its blanks and its doubled parentheses
(`formula_conserves`). Merging sums and products does not show in a formula, for the symbols between
the operands are the same (`intercalate_operands`); merging groups drops the outer one of two pairs
(`Derives.formula_merged`). Both keep the literals (`literals_merged`), so these are the tokens of
the text in order.
-/

namespace ArithTree

namespace Shape

/-! ## Literals -/

mutual

/-- The literals in preorder. -/
def literals : Shape → List Literal
  | .node label below => label.literal?.toList ++ literalsAll below

def literalsAll : List Shape → List Literal
  | [] => []
  | t :: rest => t.literals ++ literalsAll rest

end

theorem literalsAll_append (ts us : List Shape) :
    literalsAll (ts ++ us) = literalsAll ts ++ literalsAll us := by
  induction ts with
  | nil => rfl
  | cons t rest ih => rw [List.cons_append, literalsAll, literalsAll, ih, List.append_assoc]

mutual

/-- The nodes that a run absorbs are compounds. -/
theorem literalsAll_operands (op : Option Operator) : ∀ t : Shape,
    literalsAll (operands op t) = t.literals
  | .node label below => by
    rw [operands, literals]
    split
    · next hrun =>
      obtain ⟨op', hop⟩ := Option.isSome_iff_exists.mp hrun.1
      rw [label_eq_compound (hrun.2.trans hop), literalsAll_operandsAll op below]
      rfl
    · rw [literalsAll, literalsAll, literals, literalsAll_operandsAll _ below, List.append_nil]

theorem literalsAll_operandsAll (op : Option Operator) : ∀ ts : List Shape,
    literalsAll (operandsAll op ts) = literalsAll ts
  | [] => rfl
  | t :: rest => by
    rw [operandsAll, literalsAll_append, literalsAll_operands op t,
      literalsAll_operandsAll op rest, literalsAll]

end

theorem literals_merged (t : Shape) : t.merged.literals = t.literals := by
  cases t with
  | node label below => rw [merged, literals, literals, literalsAll_operandsAll]

/-! ## Formulas of merged shapes -/

/-- Whether a run is joined with others or stands alone, its operands are written the same. -/
theorem intercalate_operands (c : Parser.Chain) (t : Shape) :
    (String.singleton c.symbol).intercalate ((operands (some c.operator) t).map formula) =
      t.merged.formula := by
  by_cases hrun : t.label.operator? = some c.operator
  · rw [merged_of_eq hrun, formula_chain]
  · rw [operands_of_ne hrun]
    rfl

/-- A group around a group is merged with it. -/
theorem merged_group_group {t : Shape} (h : t.label = .compound .group) :
    merged (.node (.compound .group) [t]) = t.merged := by
  rw [merged_single, ← merged_of_eq (by rw [h]; rfl)]

theorem formula_merged_group {t : Shape} (h : t.label ≠ .compound .group) :
    (merged (.node (.compound .group) [t])).formula.toList =
      '(' :: (t.merged.formula.toList ++ [')']) := by
  rw [merged_single, operands_of_ne fun hop => h (label_eq_compound hop), formula,
    formulas, formulas]
  simp

end Shape

namespace Store

open Unfolding hiding id

mutual

/-- The literals among the live occurrences are those of the shape. -/
theorem Reads.filterMap_literal? {s : Store} : ∀ (u : Unfolding) {t : Shape},
    s.Reads u → u.shape? = some t →
      u.preorder.filterMap (fun id => (s.label? id).bind Label.literal?) = t.literals
  | .dangling _, _, _, ht => by cases ht
  | .node id label below, t, h, ht => by
    obtain ⟨⟨up, hn⟩, hbelow⟩ := h
    rw [Unfolding.shape?, Option.some.injEq] at ht
    rw [← ht, Unfolding.preorder, List.filterMap_cons, label?_of_node? hn,
      ReadsAll.filterMap_literal? below hbelow, Shape.literals, Option.bind_some]
    cases label.literal? <;> rfl

theorem ReadsAll.filterMap_literal? {s : Store} : ∀ us : List Unfolding, s.ReadsAll us →
    (preorderAll us).filterMap (fun id => (s.label? id).bind Label.literal?) =
      Shape.literalsAll (shapes us)
  | [], _ => rfl
  | .dangling _ :: rest, h => ReadsAll.filterMap_literal? rest h.2
  | .node id label below :: rest, h => by
    have htop := Reads.filterMap_literal? (.node id label below) h.1 rfl
    rw [preorderAll, List.filterMap_append, htop, ReadsAll.filterMap_literal? rest h.2, shapes,
      Unfolding.shape?, Shape.literalsAll]

end

/-- The literals below the root are those of the shape of what is held there. -/
theorem Holds.literals_eq {s : Store} {up : Option NodeId} {u : Unfolding} (h : s.Holds up u)
    (hnodup : u.ids.Nodup) (hroot : s.root = some u.id) {t : Shape} (ht : u.shape? = some t) :
    s.literals = t.literals := by
  rw [literals, preorder_eq h hnodup hroot, ← preorder_eq_ids u h.whole,
    Reads.filterMap_literal? u h.reads ht]

theorem Presents.literals_eq {s : Store} {u : Unfolding} (h : s.Presents u) {t : Shape}
    (ht : s.shape? = some t) : s.literals = t.literals :=
  h.holds.literals_eq h.nodup h.root (h.shape?_eq ▸ ht)

end Store

namespace Parser

open Shape

/-! ## Tokens -/

/-- Symbols and parentheses stand between tokens. -/
def separates (c : Char) : Bool := c == '(' || c == ')' || c == '+' || c == '*'

theorem separates_symbol (c : Chain) : separates c.symbol = true := by
  cases c <;> rfl

/-- The tokens of a run, from left to right. -/
def tokens (w : List Char) : List (List Char) := (w.splitOnP separates).filter (· ≠ [])

theorem tokens_append_cons (u v : List Char) {c : Char} (h : separates c = true) :
    tokens (u ++ c :: v) = tokens u ++ tokens v := by
  rw [tokens, List.splitOnP_append_cons u v h, List.filter_append]
  rfl

theorem tokens_group (u : List Char) : tokens ('(' :: (u ++ [')'])) = tokens u := by
  have hopen := tokens_append_cons [] (u ++ [')']) (c := '(') rfl
  have hclose := tokens_append_cons u [] (c := ')') rfl
  have hnil : tokens [] = [] := rfl
  rw [List.nil_append, hclose, hnil, List.append_nil] at hopen
  exact hopen

theorem tokens_text (l : Literal) : tokens l.text.toList = [l.text.toList] := by
  have htoken := literalToken_text l
  have hplain : ∀ c ∈ l.text.toList, separates c = false := by
    intro c hc
    obtain ⟨⟨hopen, hclose⟩, hsymbol⟩ := htoken.plain hc
    have hadd : c ≠ '+' := hsymbol .addition
    have hmul : c ≠ '*' := hsymbol .multiplication
    simp [separates, hopen, hclose, hadd, hmul]
  rw [tokens, List.splitOnP_eq_singleton hplain]
  simp [htoken.ne_nil]

/-- The literals of a derivation are the tokens of what it derives. -/
theorem Derives.map_literals {r : Rule} {w : List Char} {t : Shape} (h : Derives r w t) :
    t.literals.map (fun l => l.text.toList) = tokens w := by
  induction h with
  | @binary c u v l r _ _ ihl ihr =>
    rw [tokens_append_cons u v (separates_symbol c), ← ihl, ← ihr]
    simp [literals, literalsAll, Label.literal?]
  | tighter _ ih => exact ih
  | @group u t _ ih =>
    rw [tokens_group, ← ih]
    simp [literals, literalsAll, Label.literal?]
  | @literal l _ =>
    rw [tokens_text]
    rfl

/-! ## Formulas of derivations -/

/-- Whether a run is in one pair of parentheses shows at the top of its derivation. -/
theorem Derives.matched_iff {r : Rule} {w : List Char} {t : Shape} (h : Derives r w t) :
    Matched w 0 (w.length - 1) ↔ t.label = .compound .group := by
  induction h with
  | @binary c u v l r hl _ _ _ =>
    refine iff_of_false (fun hmatched => ?_) (by cases c <;> simp [Shape.label, Chain.operator])
    have hpos := List.length_pos_of_ne_nil hl.ne_nil
    obtain ⟨k, hk, hin⟩ := hl.balanced.exists_close hpos [] (c.symbol :: v) hmatched
    have := hin.lt_length
    simp at hk
    omega
  | tighter _ ih => exact ih
  | @group u t hu _ =>
    refine iff_of_true (Parser.matched_iff.mpr ⟨[], u, [], rfl, rfl, ?_, hu.balanced⟩) rfl
    simp
    omega
  | @literal l h =>
    refine iff_of_false (fun hmatched => ?_) (by simp [Shape.label])
    exact (h.plain (List.mem_of_getElem? hmatched.2.1)).1.1 rfl

theorem undoubled_text (l : Literal) : undoubled l.text.toList = l.text.toList := by
  refine undoubled_eq_self fun i j h => ?_
  exact ((literalToken_text l).plain (List.mem_of_getElem? h.1.2.1)).1.1 rfl

/-- **Conservation lemma.** What is merged is written without the doubled pairs, all else as it was
derived. -/
theorem Derives.formula_merged {r : Rule} {w : List Char} {t : Shape} (h : Derives r w t) :
    t.merged.formula.toList = undoubled w := by
  induction h with
  | @binary c u v l r hl hr ihl ihr =>
    have hleft : (operands (some c.operator) l).map formula ≠ [] := fun e =>
      hl.normal_merged.operands_ne_nil c.operator (List.map_eq_nil_iff.mp e)
    have hright : (operands (some c.operator) r).map formula ≠ [] := fun e =>
      hr.normal_merged.operands_ne_nil c.operator (List.map_eq_nil_iff.mp e)
    have hopen : c.symbol ≠ '(' := by cases c <;> decide
    have hclose : c.symbol ≠ ')' := by cases c <;> decide
    rw [merged_pair, formula_chain, List.map_append,
      String.intercalate_append_of_ne_nil hleft hright, intercalate_operands, intercalate_operands,
      undoubled_symbol hl.balanced hr.balanced hopen hclose, ← ihl, ← ihr]
    simp
  | tighter _ ih => exact ih
  | @group u t hu ih =>
    rw [undoubled_group hu.balanced hu.ne_nil]
    by_cases hgroup : t.label = .compound .group
    · rw [if_pos (hu.matched_iff.mpr hgroup), merged_group_group hgroup, ih]
    · rw [if_neg fun hmatched => hgroup (hu.matched_iff.mp hmatched),
        formula_merged_group hgroup, ih]
  | @literal l _ =>
    rw [undoubled_text]
    rfl

/-! ## Formulas of parsed trees -/

theorem admits_of_parse {options : ParserOptions} {text : String} {tree : Store}
    (h : parse options text = .ok tree) :
    options.Admits (Text.withoutBlanks text.toList).length := by
  rcases parse_cases options text with ⟨max, -, -, hparse⟩ | ⟨hadmits, -⟩
  · rw [hparse] at h
    cases h
  · exact hadmits

/-- **Formulas conserve the text.** Let `input` be a text that is parsed, with the blanks taken out.
The formula of the tree is `input` without its doubled pairs of parentheses, where a pair is dropped
exactly when the next characters to the inside are a pair as well. So it differs from `input` in
parentheses only, not at all when no pair is doubled, and is no longer than `input`; under the same
limit it is parsed again, to a tree with the same labels in the same places. The literals of the
tree are the tokens of `input` as they were written. -/
theorem formula_conserves (options : ParserOptions) (text : String) (tree : Store)
    (h : parse options text = .ok tree) :
    let input := Text.withoutBlanks text.toList
    tree.formula.toList = undoubled input ∧
    (∀ i j, Matched input i j →
      (Dropped input i ↔ Matched input (i + 1) (j - 1)) ∧
      (Dropped input j ↔ Matched input (i + 1) (j - 1))) ∧
    tree.formula.toList.Sublist input ∧
    tree.formula.toList.filter (fun c => c ≠ '(' ∧ c ≠ ')') =
      input.filter (fun c => c ≠ '(' ∧ c ≠ ')') ∧
    tree.literals.map (fun l => l.text.toList) = tokens input ∧
    ((∀ i j, ¬ Doubled input i j) → tree.formula.toList = input) ∧
    tree.formula.length ≤ input.length ∧
    ∀ again : ParserOptions, again.maxLength = options.maxLength →
      ∃ tree', parse again tree.formula = .ok tree' ∧ tree'.shape? = tree.shape? := by
  intro input
  obtain ⟨d, hd, htree⟩ := isTree_of_parse h
  obtain ⟨root, hwf⟩ := htree.wellFormed
  have hpresents := hwf.toRooted.presents
  have hformula : tree.formula = d.merged.formula := hpresents.formula_eq htree.shape
  have hinput : tree.formula.toList = undoubled input := by rw [hformula, hd.formula_merged]
  have hsublist : tree.formula.toList.Sublist input := hinput ▸ undoubled_sublist input
  refine ⟨hinput, fun _ _ hmatched => hmatched.dropped_iff, hsublist, ?_, ?_, ?_, ?_, ?_⟩
  · rw [hinput, filter_undoubled]
  · rw [hpresents.literals_eq htree.shape, literals_merged, hd.map_literals]
  · exact fun hnone => hinput.trans (undoubled_eq_self hnone)
  · rw [← String.length_toList]
    exact hsublist.length_le
  · intro again hmax
    obtain ⟨d', hd', hm⟩ := (exists_derivation d.merged hd.normal_merged).sum
    have hadmits : again.Admits d.merged.formula.toList.length := by
      intro max hagain
      rw [← hformula]
      exact Nat.le_trans hsublist.length_le (admits_of_parse h max (hmax ▸ hagain))
    obtain ⟨tree', hok, htree'⟩ := parse_of_derives hadmits hd'
    exact ⟨tree', hformula ▸ hok, by rw [htree'.shape, htree.shape, hm]⟩

/-- The outer pair around a name is dropped and the zeros before a number are kept, also under a
limit that the text just meets. -/
theorem formula_conserves_product : ∃ tree,
    parse ⟨true, some 9⟩ "( (x) ) * 007" = .ok tree ∧ tree.formula.toList = "(x)*007".toList ∧
      tree.literals.map (fun l => l.text.toList) = ["x".toList, "007".toList] ∧
      ∃ tree', parse ⟨false, some 9⟩ tree.formula = .ok tree' ∧ tree'.shape? = tree.shape? := by
  have hok : (parse ⟨true, some 9⟩ "( (x) ) * 007").isOk = true := by cbv
  cases hparse : parse ⟨true, some 9⟩ "( (x) ) * 007" with
  | error e =>
    rw [hparse] at hok
    cases hok
  | ok tree =>
    obtain ⟨hformula, -, -, -, hliterals, -, -, hagain⟩ := formula_conserves _ _ tree hparse
    refine ⟨tree, rfl, hformula.trans (by decide +kernel), hliterals.trans (by decide +kernel), ?_⟩
    exact hagain ⟨false, some 9⟩ rfl

end Parser

end ArithTree
