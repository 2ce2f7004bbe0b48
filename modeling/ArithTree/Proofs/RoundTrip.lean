import ArithTree.Proofs.Normality
import ArithTree.Proofs.Placements
import ArithTree.Render.Formula

/-!
# Formulas are read back

The formula of a normal tree is derived by the grammar, and merging the derivation gives the tree
back (`exists_derivation`): a formula has parentheses for its groups only, and in a normal tree no
more are needed. So parsing a formula gives back the tree, up to handles (`formula_round_trip`).
-/

namespace ArithTree

namespace Shape

mutual

/-- The formula of any tree with this shape. -/
def formula : Shape → String
  | .node (.literal l) _ => l.text
  | .node (.compound .group) below => "(" ++ String.join (formulas below) ++ ")"
  | .node (.compound .add) below => "+".intercalate (formulas below)
  | .node (.compound .multiply) below => "*".intercalate (formulas below)

def formulas : List Shape → List String
  | [] => []
  | t :: rest => t.formula :: formulas rest

end

theorem formulas_eq_map (ts : List Shape) : formulas ts = ts.map formula := by
  induction ts with
  | nil => rfl
  | cons t rest ih => rw [formulas, ih, List.map_cons]

theorem formula_chain (c : Parser.Chain) (ts : List Shape) :
    (Shape.node (.compound c.operator) ts).formula =
      (String.singleton c.symbol).intercalate (ts.map formula) := by
  cases c <;> rw [Parser.Chain.operator, formula, formulas_eq_map] <;> rfl

end Shape

namespace Unfolding

mutual

/-- Where nothing dangles, the formula is that of the shape. -/
theorem formula_of_shape? : ∀ (u : Unfolding) {t : Shape}, u.Whole → u.shape? = some t →
    u.formula = t.formula
  | .dangling _, _, h, _ => h.elim
  | .node _ label below, t, h, ht => by
    rw [shape?, Option.some.injEq] at ht
    have hbelow := formulas_of_shapes below h
    cases label with
    | literal l => rw [← ht, formula, Shape.formula]
    | compound op => cases op <;> rw [← ht, formula, Shape.formula, hbelow]

theorem formulas_of_shapes : ∀ us : List Unfolding, WholeAll us →
    formulas us = Shape.formulas (shapes us)
  | [], _ => rfl
  | u :: rest, h => by
    obtain ⟨t, ht⟩ := h.1.exists_shape?
    simp only [formulas, shapes, ht, Shape.formulas]
    rw [formula_of_shape? u h.1 ht, formulas_of_shapes rest h.2]

end

end Unfolding

/-- The formula of a tree is that of its shape. -/
theorem Store.Presents.formula_eq {s : Store} {u : Unfolding} (h : s.Presents u) {t : Shape}
    (ht : s.shape? = some t) : s.formula = t.formula := by
  rw [h.shape?_eq] at ht
  rw [Store.formula, h.root]
  simp only [Store.formulaOf, h.unfold_eq]
  exact u.formula_of_shape? h.holds.whole ht

namespace Parser

open Shape

/-! ## Derivations of formulas -/

/-- The tightest rule that derives trees with this label. -/
def ruleOf : Label → Rule
  | .compound .add => .chain .addition
  | .compound .multiply => .chain .multiplication
  | .compound .group => .grouping
  | .literal _ => .grouping

/-- The formula can be derived, and the derivation merges to the tree. -/
def ReadsBack (r : Rule) (t : Shape) : Prop := ∃ d, Derives r t.formula.toList d ∧ d.merged = t

theorem ReadsBack.loosen {c : Chain} {t : Shape} (h : ReadsBack c.tighter t) :
    ReadsBack (.chain c) t := by
  obtain ⟨d, hd, hm⟩ := h
  exact ⟨d, .tighter hd, hm⟩

theorem ruleOf_eq_grouping {l : Label} (hadd : l ≠ .compound .add)
    (hmul : l ≠ .compound .multiply) : ruleOf l = .grouping := by
  cases l with
  | literal l => rfl
  | compound op =>
    cases op with
    | add => exact absurd rfl hadd
    | multiply => exact absurd rfl hmul
    | group => rfl

/-- A tree that is no sum can be read as a product. -/
theorem ReadsBack.product {t : Shape} (h : ReadsBack (ruleOf t.label) t)
    (hadd : t.label ≠ .compound .add) : ReadsBack (.chain .multiplication) t := by
  by_cases hmul : t.label = .compound .multiply
  · rw [hmul] at h
    exact h
  · rw [ruleOf_eq_grouping hadd hmul] at h
    exact h.loosen (c := .multiplication)

theorem ReadsBack.sum {t : Shape} (h : ReadsBack (ruleOf t.label) t) :
    ReadsBack (.chain .addition) t := by
  by_cases hadd : t.label = .compound .add
  · rw [hadd] at h
    exact h
  · exact (h.product hadd).loosen (c := .addition)

/-- **Chain lemma.** Operands joined by the symbol of a chain rule are derived by that rule, from
the left, and the run that the derivation makes has these operands. -/
theorem exists_chain (c : Chain) : ∀ ts : List Shape, ts ≠ [] →
    (∀ t ∈ ts, t.label.operator? ≠ some c.operator ∧ ReadsBack c.tighter t) →
      ∃ d, Derives (.chain c) ((String.singleton c.symbol).intercalate (ts.map formula)).toList d ∧
        operands (some c.operator) d = ts := by
  intro ts hne hts
  induction ts using List.reverseRecOn with
  | nil => exact absurd rfl hne
  | append_singleton ts t ih =>
    obtain ⟨hlabel, d, hd, hm⟩ := hts t (by simp)
    have hrun : operands (some c.operator) d = [t] := by
      rw [operands_of_ne, hm]
      rwa [← label_merged, hm]
    by_cases hempty : ts = []
    · subst hempty
      refine ⟨d, .tighter ?_, hrun⟩
      simpa using hd
    · obtain ⟨d', hd', hrun'⟩ := ih hempty fun t' ht' => hts t' (List.mem_append_left _ ht')
      refine ⟨.node (.compound c.operator) [d', d], ?_, ?_⟩
      · have hne' : ts.map formula ≠ [] := fun e => hempty (List.map_eq_nil_iff.mp e)
        rw [List.map_append, String.intercalate_append_of_ne_nil hne' (by simp)]
        simpa using Derives.binary hd' hd
      · rw [operands, if_pos ⟨rfl, rfl⟩, operandsAll, operandsAll, operandsAll, hrun, hrun',
          List.append_nil]

/-- Two operands or more are the children of one compound. -/
theorem readsBack_chain (c : Chain) {ts : List Shape} (hlen : 2 ≤ ts.length)
    (hts : ∀ t ∈ ts, t.label.operator? ≠ some c.operator ∧ ReadsBack c.tighter t) :
    ReadsBack (.chain c) (.node (.compound c.operator) ts) := by
  have hne : ts ≠ [] := by
    rintro rfl
    simp at hlen
  obtain ⟨d, hd, hrun⟩ := exists_chain c ts hne hts
  refine ⟨d, by rwa [formula_chain], ?_⟩
  by_cases hop : d.label.operator? = some c.operator
  · rw [merged_of_eq hop, hrun]
  · rw [operands_of_ne hop] at hrun
    rw [← hrun] at hlen
    simp at hlen

/-- **Reading lemma.** The formula of a normal tree has a derivation that merges to the tree. -/
theorem exists_derivation (t : Shape) : t.Normal → ReadsBack (ruleOf t.label) t := by
  induction t using Shape.induct with
  | node label below ih =>
    intro hnormal
    rw [normal_node] at hnormal
    obtain ⟨hadmits, hbelow⟩ := hnormal
    have hback : ∀ t ∈ below, ReadsBack (ruleOf t.label) t := fun t ht => ih t ht (hbelow t ht)
    cases label with
    | literal l =>
      obtain rfl : below = [] := List.map_eq_nil_iff.mp hadmits
      exact ⟨.node (.literal l) [], .literal (literalToken_text l), rfl⟩
    | compound op =>
      cases op with
      | add =>
        obtain ⟨hlen, hne⟩ := hadmits
        rw [List.length_map] at hlen
        refine readsBack_chain .addition hlen fun t ht => ?_
        have hlabel := hne _ (List.mem_map_of_mem ht)
        exact ⟨fun h => hlabel (label_eq_compound h), (hback t ht).product hlabel⟩
      | multiply =>
        obtain ⟨hlen, hne⟩ := hadmits
        rw [List.length_map] at hlen
        refine readsBack_chain .multiplication hlen fun t ht => ?_
        obtain ⟨hadd, hmul⟩ := hne _ (List.mem_map_of_mem ht)
        have hgroup := hback t ht
        rw [ruleOf_eq_grouping hadd hmul] at hgroup
        exact ⟨fun h => hmul (label_eq_compound h), hgroup⟩
      | group =>
        obtain ⟨l, hl, hne⟩ := hadmits
        obtain ⟨o, rfl, rfl⟩ := List.map_eq_singleton_iff.mp hl
        obtain ⟨d, hd, hm⟩ := (hback o (List.mem_singleton_self o)).sum
        refine ⟨.node (.compound .group) [d], ?_, ?_⟩
        · rw [formula, formulas, formulas, Shape.label, ruleOf]
          simpa using Derives.group hd
        · have hlabel : d.label.operator? ≠ some .group := by
            rw [← label_merged, hm]
            exact fun h => hne (label_eq_compound h)
          rw [merged_single, operands_of_ne hlabel, hm]

/-! ## Parsing formulas -/

/-- Within the limit, a text that can be derived as it stands is accepted. -/
theorem parse_of_derives {options : ParserOptions} {text : String} {d : Shape}
    (hadmits : options.Admits text.toList.length)
    (hd : Derives (.chain .addition) text.toList d) :
    ∃ tree, parse options text = .ok tree ∧ IsTree tree d.merged := by
  have hblank : Text.withoutBlanks text.toList = text.toList := by
    refine List.filter_eq_self.mpr fun c hc => ?_
    rw [hd.not_blank c hc]
    rfl
  rw [parse_of_admits (by rwa [hblank]), hblank]
  rcases parseInput_spec options text text.toList with ⟨tree, d', hok, hd', htree⟩ | ⟨-, hnone⟩
  · exact ⟨tree, hok, derives_unique hd' hd ▸ htree⟩
  · exact absurd hd (hnone d)

/-- Without a limit, the formula of a normal shape is accepted and gives the shape back. -/
theorem parse_formula {options : ParserOptions} {t : Shape} (hmax : options.maxLength = none)
    (h : t.Normal) : ∃ tree, parse options t.formula = .ok tree ∧ IsTree tree t := by
  obtain ⟨d, hd, hm⟩ := (exists_derivation t h).sum
  obtain ⟨tree, hok, htree⟩ := parse_of_derives (admits_of_unlimited hmax _) hd
  exact ⟨tree, hok, hm ▸ htree⟩

/-- A tree that is parsed is normal. -/
theorem parse_normal {options : ParserOptions} {text : String} {tree : Store}
    (h : parse options text = .ok tree) : ∃ root, tree.WellFormed root ∧ tree.Normal root := by
  obtain ⟨d, hd, htree⟩ := isTree_of_parse h
  obtain ⟨root, hwf⟩ := htree.wellFormed
  exact ⟨root, hwf, (hwf.toRooted.normal_iff htree.shape).mpr hd.normal_merged⟩

/-- **Formulas are read back.** A parsed tree is normal. The formula of a normal tree is parsed,
without a limit, to a tree with the same labels in the same places; so trees with one formula are
equal up to handles, and every normal shape is that of some parsed tree. -/
theorem formula_round_trip :
    (∀ options text tree, parse options text = .ok tree →
      ∃ root, tree.WellFormed root ∧ tree.Normal root) ∧
    (∀ options (s : Store) root, options.maxLength = none → s.Normal root →
      ∃ tree, parse options s.formula = .ok tree ∧ tree.shape? = s.shape?) ∧
    (∀ (s t : Store) root root', s.Normal root → t.Normal root' → s.formula = t.formula →
      s.shape? = t.shape?) ∧
    (∀ options (d : Shape), options.maxLength = none → d.Normal →
      ∃ text tree, parse options text = .ok tree ∧ tree.shape? = some d) := by
  have back : ∀ options (s : Store) root, options.maxLength = none → s.Normal root →
      ∃ tree, parse options s.formula = .ok tree ∧ tree.shape? = s.shape? := by
    intro options s root hmax h
    obtain ⟨t, ht⟩ := h.toRooted.exists_shape?
    rw [h.toRooted.presents.formula_eq ht, ht]
    obtain ⟨tree, hok, htree⟩ := parse_formula hmax ((h.toRooted.normal_iff ht).mp h)
    exact ⟨tree, hok, htree.shape⟩
  refine ⟨fun _ _ _ => parse_normal, back, ?_, ?_⟩
  · intro s t root root' hs ht heq
    obtain ⟨tree, hok, hshape⟩ := back ⟨false, none⟩ s root rfl hs
    obtain ⟨tree', hok', hshape'⟩ := back ⟨false, none⟩ t root' rfl ht
    rw [heq, hok', Except.ok.injEq] at hok
    rw [← hshape, ← hshape', hok]
  · intro options d hmax hd
    obtain ⟨tree, hok, htree⟩ := parse_formula hmax hd
    exact ⟨_, tree, hok, htree.shape⟩

/-- The sum of two names, as a shape. -/
def sumShape : Shape := .node (.compound .add) [
  .node (.literal ⟨"a", .identifier 'a', Store.ofToken?_a⟩) [],
  .node (.literal ⟨"b", .identifier 'b', Store.ofToken?_b⟩) []]

theorem normal_sumShape : sumShape.Normal :=
  ⟨⟨by decide, by decide⟩, ⟨rfl, trivial⟩, ⟨rfl, trivial⟩, trivial⟩

/-- The sum of two names is read back from its formula, and parsing gives its shape. -/
theorem formula_round_trip_sumOfNames : Store.sumOfNames.Normal 0 ∧
    (∃ tree root, parse ⟨true, none⟩ "a+b" = .ok tree ∧ tree.Normal root ∧
      tree.formula = Store.sumOfNames.formula ∧ tree.shape? = Store.sumOfNames.shape?) ∧
    ∃ text tree, parse ⟨false, none⟩ text = .ok tree ∧ tree.shape? = some sumShape := by
  have hshape : Store.sumOfNames.shape? = some sumShape := rfl
  have hnormal : Store.sumOfNames.Normal 0 :=
    (Store.wellFormed_sumOfNames.toRooted.normal_iff hshape).mpr normal_sumShape
  obtain ⟨hparsed, hback, hsame, honto⟩ := formula_round_trip
  obtain ⟨tree, htree, hread⟩ := hback ⟨true, none⟩ Store.sumOfNames 0 rfl hnormal
  obtain ⟨root, -, hroot⟩ := hparsed _ _ _ htree
  have hformula : tree.formula = Store.sumOfNames.formula :=
    (hroot.toRooted.presents.formula_eq (hread.trans hshape)).trans
      (hnormal.toRooted.presents.formula_eq hshape).symm
  exact ⟨hnormal, ⟨tree, root, htree, hroot, hformula, hsame _ _ _ _ hroot hnormal hformula⟩,
    honto ⟨false, none⟩ sumShape rfl normal_sumShape⟩

end Parser

end ArithTree
