import ArithTree.Parser
import ArithTree.Proofs.Flattening
import ArithTree.Proofs.Renaming
import ArithTree.Proofs.Search

/-!
# Parsing obeys the grammar

A text is an expression exactly when it derives from the grammar once the blanks are taken out,
its derivation is unique, and the tree that comes back is that derivation with runs of one
operator merged (`parse_spec`). The proof puts together what the search finds (`attempt_answers`)
and what flattening makes of it (`flatten_spec`).
-/

namespace ArithTree

/-- The limit, if there is one, allows an input of this length. -/
def ParserOptions.Admits (options : ParserOptions) (length : Nat) : Prop :=
  ∀ max, options.maxLength = some max → length ≤ max

namespace Parser

open Store Unfolding

/-- `tree` has the shape `d`, and nothing beside it: no stray nodes and no ghost. -/
structure IsTree (tree : Store) (d : Shape) : Prop where
  wellFormed : ∃ root, tree.WellFormed root
  shape : tree.shape? = some d
  ghost : tree.ghost = none

/-! ## Before flattening -/

/-- The search on a whole input builds the tree of a derivation, or there is none. -/
theorem derive?_spec (memoize : Bool) (input : List Char) :
    (∃ s u d, derive? memoize input.toArray = some s ∧ Derives (.chain .addition) input d ∧
      u.shape? = some d ∧ s.Presents u ∧ (∀ x, s.contains x = true → x ∈ u.ids) ∧ s.ghost = none) ∨
    (derive? memoize input.toArray = none ∧ ∀ d, ¬ Derives (.chain .addition) input d) := by
  have hanswer := Search.attempt_answers input.toArray memoize (.chain .addition) 0
    input.toArray.size Search.initial (Nat.zero_le _) (Nat.le_refl _) (Search.fit_initial _)
  rw [span_all] at hanswer
  unfold derive?
  generalize Search.attempt input.toArray memoize (.chain .addition) 0 input.toArray.size
    Search.initial = result at hanswer
  cases hanswer with
  | @found after u d hd hderives hgrows hfit =>
    obtain ⟨hpresents, hlive⟩ := hgrows.presents
    exact Or.inl ⟨_, u, d, rfl, hderives, hd, hpresents, hlive, hfit.ghost⟩
  | none hnone _ _ => exact Or.inr ⟨rfl, hnone⟩

/-! ## After flattening -/

/-- Flattening a tree merges its shape, keeps it well-formed and sets no ghost. -/
theorem isTree_flatten {s : Store} {u : Unfolding} {d : Shape} (h : s.Presents u)
    (hlive : ∀ x, s.contains x = true → x ∈ u.ids) (hghost : s.ghost = none)
    (hd : u.shape? = some d) : IsTree s.flatten d.merged := by
  obtain ⟨hpresents, hrewrites⟩ := h.flatten
  refine ⟨⟨_, hpresents.wellFormed fun x hx => ?_⟩, ?_, hrewrites.shrinks.ghost.unset hghost⟩
  · by_contra hgone
    have hmem := hlive x (hrewrites.shrinks.live x hx)
    rw [Store.contains, hrewrites.removed x hmem hgone] at hx
    cases hx
  · rw [hpresents.shape?_eq, shape?_merged, hd, Option.map_some]

theorem parseInput_spec (options : ParserOptions) (text : String) (input : List Char) :
    (∃ tree d, parseInput options text input = .ok tree ∧ Derives (.chain .addition) input d ∧
      IsTree tree d.merged) ∨
    (parseInput options text input = .error (.invalid text) ∧
      ∀ d, ¬ Derives (.chain .addition) input d) := by
  rcases derive?_spec options.memoize input with
    ⟨s, u, d, hs, hderives, hd, hpresents, hlive, hghost⟩ | ⟨hs, hnone⟩
  · refine Or.inl ⟨s.flatten, d, ?_, hderives, isTree_flatten hpresents hlive hghost hd⟩
    rw [parseInput, hs]
  · exact Or.inr ⟨by rw [parseInput, hs], hnone⟩

/-! ## The limit -/

theorem admits_of_unlimited {options : ParserOptions} (h : options.maxLength = none)
    (length : Nat) : options.Admits length := fun max hmax => by
  rw [h] at hmax
  cases hmax

/-- The three outcomes of a parse. -/
theorem parse_cases (options : ParserOptions) (text : String) :
    (∃ max, options.maxLength = some max ∧ max < (Text.withoutBlanks text.toList).length ∧
      parse options text = .error (.tooLong (Text.withoutBlanks text.toList).length max)) ∨
    (options.Admits (Text.withoutBlanks text.toList).length ∧
      parse options text = parseInput options text (Text.withoutBlanks text.toList)) := by
  unfold parse
  cases hmax : options.maxLength with
  | none => exact Or.inr ⟨admits_of_unlimited hmax _, rfl⟩
  | some max =>
    by_cases hlong : max < (Text.withoutBlanks text.toList).length
    · exact Or.inl ⟨max, rfl, hlong, if_pos hlong⟩
    · refine Or.inr ⟨fun m h => ?_, if_neg hlong⟩
      rw [hmax, Option.some.injEq] at h
      exact h ▸ Nat.le_of_not_lt hlong

theorem parse_of_admits {options : ParserOptions} {text : String}
    (h : options.Admits (Text.withoutBlanks text.toList).length) :
    parse options text = parseInput options text (Text.withoutBlanks text.toList) := by
  rcases parse_cases options text with ⟨max, hmax, hlong, -⟩ | ⟨-, hparse⟩
  · exact absurd hlong (Nat.not_lt.mpr (h max hmax))
  · exact hparse

/-- What is parsed is the merged tree of a derivation. -/
theorem isTree_of_parse {options : ParserOptions} {text : String} {tree : Store}
    (h : parse options text = .ok tree) :
    ∃ d, Derives (.chain .addition) (Text.withoutBlanks text.toList) d ∧ IsTree tree d.merged := by
  rcases parse_cases options text with ⟨max, -, -, hparse⟩ | ⟨-, hparse⟩
  · rw [hparse] at h
    cases h
  · rw [hparse] at h
    rcases parseInput_spec options text (Text.withoutBlanks text.toList) with
      ⟨tree', d, hok, hd, htree⟩ | ⟨herror, -⟩
    · rw [hok, Except.ok.injEq] at h
      exact ⟨d, hd, h ▸ htree⟩
    · rw [herror] at h
      cases h

/-- **The parser accepts the grammar.** With the blanks taken out, a text is refused for its
length exactly when it is longer than the limit; otherwise it is accepted exactly when it derives
from the grammar. The derivation of an accepted text is unique, and the tree is the derivation
with every run of one operator made into one node. -/
theorem parse_spec (options : ParserOptions) (text : String) :
    let input := Text.withoutBlanks text.toList
    (∀ length max, parse options text = .error (.tooLong length max) ↔
      options.maxLength = some max ∧ max < input.length ∧ length = input.length) ∧
    ((∃ tree, parse options text = .ok tree) ↔
      options.Admits input.length ∧ ∃ d, Derives (.chain .addition) input d) ∧
    (∀ given, parse options text = .error (.invalid given) ↔
      given = text ∧ options.Admits input.length ∧ ¬ ∃ d, Derives (.chain .addition) input d) ∧
    (∀ tree, parse options text = .ok tree →
      ∃ d, Derives (.chain .addition) input d ∧
        (∀ d', Derives (.chain .addition) input d' → d' = d) ∧ IsTree tree d.merged) := by
  intro input
  rcases parse_cases options text with ⟨max, hmax, hlong, hparse⟩ | ⟨hadmits, hparse⟩
  · have refused : ¬ options.Admits input.length := fun h => Nat.not_lt.mpr (h max hmax) hlong
    refine ⟨fun length max' => ?_, ?_, fun given => ?_, fun tree htree => ?_⟩
    · rw [hparse, hmax]
      constructor
      · intro h
        cases h
        exact ⟨rfl, hlong, rfl⟩
      · rintro ⟨h, -, rfl⟩
        cases h
        rfl
    · exact ⟨fun ⟨tree, h⟩ => (by rw [hparse] at h; cases h), fun h => absurd h.1 refused⟩
    · exact ⟨fun h => (by rw [hparse] at h; cases h), fun h => absurd h.2.1 refused⟩
    · rw [hparse] at htree
      cases htree
  · have short : ∀ max, options.maxLength = some max → ¬ max < input.length := fun max h =>
      Nat.not_lt.mpr (hadmits max h)
    rcases parseInput_spec options text input with ⟨tree, d, hok, hd, htree⟩ | ⟨herror, hnone⟩
    · rw [hparse, hok]
      refine ⟨fun length max => ?_, ?_, fun given => ?_, fun tree' h => ?_⟩
      · exact ⟨fun h => (by cases h), fun h => absurd h.2.1 (short max h.1)⟩
      · exact ⟨fun _ => ⟨hadmits, d, hd⟩, fun _ => ⟨tree, rfl⟩⟩
      · exact ⟨fun h => (by cases h), fun h => absurd ⟨d, hd⟩ h.2.2⟩
      · cases h
        exact ⟨d, hd, fun d' hd' => derives_unique hd' hd, htree⟩
    · rw [hparse, herror]
      refine ⟨fun length max => ?_, ?_, fun given => ?_, fun tree h => (by cases h)⟩
      · exact ⟨fun h => (by cases h), fun h => absurd h.2.1 (short max h.1)⟩
      · exact ⟨fun ⟨tree, h⟩ => (by cases h), fun ⟨_, d, hd⟩ => absurd hd (hnone d)⟩
      · constructor
        · intro h
          cases h
          exact ⟨rfl, hadmits, fun ⟨d, hd⟩ => hnone d hd⟩
        · rintro ⟨rfl, -, -⟩
          rfl

end Parser

end ArithTree
