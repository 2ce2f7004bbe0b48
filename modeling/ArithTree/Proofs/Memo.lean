import ArithTree.Proofs.Parsing

/-!
# The options do not change the tree

What the search remembers saves work and nothing else: an attempt that is made in the course of a
parse has the same outcome with the memory and without it (`Reached.isSome_attempt`), and so two
parses of one text under limits that admit it agree (`options_agree`). Which attempts are made,
and in which states, is the relation `Reached`.
-/

namespace ArithTree.Parser

namespace Search

section

variable (input : Array Char) (memoize : Bool)

/-- The splits of a span with at most `skipped` characters on the left have been tried in vain,
and this has taken the search from `before` to `s`. -/
inductive Tried (c : Chain) (start stop : Nat) (before : Search) : Nat → Search → Prop
  | none : Tried c start stop before 0 before
  | pass {skipped : Nat} {s : Search} : Tried c start stop before skipped s →
      start + skipped + 1 + 1 < stop → input[start + skipped + 1]? ≠ some c.symbol →
      Tried c start stop before (skipped + 1) s
  | left {skipped : Nat} {s s' : Search} : Tried c start stop before skipped s →
      start + skipped + 1 + 1 < stop → input[start + skipped + 1]? = some c.symbol →
      attempt input memoize (.chain c) start (start + skipped + 1) s = (none, s') →
      Tried c start stop before (skipped + 1) s'
  | right {skipped : Nat} {s s' s'' : Search} {l : NodeId} : Tried c start stop before skipped s →
      start + skipped + 1 + 1 < stop → input[start + skipped + 1]? = some c.symbol →
      attempt input memoize (.chain c) start (start + skipped + 1) s = (some l, s') →
      attempt input memoize c.tighter (start + skipped + 1 + 1) stop s' = (none, s'') →
      Tried c start stop before (skipped + 1) (s''.remove l)

/-- The memory does not answer the attempt. -/
def Unanswered (a : Attempt) (s : Search) : Prop := (memoize && s.failures.contains a) = false

/-- In the course of a parse the attempt is made in the state `s`: it is the whole input that is
asked for a sum, or one side of a split, or the whole span for the tighter rule, or the inside of
parentheses. -/
inductive Reached : Attempt → Search → Prop
  | whole : Reached ⟨.chain .addition, 0, input.size⟩ initial
  | left {c : Chain} {start stop skipped : Nat} {before s : Search} :
      Reached ⟨.chain c, start, stop⟩ before → Unanswered memoize ⟨.chain c, start, stop⟩ before →
      Tried input memoize c start stop before skipped s → start + skipped + 1 + 1 < stop →
      input[start + skipped + 1]? = some c.symbol → Reached ⟨.chain c, start, start + skipped + 1⟩ s
  | right {c : Chain} {start stop skipped : Nat} {before s s' : Search} {l : NodeId} :
      Reached ⟨.chain c, start, stop⟩ before → Unanswered memoize ⟨.chain c, start, stop⟩ before →
      Tried input memoize c start stop before skipped s → start + skipped + 1 + 1 < stop →
      input[start + skipped + 1]? = some c.symbol →
      attempt input memoize (.chain c) start (start + skipped + 1) s = (some l, s') →
      Reached ⟨c.tighter, start + skipped + 1 + 1, stop⟩ s'
  | tighter {c : Chain} {start stop skipped : Nat} {before s : Search} :
      Reached ⟨.chain c, start, stop⟩ before → Unanswered memoize ⟨.chain c, start, stop⟩ before →
      Tried input memoize c start stop before skipped s → ¬ start + skipped + 1 + 1 < stop →
      Reached ⟨c.tighter, start, stop⟩ s
  | inside {start stop : Nat} {s : Search} :
      Reached ⟨.grouping, start, stop⟩ s → Unanswered memoize ⟨.grouping, start, stop⟩ s →
      start + 2 < stop → input[start]? = some '(' → input[stop - 1]? = some ')' →
      Reached ⟨.chain .addition, start + 1, stop - 1⟩ s

end

section

variable {input : Array Char} {memoize : Bool}

theorem Answers.isSome_iff {P : Shape → Prop} {before : Search} {r : Option NodeId × Search}
    (h : Answers input P before r) : r.1.isSome = true ↔ ∃ t, P t := by
  cases h with
  | found _ hP _ _ => exact ⟨fun _ => ⟨_, hP⟩, fun _ => rfl⟩
  | none hP _ _ => exact ⟨fun h => (by cases h), fun ⟨t, ht⟩ => absurd ht (hP t)⟩

/-- The attempt asks for a span of the input. -/
structure Attempt.Within (a : Attempt) (input : Array Char) : Prop where
  ordered : a.start ≤ a.stop
  bounded : a.stop ≤ input.size

theorem attempt_within {a : Attempt} {s : Search} (h : Attempt.Within a input) (hf : Fit input s) :
    Answers input (Derives a.rule (span input a.start a.stop)) s
      (attempt input memoize a.rule a.start a.stop s) :=
  attempt_answers input memoize a.rule a.start a.stop s h.ordered h.bounded hf

/-- An attempt that succeeds puts a tree beside the others. -/
theorem Fit.some {rule : Rule} {start stop : Nat} {s s' : Search} {id : NodeId} (hf : Fit input s)
    (hstart : start ≤ stop) (hstop : stop ≤ input.size)
    (h : attempt input memoize rule start stop s = (.some id, s')) :
    ∃ u, u.id = id ∧ s.store.Grows s'.store [u] ∧ Fit input s' := by
  have hanswer := attempt_answers input memoize rule start stop s hstart hstop hf
  rw [h] at hanswer
  cases hanswer with
  | @found _ u _ _ _ hg hf' => exact ⟨u, rfl, hg, hf'⟩

/-- An attempt that fails leaves no trace. -/
theorem Fit.none {rule : Rule} {start stop : Nat} {s s' : Search} (hf : Fit input s)
    (hstart : start ≤ stop) (hstop : stop ≤ input.size)
    (h : attempt input memoize rule start stop s = (.none, s')) :
    s.store.Grows s'.store [] ∧ Fit input s' := by
  have hanswer := attempt_answers input memoize rule start stop s hstart hstop hf
  rw [h] at hanswer
  cases hanswer with
  | none _ hg hf' => exact ⟨hg, hf'⟩

/-- Trying splits in vain leaves no trace. -/
theorem Tried.traceless {c : Chain} {start stop skipped : Nat} {before s : Search}
    (h : Tried input memoize c start stop before skipped s) (hstop : stop ≤ input.size)
    (hf : Fit input before) : before.store.Grows s.store [] ∧ Fit input s := by
  induction h with
  | none => exact ⟨Store.Grows.refl _, hf⟩
  | pass _ _ _ ih => exact ih
  | left _ hlt _ hleft ih =>
    obtain ⟨hg, hf⟩ := ih
    obtain ⟨hg', hf'⟩ := hf.none (by omega) (by omega) hleft
    exact ⟨hg.trans hg', hf'⟩
  | right _ hlt _ hleft hright ih =>
    obtain ⟨hg, hf⟩ := ih
    obtain ⟨u, rfl, hg', hf'⟩ := hf.some (by omega) (by omega) hleft
    obtain ⟨hg'', hf''⟩ := hf'.none (by omega) hstop hright
    exact ⟨hg.trans (hg'.trans hg'').remove, hf''.remove u.id⟩

/-- **Invariant of the search.** Every attempt that is made asks for a span of the input. The store
holds trees that have been built and nothing else, and the memory hopeless attempts only. -/
theorem Reached.invariant {a : Attempt} {s : Search} (h : Reached input memoize a s) :
    Attempt.Within a input ∧ Fit input s ∧ ∃ us, Store.empty.Grows s.store us := by
  induction h with
  | whole => exact ⟨⟨Nat.zero_le _, Nat.le_refl _⟩, fit_initial input, [], Store.Grows.refl _⟩
  | left _ _ htried hlt _ ih =>
    obtain ⟨⟨_, hstop⟩, hf, _, hus⟩ := ih
    obtain ⟨hg, hf'⟩ := htried.traceless hstop hf
    dsimp only at hstop
    exact ⟨⟨by dsimp only; omega, by dsimp only; omega⟩, hf', _, hus.trans hg⟩
  | right _ _ htried hlt _ hleft ih =>
    obtain ⟨⟨_, hstop⟩, hf, _, hus⟩ := ih
    obtain ⟨hg, hf'⟩ := htried.traceless hstop hf
    dsimp only at hstop
    obtain ⟨u, -, hg', hf''⟩ := hf'.some (by omega) (by omega) hleft
    exact ⟨⟨by dsimp only; omega, hstop⟩, hf'', _, (hus.trans hg).trans hg'⟩
  | tighter _ _ htried _ ih =>
    obtain ⟨⟨hstart, hstop⟩, hf, _, hus⟩ := ih
    obtain ⟨hg, hf'⟩ := htried.traceless hstop hf
    exact ⟨⟨hstart, hstop⟩, hf', _, hus.trans hg⟩
  | inside _ _ hlong _ _ ih =>
    obtain ⟨⟨_, hstop⟩, hrest⟩ := ih
    dsimp only at hstop
    exact ⟨⟨by dsimp only; omega, by dsimp only; omega⟩, hrest⟩

/-- An attempt succeeds, with the memory or without it, exactly when its span can be derived. -/
theorem Reached.isSome_attempt {a : Attempt} {s : Search} (h : Reached input memoize a s)
    (memoize' : Bool) : (attempt input memoize' a.rule a.start a.stop s).1.isSome = true ↔
      ∃ t, Derives a.rule (span input a.start a.stop) t :=
  (attempt_within h.invariant.1 h.invariant.2.1).isSome_iff

end

end Search

/-! ## Two parses of one text -/

/-- The same error, or trees that are equal up to handles, with as many nodes and no ghost. -/
inductive SameOutcome : Except ParseError Store → Except ParseError Store → Prop
  | error (e : ParseError) : SameOutcome (.error e) (.error e)
  | ok {f : NodeId → NodeId} {s t : Store} : s.Renaming f t → s.size = t.size → s.ghost = none →
      t.ghost = none → SameOutcome (.ok s) (.ok t)

theorem IsTree.sameOutcome {s t : Store} {d : Shape} (hs : IsTree s d) (ht : IsTree t d) :
    SameOutcome (.ok s) (.ok t) := by
  obtain ⟨_, hws⟩ := hs.wellFormed
  obtain ⟨_, hwt⟩ := ht.wellFormed
  obtain ⟨f, hf⟩ := Store.renaming_of_shape? hws hwt (hs.shape.trans ht.shape.symm)
  exact .ok hf ((hws.size_eq hs.shape).trans (hwt.size_eq ht.shape).symm) hs.ghost ht.ghost

/-- **Options do not matter.** Under limits that admit a text, two parses of it have the same
outcome, and no attempt that is made on the way fails because of what is remembered. -/
theorem options_agree (a b : ParserOptions) (text : String)
    (ha : a.Admits (Text.withoutBlanks text.toList).length)
    (hb : b.Admits (Text.withoutBlanks text.toList).length) :
    SameOutcome (parse a text) (parse b text) ∧
      ∀ (input : Array Char) call s, Search.Reached input true call s →
        (Search.attempt input true call.rule call.start call.stop s).1.isSome =
          (Search.attempt input false call.rule call.start call.stop s).1.isSome := by
  constructor
  · rw [parse_of_admits ha, parse_of_admits hb]
    rcases parseInput_spec a text (Text.withoutBlanks text.toList) with
      ⟨s, d, hs, hd, htree⟩ | ⟨hs, hnone⟩ <;>
    rcases parseInput_spec b text (Text.withoutBlanks text.toList) with
      ⟨t, d', ht, hd', htree'⟩ | ⟨ht, hnone'⟩
    · rw [hs, ht]
      exact htree.sameOutcome (derives_unique hd' hd ▸ htree')
    · exact absurd hd (hnone' d)
    · exact absurd hd' (hnone d')
    · rw [hs, ht]
      exact .error _
  · intro input call s hreached
    rw [Bool.eq_iff_iff, hreached.isSome_attempt, hreached.isSome_attempt]

/-- A limit that is just met, with the memory, and no limit without it. -/
theorem options_agree_at_limit :
    (ParserOptions.mk true (some 3)).Admits (Text.withoutBlanks "a + b".toList).length ∧
      (ParserOptions.mk false none).Admits (Text.withoutBlanks "a + b".toList).length ∧
      SameOutcome (parse ⟨true, some 3⟩ "a + b") (parse ⟨false, none⟩ "a + b") := by
  have met :
      (ParserOptions.mk true (some 3)).Admits (Text.withoutBlanks "a + b".toList).length := by
    intro max hmax
    cases hmax
    decide +kernel
  have free : (ParserOptions.mk false none).Admits (Text.withoutBlanks "a + b".toList).length := by
    intro max hmax
    cases hmax
  exact ⟨met, free, (options_agree _ _ "a + b" met free).1⟩

end ArithTree.Parser
