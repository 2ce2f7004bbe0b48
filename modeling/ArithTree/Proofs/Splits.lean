import ArithTree.Proofs.Memo

/-!
# One way to split

A sum or a product can be cut at one place at most so that both sides are matched (`split_decides`):
the left side closes all its parentheses, and the right side, which is matched by a tighter rule,
has no further occurrence of the operator outside of parentheses. The place is therefore the last
such occurrence, and the tighter rule does not match the whole. What a parser builds does not depend
on the order in which it tries the places and the tighter rule (`build_eq_some_iff`), and it is the
left-associative tree (`Derives.leftAssociative`).
-/

namespace ArithTree.Parser

section

variable {input : Array Char} {c : Chain} {rule : Rule} {start stop k : Nat} {t : Shape}

/-! ## Matching -/

/-- Whether a rule that is tried with nothing known beforehand matches a span. -/
def accepts (input : Array Char) (rule : Rule) (start stop : Nat) : Bool :=
  (Search.attempt input false rule start stop Search.initial).1.isSome

theorem accepts_iff (hstart : start ≤ stop) (hstop : stop ≤ input.size) :
    accepts input rule start stop = true ↔ ∃ t, Derives rule (span input start stop) t :=
  (Search.attempt_answers input false rule start stop Search.initial hstart hstop
    (Search.fit_initial input)).isSome_iff

/-- A chain rule matches with its operator at `k`. -/
structure SplitsAt (input : Array Char) (c : Chain) (start stop k : Nat) : Prop where
  left_nonempty : start < k
  right_nonempty : k + 1 < stop
  symbol : input[k]? = some c.symbol
  left : accepts input (.chain c) start k = true
  right : accepts input c.tighter (k + 1) stop = true

/-- At `k` is the last occurrence of the symbol in the span that is outside all its parentheses. -/
structure LastOutside (input : Array Char) (symbol : Char) (start stop k : Nat) : Prop where
  start_le : start ≤ k
  lt_stop : k < stop
  found : input[k]? = some symbol
  outside : balance (span input start k) = 0
  last : ∀ later, k < later → later < stop → input[later]? = some symbol →
    balance (span input start later) ≠ 0

theorem LastOutside.unique {symbol : Char} {k' : Nat} (h : LastOutside input symbol start stop k)
    (h' : LastOutside input symbol start stop k') : k = k' := by
  rcases Nat.lt_trichotomy k k' with hlt | heq | hlt
  · exact absurd h'.outside (h.last k' hlt h'.lt_stop h'.found)
  · exact heq
  · exact absurd h.outside (h'.last k hlt h.lt_stop h.found)

theorem SplitsAt.exists_derives (h : SplitsAt input c start stop k) (hstop : stop ≤ input.size) :
    (∃ l, Derives (.chain c) (span input start k) l) ∧
      ∃ r, Derives c.tighter (span input (k + 1) stop) r := by
  have hleft := h.left_nonempty
  have hright := h.right_nonempty
  exact ⟨(accepts_iff (by omega) (by omega)).mp h.left,
    (accepts_iff (by omega) hstop).mp h.right⟩

theorem SplitsAt.span_eq (h : SplitsAt input c start stop k) :
    span input start stop = span input start k ++ c.symbol :: span input (k + 1) stop :=
  span_split (Nat.le_of_lt h.left_nonempty) (Nat.lt_of_succ_lt h.right_nonempty) h.symbol

theorem SplitsAt.accepts_whole (h : SplitsAt input c start stop k) (hstart : start ≤ stop)
    (hstop : stop ≤ input.size) : accepts input (.chain c) start stop = true := by
  obtain ⟨⟨l, hl⟩, r, hr⟩ := h.exists_derives hstop
  rw [accepts_iff hstart hstop, h.span_eq]
  exact ⟨_, .binary hl hr⟩

/-- A later occurrence outside the parentheses would be one outside those of the right side. -/
theorem SplitsAt.lastOutside (h : SplitsAt input c start stop k) (hstop : stop ≤ input.size) :
    LastOutside input c.symbol start stop k := by
  obtain ⟨⟨l, hl⟩, r, hr⟩ := h.exists_derives hstop
  refine ⟨Nat.le_of_lt h.left_nonempty, Nat.lt_of_succ_lt h.right_nonempty, h.symbol,
    hl.balanced.1, fun later hlater hlt hsymbol hzero => ?_⟩
  refine hr.not_outside c c.looseness_tighter ⟨span input (k + 1) later,
    span input (later + 1) stop, span_split (by omega) hlt hsymbol, ?_⟩
  rwa [span_split (Nat.le_of_lt h.left_nonempty) hlater h.symbol, balance_append,
    balance_symbol_cons, hl.balanced.1, Int.zero_add] at hzero

theorem SplitsAt.tighter_fails (h : SplitsAt input c start stop k) (hstart : start ≤ stop)
    (hstop : stop ≤ input.size) : accepts input c.tighter start stop = false := by
  obtain ⟨⟨l, hl⟩, -⟩ := h.exists_derives hstop
  rw [Bool.eq_false_iff]
  intro hwhole
  obtain ⟨t, ht⟩ := (accepts_iff hstart hstop).mp hwhole
  rw [h.span_eq] at ht
  exact not_tighter_of_split hl ht

/-! ## Left association -/

/-- The operands in `rest` are joined one after the other, each with all before it on its left. -/
def joined (c : Chain) (first : Shape) (rest : List Shape) : Shape :=
  rest.foldl (fun left right => .node (.compound c.operator) [left, right]) first

/-- Operands, each with its text, stand in `w` with the symbol of the chain between them, are
matched by the tighter rule, and are joined from the left. -/
def LeftAssociative (c : Chain) (w : List Char) (t : Shape) : Prop :=
  ∃ (first : List Char × Shape) (rest : List (List Char × Shape)),
    w = first.1 ++ rest.flatMap (fun operand => c.symbol :: operand.1) ∧
    (∀ operand ∈ first :: rest, Derives c.tighter operand.1 operand.2 ∧
      ¬ Outside c.symbol operand.1) ∧
    t = joined c first.2 (rest.map Prod.snd)

theorem Derives.leftAssociative : ∀ {w : List Char} {t : Shape}, Derives (.chain c) w t →
    LeftAssociative c w t
  | _, _, .tighter (u := u) (t := t) h => by
    refine ⟨(u, t), [], by simp, fun operand hmem => ?_, rfl⟩
    rw [List.mem_singleton.mp hmem]
    exact ⟨h, h.not_outside c c.looseness_tighter⟩
  | _, _, .binary (u := u) (v := v) (r := r) hl hr => by
    obtain ⟨first, rest, hw, hall, ht⟩ := hl.leftAssociative
    refine ⟨first, rest ++ [(v, r)], by simp [hw], fun operand hmem => ?_, ?_⟩
    · rw [← List.cons_append, List.mem_append, List.mem_singleton] at hmem
      rcases hmem with hmem | rfl
      · exact hall operand hmem
      · exact ⟨hr, hr.not_outside c c.looseness_tighter⟩
    · rw [joined, List.map_append, List.foldl_append, ht]
      rfl

/-! ## Other orders -/

/-- What a chain rule may try on a span: a split, or the tighter rule on all of it. -/
inductive Choice where
  | split (position : Nat)
  | whole

/-- An order in which a chain rule tries its choices, leaving out none that can succeed. -/
structure Plan where
  choices : Chain → Nat → Nat → List Choice
  whole_mem : ∀ c start stop, .whole ∈ choices c start stop
  split_mem : ∀ c start stop k, start < k → k + 1 < stop → .split k ∈ choices c start stop

namespace Plan

/-- The positions that leave something on both sides, from left to right. -/
def interior (start stop : Nat) : List Nat := List.range' (start + 1) (stop - start - 2)

theorem mem_interior (hstart : start < k) (hstop : k + 1 < stop) : k ∈ interior start stop := by
  rw [interior, List.mem_range'_1]
  omega

/-- The first split from the left, and the tighter rule if there is none. -/
def leftToRight : Plan where
  choices _ start stop := (interior start stop).map .split ++ [.whole]
  whole_mem _ _ _ := by simp
  split_mem _ _ _ _ hstart hstop := by simp [mem_interior hstart hstop]

/-- The first split from the right, and the tighter rule if there is none. -/
def rightToLeft : Plan where
  choices _ start stop := (interior start stop).reverse.map .split ++ [.whole]
  whole_mem _ _ _ := by simp
  split_mem _ _ _ _ hstart hstop := by simp [mem_interior hstart hstop]

/-- The tighter rule, and the first split from the left if it fails. -/
def tighterFirst : Plan where
  choices _ start stop := .whole :: (interior start stop).map .split
  whole_mem _ _ _ := by simp
  split_mem _ _ _ _ hstart hstop := by simp [mem_interior hstart hstop]

end Plan

/-- The shape of a span that is one literal token. -/
def literalShape? (input : Array Char) (start stop : Nat) : Option Shape :=
  (Literal.ofChars? (span input start stop)).map fun l => .node (.literal l) []

mutual

/-- The shape that a parser builds for a rule on a span when it follows a plan, without a memory. -/
def build (plan : Plan) (input : Array Char) (rule : Rule) (start stop : Nat) : Option Shape :=
  match rule with
  | .chain c =>
    (plan.choices c start stop).findSome? fun choice => choose plan input c start stop choice
  | .grouping =>
    if start + 2 < stop ∧ input[start]? = some '(' ∧ input[stop - 1]? = some ')' then
      match build plan input (.chain .addition) (start + 1) (stop - 1) with
      | some inner => some (.node (.compound .group) [inner])
      | none => literalShape? input start stop
    else literalShape? input start stop
termination_by (stop - start, 2 * rule.looseness + 1)
decreasing_by
  · apply Prod.Lex.right
    simp only [Rule.looseness]
    omega
  · apply Prod.Lex.left
    omega

/-- The shape for a chain rule on a span when it makes this choice. -/
def choose (plan : Plan) (input : Array Char) (c : Chain) (start stop : Nat) :
    Choice → Option Shape
  | .whole => build plan input c.tighter start stop
  | .split k =>
    if start < k ∧ k + 1 < stop ∧ input[k]? = some c.symbol then
      (build plan input (.chain c) start k).bind fun left =>
        (build plan input c.tighter (k + 1) stop).map fun right =>
          .node (.compound c.operator) [left, right]
    else none
termination_by (stop - start, 2 * c.looseness)
decreasing_by
  · have := c.looseness_tighter
    apply Prod.Lex.right
    omega
  · apply Prod.Lex.left
    omega
  · apply Prod.Lex.left
    omega

end

/-- A choice succeeds with the shape of a derivation. -/
def Choice.Yields (input : Array Char) (c : Chain) (start stop : Nat) (t : Shape) : Choice → Prop
  | .whole => Derives c.tighter (span input start stop) t
  | .split k => (start < k ∧ k + 1 < stop ∧ input[k]? = some c.symbol) ∧
    ∃ l r, Derives (.chain c) (span input start k) l ∧
      Derives c.tighter (span input (k + 1) stop) r ∧ t = .node (.compound c.operator) [l, r]

theorem Choice.Yields.derives {choice : Choice} (h : choice.Yields input c start stop t) :
    Derives (.chain c) (span input start stop) t := by
  cases choice with
  | whole => exact .tighter h
  | split k =>
    obtain ⟨⟨hleft, hright, hsymbol⟩, l, r, hl, hr, rfl⟩ := h
    rw [span_split (Nat.le_of_lt hleft) (Nat.lt_of_succ_lt hright) hsymbol]
    exact .binary hl hr

/-- A plan has a choice for every derivation. -/
theorem Plan.exists_yields (plan : Plan) (hstart : start ≤ stop) (hstop : stop ≤ input.size)
    (h : Derives (.chain c) (span input start stop) t) :
    ∃ choice ∈ plan.choices c start stop, choice.Yields input c start stop t := by
  generalize hw : span input start stop = w at h
  cases h with
  | tighter h =>
    refine ⟨.whole, plan.whole_mem c start stop, ?_⟩
    rw [← hw] at h
    exact h
  | @binary _ u v l r hl hr =>
    obtain ⟨hlt, hsymbol, hu, hv⟩ := (span_eq_append_iff hstart hstop u v c.symbol).mp hw
    have hleft := List.length_pos_of_ne_nil hl.ne_nil
    have hright := List.length_pos_of_ne_nil hr.ne_nil
    rw [hv, length_span hstop] at hright
    rw [hu] at hl
    rw [hv] at hr
    exact ⟨.split (start + u.length), plan.split_mem _ _ _ _ (by omega) (by omega),
      ⟨by omega, by omega, hsymbol⟩, l, r, hl, hr, rfl⟩

theorem choose_eq_some_iff (plan : Plan) {choice : Choice}
    (hwhole : ∀ t, build plan input c.tighter start stop = some t ↔
      Derives c.tighter (span input start stop) t)
    (hleft : ∀ k, start < k → k + 1 < stop → ∀ t, build plan input (.chain c) start k = some t ↔
      Derives (.chain c) (span input start k) t)
    (hright : ∀ k, start < k → k + 1 < stop → ∀ t,
      build plan input c.tighter (k + 1) stop = some t ↔
        Derives c.tighter (span input (k + 1) stop) t) :
    choose plan input c start stop choice = some t ↔ choice.Yields input c start stop t := by
  cases choice with
  | whole =>
    rw [choose]
    exact hwhole t
  | split k =>
    rw [choose, Choice.Yields]
    split
    · next hinside =>
      simp only [Option.bind_eq_some_iff, Option.map_eq_some_iff, hleft k hinside.1 hinside.2.1,
        hright k hinside.1 hinside.2.1]
      constructor
      · rintro ⟨l, hl, r, hr, rfl⟩
        exact ⟨hinside, l, r, hl, hr, rfl⟩
      · rintro ⟨-, l, r, hl, hr, rfl⟩
        exact ⟨l, hl, r, hr, rfl⟩
    · next hinside => simp [hinside]

/-- Choices that succeed give the same shape, so the first of them is as good as any other. -/
theorem findSome?_choose_eq_some_iff (plan : Plan) (hstart : start ≤ stop)
    (hstop : stop ≤ input.size) (hchoose : ∀ choice t,
      choose plan input c start stop choice = some t ↔ choice.Yields input c start stop t) :
    (plan.choices c start stop).findSome? (choose plan input c start stop) = some t ↔
      Derives (.chain c) (span input start stop) t := by
  have sound : ∀ t', (plan.choices c start stop).findSome? (choose plan input c start stop) =
      some t' → Derives (.chain c) (span input start stop) t' := by
    intro t' hfirst
    obtain ⟨choice, -, hyields⟩ := List.exists_of_findSome?_eq_some hfirst
    exact ((hchoose choice t').mp hyields).derives
  refine ⟨sound t, fun h => ?_⟩
  obtain ⟨choice, hmem, hyields⟩ := plan.exists_yields hstart hstop h
  have hsome : ((plan.choices c start stop).findSome? (choose plan input c start stop)).isSome := by
    rw [List.findSome?_isSome_iff]
    exact ⟨choice, hmem, by rw [(hchoose choice t).mpr hyields]; rfl⟩
  obtain ⟨t', hfirst⟩ := Option.isSome_iff_exists.mp hsome
  rw [hfirst, derives_unique (sound t' hfirst) h]

theorem literalShape?_eq_some_iff (hno : ∀ u d, span input start stop = '(' :: (u ++ [')']) →
    ¬ Derives (.chain .addition) u d) :
    literalShape? input start stop = some t ↔ Derives .grouping (span input start stop) t := by
  rw [derives_literal_iff hno, literalShape?, Option.map_eq_some_iff]
  simp only [ofChars?_eq_some_iff, eq_comm (a := t)]

/-- **Plans agree.** Whatever the order, the derivation is found if there is one. -/
theorem build_eq_some_iff (plan : Plan) (input : Array Char) (rule : Rule) (start stop : Nat)
    (hstart : start ≤ stop) (hstop : stop ≤ input.size) (t : Shape) :
    build plan input rule start stop = some t ↔ Derives rule (span input start stop) t := by
  cases rule with
  | chain c =>
    have hlooser := c.looseness_tighter
    rw [build]
    refine findSome?_choose_eq_some_iff plan hstart hstop fun choice t' => ?_
    exact choose_eq_some_iff plan
      (fun t' => build_eq_some_iff plan input c.tighter start stop hstart hstop t')
      (fun k hk hk' t' => build_eq_some_iff plan input (.chain c) start k (by omega) (by omega) t')
      (fun k hk hk' t' => build_eq_some_iff plan input c.tighter (k + 1) stop (by omega) hstop t')
  | grouping =>
    rw [build]
    split
    · next hparens =>
      obtain ⟨hlong, hopen, hclose⟩ := hparens
      have hinner := build_eq_some_iff plan input (.chain .addition) (start + 1) (stop - 1)
        (by omega) (by omega)
      split
      · next d hd =>
        have hspan := (span_eq_parens_iff hstart hstop _).mpr ⟨by omega, hopen, hclose, rfl⟩
        have hgroup : Derives .grouping (span input start stop) (.node (.compound .group) [d]) :=
          hspan ▸ .group ((hinner d).mp hd)
        exact ⟨fun h => Option.some.inj h ▸ hgroup,
          fun h => congrArg some (derives_unique hgroup h)⟩
      · next hnone =>
        refine literalShape?_eq_some_iff fun u d hu hd => ?_
        obtain ⟨-, rfl⟩ := Search.inside_of_derives hstart hstop hu hd
        exact absurd ((hinner d).mpr hd) (by simp [hnone])
    · next hparens =>
      exact literalShape?_eq_some_iff fun u d hu hd =>
        hparens (Search.inside_of_derives hstart hstop hu hd).1
termination_by (stop - start, rule.looseness)
decreasing_by
  · apply Prod.Lex.right
    exact hlooser
  · apply Prod.Lex.left
    omega
  · apply Prod.Lex.left
    omega
  · apply Prod.Lex.left
    omega

/-! ## The search -/

namespace Search

open Unfolding hiding id

/-- The shape of the tree that an attempt has built. -/
def builtShape? (result : Option NodeId × Search) : Option Shape :=
  result.1.bind fun id => (result.2.store.unfold id).shape?

theorem Answers.builtShape?_eq_some_iff {P : Shape → Prop} {before : Search}
    {result : Option NodeId × Search} (h : Answers input P before result)
    (hunique : ∀ t t', P t → P t' → t = t') : builtShape? result = some t ↔ P t := by
  cases h with
  | @found after u t' ht hP hg _ =>
    have hunfold : after.store.unfold u.id = u :=
      Store.unfold_of_holds hg.holds.1 (by simpa [idsAll] using hg.nodup)
    have hbuilt : builtShape? (some u.id, after) = some t' := by
      rw [builtShape?, Option.bind_some, hunfold, ht]
    rw [hbuilt]
    exact ⟨fun h => Option.some.inj h ▸ hP, fun h => congrArg some (hunique t' t hP h)⟩
  | none hno _ _ => exact ⟨fun h => (by cases h), fun h => absurd h (hno t)⟩

/-- The search builds what any plan builds. -/
theorem builtShape?_attempt {memoize : Bool} {before : Search} (hstart : start ≤ stop)
    (hstop : stop ≤ input.size) (hf : Fit input before) (plan : Plan) :
    builtShape? (attempt input memoize rule start stop before) =
      build plan input rule start stop := by
  refine Option.ext fun t => ?_
  rw [build_eq_some_iff plan input rule start stop hstart hstop]
  exact (attempt_answers input memoize rule start stop before hstart hstop
    hf).builtShape?_eq_some_iff
    fun _ _ => derives_unique

end Search

end

/-- **The split is unique.** On any span of any input, a sum or a product has at most one position
of its symbol with both sides matched. It is the last position where the symbol stands outside all
parentheses of the span, and the tighter rule does not match the whole. In the search, at first or
in the course of a parse and with a memory or without, the rule therefore matches the same spans,
and it builds the same tree as any parser that tries the splits and the tighter rule in whatever
order. This is the left-associative tree. -/
theorem split_decides (input : Array Char) (c : Chain) (start stop : Nat) (hstart : start ≤ stop)
    (hstop : stop ≤ input.size) :
    (∀ k k', SplitsAt input c start stop k → SplitsAt input c start stop k' → k = k') ∧
    (∀ k, SplitsAt input c start stop k →
      LastOutside input c.symbol start stop k ∧ accepts input c.tighter start stop = false) ∧
    ∀ (memoize : Bool) (before : Search),
      before = Search.initial ∨ Search.Reached input memoize ⟨.chain c, start, stop⟩ before →
        let result := Search.attempt input memoize (.chain c) start stop before
        result.1.isSome = accepts input (.chain c) start stop ∧
        (Search.builtShape? result).isSome = result.1.isSome ∧
        (∀ plan : Plan, build plan input (.chain c) start stop = Search.builtShape? result) ∧
        ∀ t, Search.builtShape? result = some t → LeftAssociative c (span input start stop) t := by
  refine ⟨fun k k' h h' => (h.lastOutside hstop).unique (h'.lastOutside hstop),
    fun k h => ⟨h.lastOutside hstop, h.tighter_fails hstart hstop⟩,
    fun memoize before hbefore => ?_⟩
  have hf : Search.Fit input before := by
    rcases hbefore with rfl | hreached
    · exact Search.fit_initial input
    · exact hreached.invariant.2.1
  have hanswers := Search.attempt_answers input memoize (.chain c) start stop before hstart hstop hf
  have hbuilt t := hanswers.builtShape?_eq_some_iff (t := t) fun _ _ => derives_unique
  refine ⟨?_, ?_, fun plan => (Search.builtShape?_attempt hstart hstop hf plan).symm,
    fun t ht => ((hbuilt t).mp ht).leftAssociative⟩
  · rw [Bool.eq_iff_iff, hanswers.isSome_iff, accepts_iff hstart hstop]
  · rw [Bool.eq_iff_iff, hanswers.isSome_iff, Option.isSome_iff_exists]
    exact exists_congr hbuilt

/-- What the tightest rule derives is derived by all. -/
theorem Derives.of_grouping {w : List Char} {t : Shape} (h : Derives .grouping w t) (rule : Rule) :
    Derives rule w t := by
  match rule with
  | .grouping => exact h
  | .chain .multiplication => exact .tighter h
  | .chain .addition => exact .tighter (c := .addition) (.tighter (c := .multiplication) h)

theorem accepts_letter {input : Array Char} {k : Nat} {letter : Char} (rule : Rule)
    (hk : k + 1 ≤ input.size) (hspan : span input k (k + 1) = [letter])
    (hletter : 'a' ≤ letter ∧ letter ≤ 'z') : accepts input rule k (k + 1) = true := by
  obtain ⟨l, hl⟩ := (exists_literal_iff [letter]).mp (Or.inl ⟨letter, rfl, hletter⟩)
  rw [accepts_iff (Nat.le_succ k) hk, hspan, ← hl]
  exact ⟨_, (Derives.literal (literalToken_text l)).of_grouping rule⟩

/-- The sum of three names splits before the last, from whichever side it is read. -/
theorem split_decides_threeNames :
    let input := "a+b+c".toList.toArray
    0 ≤ 5 ∧ 5 ≤ input.size ∧ SplitsAt input .addition 0 5 3 ∧ LastOutside input '+' 0 5 3 ∧
      build .rightToLeft input (.chain .addition) 0 5 =
        build .leftToRight input (.chain .addition) 0 5 ∧
      build .tighterFirst input (.chain .addition) 0 5 =
        build .leftToRight input (.chain .addition) 0 5 ∧
      ∃ t, build .leftToRight input (.chain .addition) 0 5 = some t ∧
        LeftAssociative .addition input.toList t := by
  intro input
  have hsize : 5 ≤ input.size := by decide
  have ha : accepts input (.chain .addition) 0 1 = true :=
    accepts_letter _ (by decide) rfl (by decide)
  have hb : accepts input (.chain .multiplication) 2 3 = true :=
    accepts_letter _ (by decide) rfl (by decide)
  have hc : accepts input (.chain .multiplication) 4 5 = true :=
    accepts_letter _ (by decide) rfl (by decide)
  have hpair : SplitsAt input .addition 0 3 1 := ⟨by decide, by decide, by decide, ha, hb⟩
  have hsplit : SplitsAt input .addition 0 5 3 :=
    ⟨by decide, by decide, by decide, hpair.accepts_whole (by omega) (by omega), hc⟩
  obtain ⟨-, hlast, hsearch⟩ := split_decides input .addition 0 5 (Nat.zero_le 5) hsize
  obtain ⟨hmatched, hsome, hplans, hleft⟩ := hsearch true .initial (Or.inl rfl)
  rw [hmatched, hsplit.accepts_whole (Nat.zero_le 5) hsize] at hsome
  obtain ⟨t, ht⟩ := Option.isSome_iff_exists.mp hsome
  exact ⟨Nat.zero_le 5, hsize, hsplit, (hlast 3 hsplit).1, (hplans _).trans (hplans _).symm,
    (hplans _).trans (hplans _).symm, t, (hplans _).trans ht, hleft t ht⟩

end ArithTree.Parser
