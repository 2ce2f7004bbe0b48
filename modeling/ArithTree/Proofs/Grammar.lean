import ArithTree.Parser
import ArithTree.Proofs.Shape

/-!
# The grammar

The grammar as an inductive relation between a rule, a run of characters and the shape of a
derivation:

* `derives_unique`: a run has at most one derivation by one rule;
* `exists_literal_iff`: the literals are the tokens that the grammar names;
* `Derives.not_blank`: nothing that can be derived has a blank in it.

The grammar is not ambiguous because an operator outside all parentheses of a run can be the top
of a derivation only where it stands last, and a tighter rule leaves none of it outside.
-/

namespace ArithTree.Parser

/-- One letter from `a` to `z`, or digits with a value of at most `2 ^ 63 - 1`. -/
def LiteralToken (token : List Char) : Prop :=
  (∃ c, token = [c] ∧ 'a' ≤ c ∧ c ≤ 'z') ∨
    token ≠ [] ∧ (∀ c ∈ token, c.isDigit = true) ∧ Nat.ofDigitChars 10 token 0 ≤ 0x7fffffffffffffff

/-- Derivations, as the shapes with one compound for each sum, product and pair of parentheses. -/
inductive Derives : Rule → List Char → Shape → Prop
  | binary {c : Chain} {u v : List Char} {l r : Shape} :
      Derives (.chain c) u l → Derives c.tighter v r →
        Derives (.chain c) (u ++ c.symbol :: v) (.node (.compound c.operator) [l, r])
  | tighter {c : Chain} {u : List Char} {t : Shape} : Derives c.tighter u t → Derives (.chain c) u t
  | group {u : List Char} {t : Shape} :
      Derives (.chain .addition) u t →
        Derives .grouping ('(' :: (u ++ [')'])) (.node (.compound .group) [t])
  | literal {l : Literal} : LiteralToken l.text.toList →
      Derives .grouping l.text.toList (.node (.literal l) [])

theorem derives_grouping_iff (w : List Char) (t : Shape) :
    Derives .grouping w t ↔
      (∃ u d, w = '(' :: (u ++ [')']) ∧ Derives (.chain .addition) u d ∧
        t = .node (.compound .group) [d]) ∨
      ∃ l : Literal, LiteralToken l.text.toList ∧ l.text.toList = w ∧
        t = .node (.literal l) [] := by
  constructor
  · intro h
    cases h with
    | group h => exact Or.inl ⟨_, _, rfl, h, rfl⟩
    | literal h => exact Or.inr ⟨_, h, rfl, rfl⟩
  · rintro (⟨u, d, rfl, h, rfl⟩ | ⟨l, h, rfl, rfl⟩)
    · exact .group h
    · exact .literal h

/-! ## Literal tokens -/

theorem digitsUpTo?_eq_some_iff (limit : Nat) (cs : List Char) (n : Nat) :
    Text.Numeral.digitsUpTo? limit cs = some n ↔
      cs ≠ [] ∧ (∀ c ∈ cs, c.isDigit = true) ∧ Nat.ofDigitChars 10 cs 0 = n ∧ n ≤ limit := by
  unfold Text.Numeral.digitsUpTo? Text.Numeral.digits?
  rw [Option.filter_eq_some_iff]
  constructor
  · rintro ⟨hd, hn⟩
    split at hd
    · next h =>
      simp only [Bool.and_eq_true, Bool.not_eq_true', List.isEmpty_eq_false_iff,
        List.all_eq_true] at h
      exact ⟨h.1, h.2, Option.some.inj hd, of_decide_eq_true hn⟩
    · cases hd
  · rintro ⟨hne, hall, hv, hn⟩
    rw [if_pos (by simpa [hne] using hall)]
    exact ⟨congrArg some hv, decide_eq_true hn⟩

/-- The value of a token, as the grammar describes it. -/
theorem ofToken?_isSome_iff (token : List Char) :
    (LiteralValue.ofToken? token).isSome = true ↔ LiteralToken token := by
  have digits : ∀ cs : List Char,
      (Text.Numeral.digitsUpTo? Text.Numeral.maxSigned cs).isSome = true ↔
        cs ≠ [] ∧ (∀ c ∈ cs, c.isDigit = true) ∧ Nat.ofDigitChars 10 cs 0 ≤ 0x7fffffffffffffff := by
    intro cs
    rw [Option.isSome_iff_exists]
    constructor
    · rintro ⟨n, hn⟩
      obtain ⟨hne, hall, hv, hle⟩ := (digitsUpTo?_eq_some_iff _ _ _).mp hn
      exact ⟨hne, hall, hv ▸ hle⟩
    · rintro ⟨hne, hall, hle⟩
      exact ⟨_, (digitsUpTo?_eq_some_iff _ _ _).mpr ⟨hne, hall, rfl, hle⟩⟩
  unfold LiteralValue.ofToken? LiteralToken
  split
  · next c =>
    split
    · next h => exact ⟨fun _ => Or.inl ⟨c, rfl, h⟩, fun _ => rfl⟩
    · next h =>
      rw [Option.isSome_map, digits]
      constructor
      · exact Or.inr
      · rintro (⟨d, hd, hlo, hhi⟩ | hd)
        · obtain rfl : c = d := by simpa using hd
          exact absurd ⟨hlo, hhi⟩ h
        · exact hd
  · next h =>
    rw [Option.isSome_map, digits]
    constructor
    · exact Or.inr
    · rintro (⟨d, hd, -⟩ | hd)
      · exact absurd hd (h d)
      · exact hd

theorem literalToken_text (l : Literal) : LiteralToken l.text.toList := by
  rw [← ofToken?_isSome_iff, l.reads]
  rfl

theorem ofChars?_eq_some_iff (token : List Char) (l : Literal) :
    Literal.ofChars? token = some l ↔ l.text.toList = token := by
  unfold Literal.ofChars?
  constructor
  · intro h
    rw [Literal.text_of_parse? h, String.toList_ofList]
  · intro h
    rw [← h, String.ofList_toList]
    exact Literal.parse?_text l

/-- The tokens of the grammar are the texts of literals. -/
theorem exists_literal_iff (token : List Char) :
    LiteralToken token ↔ ∃ l : Literal, l.text.toList = token := by
  constructor
  · intro h
    obtain ⟨value, hv⟩ := Option.isSome_iff_exists.mp ((ofToken?_isSome_iff token).mpr h)
    exact ⟨⟨String.ofList token, value, by rwa [String.toList_ofList]⟩, String.toList_ofList⟩
  · rintro ⟨l, rfl⟩
    exact literalToken_text l

/-- Where there is no sum in parentheses, the rule for groups derives a literal or nothing. -/
theorem derives_literal_iff {w : List Char}
    (hno : ∀ u d, w = '(' :: (u ++ [')']) → ¬ Derives (.chain .addition) u d) (t : Shape) :
    Derives .grouping w t ↔ ∃ l : Literal, l.text.toList = w ∧ t = .node (.literal l) [] := by
  rw [derives_grouping_iff]
  constructor
  · rintro (⟨u, d, hu, hd, -⟩ | ⟨l, -, hl, ht⟩)
    · exact absurd hd (hno u d hu)
    · exact ⟨l, hl, ht⟩
  · rintro ⟨l, hl, ht⟩
    exact Or.inr ⟨l, literalToken_text l, hl, ht⟩

/-- A token consists of letters and digits. -/
theorem LiteralToken.mem {token : List Char} (h : LiteralToken token) {c : Char} (hc : c ∈ token) :
    ('a' ≤ c ∧ c ≤ 'z') ∨ c.isDigit = true := by
  rcases h with ⟨d, rfl, hd⟩ | ⟨-, hall, -⟩
  · obtain rfl : c = d := by simpa using hc
    exact Or.inl hd
  · exact Or.inr (hall c hc)

/-- Nothing in a token could be taken for a part of a compound. -/
theorem LiteralToken.plain {token : List Char} (h : LiteralToken token) {c : Char}
    (hc : c ∈ token) :
    (c ≠ '(' ∧ c ≠ ')') ∧ ∀ chain : Chain, c ≠ chain.symbol := by
  have hm := h.mem hc
  refine ⟨⟨?_, ?_⟩, fun chain => ?_⟩
  · rintro rfl
    exact absurd hm (by decide)
  · rintro rfl
    exact absurd hm (by decide)
  · rintro rfl
    cases chain <;> exact absurd hm (by decide)

theorem LiteralToken.ne_nil {token : List Char} (h : LiteralToken token) : token ≠ [] := by
  rcases h with ⟨d, rfl, -⟩ | ⟨hne, -⟩
  · exact List.cons_ne_nil d []
  · exact hne

/-! ## Parentheses -/

/-- Opening parentheses less closing ones. -/
def balance : List Char → Int
  | [] => 0
  | c :: cs => (if c = '(' then 1 else if c = ')' then -1 else 0) + balance cs

theorem balance_append (u v : List Char) : balance (u ++ v) = balance u + balance v := by
  induction u with
  | nil => simp [balance]
  | cons c u ih => rw [List.cons_append, balance, balance, ih, Int.add_assoc]

theorem balance_symbol_cons (c : Chain) (cs : List Char) :
    balance (c.symbol :: cs) = balance cs := by
  cases c <;> simp [balance, Chain.symbol]

theorem balance_eq_zero {cs : List Char} (h : ∀ c ∈ cs, c ≠ '(' ∧ c ≠ ')') : balance cs = 0 := by
  induction cs with
  | nil => rfl
  | cons c cs ih =>
    have hc := h c (List.mem_cons_self ..)
    rw [balance, if_neg hc.1, if_neg hc.2, ih fun d hd => h d (List.mem_cons_of_mem _ hd)]
    rfl

/-- Where two splits of one run stand to each other: at one place, or one in the left or in the
right part of the other. -/
theorem append_cons_cases {α : Type} {x y u v : List α} {a b : α} (h : x ++ a :: y = u ++ b :: v) :
    (x = u ∧ a = b ∧ y = v) ∨ (∃ z, u = x ++ a :: z ∧ y = z ++ b :: v) ∨
      ∃ z, x = u ++ b :: z ∧ v = z ++ a :: y := by
  rcases List.append_eq_append_iff.mp h with ⟨z, hu, hy⟩ | ⟨z, hx, hv⟩
  · cases z with
    | nil =>
      rw [List.nil_append, List.cons.injEq] at hy
      exact Or.inl ⟨by simpa using hu.symm, hy⟩
    | cons d z =>
      rw [List.cons_append, List.cons.injEq] at hy
      exact Or.inr (Or.inl ⟨z, by rw [hu, hy.1], hy.2⟩)
  · cases z with
    | nil =>
      rw [List.nil_append, List.cons.injEq] at hv
      exact Or.inl ⟨by simpa using hx, hv.1.symm, hv.2.symm⟩
    | cons d z =>
      rw [List.cons_append, List.cons.injEq] at hv
      exact Or.inr (Or.inr ⟨z, by rw [hx, hv.1], hv.2⟩)

/-- Every parenthesis is closed, and none before it is opened. -/
def Balanced (w : List Char) : Prop := balance w = 0 ∧ ∀ x y, w = x ++ y → 0 ≤ balance x

theorem Derives.balanced {r : Rule} {w : List Char} {t : Shape} (h : Derives r w t) :
    Balanced w := by
  induction h with
  | @binary c u v l r _ _ ihl ihr =>
    refine ⟨?_, fun x y hxy => ?_⟩
    · rw [balance_append, balance_symbol_cons, ihl.1, ihr.1]
      rfl
    · rcases List.append_eq_append_iff.mp hxy with ⟨z, hx, hv⟩ | ⟨z, hu, -⟩
      · cases z with
        | nil =>
          have hzero : balance x = 0 := by rw [hx, List.append_nil, ihl.1]
          exact Int.le_of_eq hzero.symm
        | cons d z =>
          rw [List.cons_append, List.cons.injEq] at hv
          rw [hx, balance_append, ← hv.1, balance_symbol_cons, ihl.1]
          have := ihr.2 z y hv.2
          omega
      · exact ihl.2 x z hu
  | tighter _ ih => exact ih
  | @group u t _ ih =>
    have around : ∀ cs, balance ('(' :: cs) = 1 + balance cs := fun _ => rfl
    refine ⟨?_, fun x y hxy => ?_⟩
    · rw [around, balance_append, ih.1]
      rfl
    · cases x with
      | nil => exact Int.le_refl 0
      | cons d x =>
        rw [List.cons_append, List.cons.injEq] at hxy
        rw [← hxy.1, around]
        rcases List.append_eq_append_iff.mp hxy.2 with ⟨z, hx, hz⟩ | ⟨z, hu, -⟩
        · have hz' : balance z = -1 ∨ balance z = 0 := by
            cases z with
            | nil => exact Or.inr rfl
            | cons e z =>
              rw [List.cons_append, List.cons.injEq, List.nil_eq, List.append_eq_nil_iff] at hz
              rw [← hz.1, hz.2.1]
              exact Or.inl rfl
          rw [hx, balance_append, ih.1]
          omega
        · have := ih.2 x z hu
          omega
  | @literal l h =>
    refine ⟨balance_eq_zero fun c hc => (h.plain hc).1, fun x y hxy => Int.le_of_eq ?_⟩
    exact (balance_eq_zero fun c hc => (h.plain (hxy ▸ List.mem_append_left y hc)).1).symm

/-- `c` stands in `w` outside all parentheses. -/
def Outside (c : Char) (w : List Char) : Prop := ∃ x y, w = x ++ c :: y ∧ balance x = 0

/-- A rule that binds tighter than an operator leaves none of it outside. -/
theorem Derives.not_outside {r : Rule} {w : List Char} {t : Shape} (h : Derives r w t) (c : Chain)
    (hc : r.looseness < c.looseness) : ¬ Outside c.symbol w := by
  induction h with
  | @binary d u v l r hl _ ihl ihr =>
    have hd := d.looseness_tighter
    simp only [Rule.looseness] at hc ihl
    rintro ⟨x, y, hxy, hx⟩
    rcases append_cons_cases hxy.symm with ⟨-, hs, -⟩ | ⟨z, hu, -⟩ | ⟨z, hz, hv⟩
    · have : c = d := by
        cases c <;> cases d <;> first | rfl | exact absurd hs (by decide)
      rw [this] at hc
      omega
    · exact ihl hc ⟨x, z, hu, hx⟩
    · refine ihr (by omega) ⟨z, y, hv, ?_⟩
      rw [hz, balance_append, balance_symbol_cons, hl.balanced.1] at hx
      omega
  | @tighter d _ _ _ ih =>
    have hd := d.looseness_tighter
    exact ih (Nat.lt_trans hd hc)
  | @group u t hu _ =>
    rintro ⟨x, y, hxy, hx⟩
    cases x with
    | nil =>
      rw [List.nil_append, List.cons.injEq] at hxy
      cases c <;> exact absurd hxy.1 (by decide)
    | cons d x =>
      rw [List.cons_append, List.cons.injEq] at hxy
      have around : balance (d :: x) = 1 + balance x := by
        rw [← hxy.1]
        rfl
      rcases append_cons_cases hxy.2.symm with ⟨-, hs, -⟩ | ⟨z, hz, -⟩ | ⟨z, -, hz⟩
      · cases c <;> exact absurd hs (by decide)
      · have := hu.balanced.2 x _ hz
        omega
      · exact absurd hz (by simp)
  | literal h =>
    rintro ⟨x, y, hxy, -⟩
    exact (h.plain (c := c.symbol) (by rw [hxy]; simp)).2 c rfl

/-! ## Derivations are unique -/

theorem Derives.ne_nil {r : Rule} {w : List Char} {t : Shape} (h : Derives r w t) : w ≠ [] := by
  induction h with
  | binary => simp
  | tighter _ ih => exact ih
  | group => simp
  | literal h => exact h.ne_nil

/-- The symbol at the top of a derivation is the last one outside all parentheses, so there is one
place for it. -/
theorem split_unique {c : Chain} {u v u' v' : List Char} {l r l' r' : Shape}
    (hl : Derives (.chain c) u l) (hr : Derives c.tighter v r) (hl' : Derives (.chain c) u' l')
    (hr' : Derives c.tighter v' r') (h : u ++ c.symbol :: v = u' ++ c.symbol :: v') :
    u = u' ∧ v = v' := by
  rcases append_cons_cases h with ⟨hu, -, hv⟩ | ⟨z, hz, hv⟩ | ⟨z, hz, hv⟩
  · exact ⟨hu, hv⟩
  · refine absurd ⟨z, v', hv, ?_⟩ (hr.not_outside c c.looseness_tighter)
    have := hl'.balanced.1
    rw [hz, balance_append, balance_symbol_cons, hl.balanced.1] at this
    omega
  · refine absurd ⟨z, v, hv, ?_⟩ (hr'.not_outside c c.looseness_tighter)
    have := hl.balanced.1
    rw [hz, balance_append, balance_symbol_cons, hl'.balanced.1] at this
    omega

/-- Where a chain splits, the tighter rule does not derive the whole. -/
theorem not_tighter_of_split {c : Chain} {u v : List Char} {l t : Shape}
    (hl : Derives (.chain c) u l) (h : Derives c.tighter (u ++ c.symbol :: v) t) : False :=
  h.not_outside c c.looseness_tighter ⟨u, v, rfl, hl.balanced.1⟩

/-- A run has at most one derivation by one rule. -/
theorem derives_unique {r : Rule} {w : List Char} {t t' : Shape} (h : Derives r w t)
    (h' : Derives r w t') : t = t' := by
  induction h generalizing t' with
  | @binary c u v l r hl hr ihl ihr =>
    generalize hw : u ++ c.symbol :: v = w at h'
    cases h' with
    | binary hl' hr' =>
      obtain ⟨rfl, rfl⟩ := split_unique hl hr hl' hr' hw
      rw [ihl hl', ihr hr']
    | tighter ht => exact (not_tighter_of_split hl (hw ▸ ht)).elim
  | @tighter c w t ht ih =>
    cases h' with
    | binary hl' hr' => exact (not_tighter_of_split hl' ht).elim
    | tighter ht' => exact ih ht'
  | @group u t hu ih =>
    generalize hw : '(' :: (u ++ [')']) = w at h'
    cases h' with
    | group hu' =>
      rw [List.cons.injEq, List.append_left_inj] at hw
      obtain ⟨-, rfl⟩ := hw
      rw [ih hu']
    | literal h' => exact absurd rfl (h'.plain (c := '(') (by rw [← hw]; simp)).1.1
  | @literal l h =>
    generalize hw : l.text.toList = w at h'
    cases h' with
    | group hu' => exact absurd rfl (h.plain (c := '(') (by rw [hw]; simp)).1.1
    | literal _ =>
      have : l = _ := Literal.ext_text (String.toList_inj.mp hw)
      rw [this]

/-- Taking out blanks does nothing to a run that can be derived. -/
theorem Derives.not_blank {r : Rule} {w : List Char} {t : Shape} (h : Derives r w t) :
    ∀ c ∈ w, Text.isBlank c = false := by
  induction h with
  | @binary c u v _ _ _ _ ihl ihr =>
    intro d hd
    rcases List.mem_append.mp hd with hd | hd
    · exact ihl d hd
    · rcases List.mem_cons.mp hd with rfl | hd
      · cases c <;> rfl
      · exact ihr d hd
  | tighter _ ih => exact ih
  | group _ ih =>
    intro d hd
    rcases List.mem_cons.mp hd with rfl | hd
    · rfl
    · rcases List.mem_append.mp hd with hd | hd
      · exact ih d hd
      · rw [List.mem_singleton.mp hd]
        rfl
  | literal h =>
    intro d hd
    rcases h.mem hd with ⟨hlo, hhi⟩ | hdigit
    · exact Text.not_isBlank_of_toNat (Nat.le_trans (by decide) (Char.le_def.mp hlo))
        (Char.le_def.mp hhi)
    · rw [Char.isDigit_iff_toNat] at hdigit
      exact Text.not_isBlank_of_toNat hdigit.1 (Nat.le_trans hdigit.2 (by decide))

end ArithTree.Parser
