import ArithTree.Proofs.Grammar
import Mathlib.Data.List.Infix

/-!
# Doubled parentheses

A pair of parentheses is doubled when it directly encloses another pair, and `undoubled` is a run
without its doubled pairs. A balanced part of a run pairs its parentheses within itself
(`matched_append_iff`), so whether a pair in it is doubled does not depend on what stands around the
part (`dropped_append_iff`). This is how a run can be undoubled along its derivation
(`undoubled_symbol`, `undoubled_group`).
-/

namespace ArithTree.Parser

variable {w u v : List Char} {i j k : Nat}

theorem balanced_iff_inits (w : List Char) :
    Balanced w ↔ balance w = 0 ∧ ∀ x ∈ w.inits, 0 ≤ balance x := by
  refine and_congr_right fun _ => ⟨fun h x hx => ?_, fun h x y hxy => ?_⟩
  · obtain ⟨y, hy⟩ := (List.mem_inits x w).mp hx
    exact h x y hy.symm
  · exact h x ((List.mem_inits x w).mpr ⟨y, hxy.symm⟩)

instance (w : List Char) : Decidable (Balanced w) := decidable_of_iff' _ (balanced_iff_inits w)

/-- The parentheses at `i` and `j` are a pair: what stands between them is balanced. -/
def Matched (w : List Char) (i j : Nat) : Prop :=
  i < j ∧ w[i]? = some '(' ∧ w[j]? = some ')' ∧ Balanced ((w.take j).drop (i + 1))

instance (w : List Char) (i j : Nat) : Decidable (Matched w i j) :=
  inferInstanceAs (Decidable (_ ∧ _ ∧ _ ∧ _))

/-- The pair at `i` and `j` directly encloses another pair. -/
def Doubled (w : List Char) (i j : Nat) : Prop := Matched w i j ∧ Matched w (i + 1) (j - 1)

instance (w : List Char) (i j : Nat) : Decidable (Doubled w i j) :=
  inferInstanceAs (Decidable (_ ∧ _))

/-- A parenthesis of a doubled pair stands at `k`. -/
def Dropped (w : List Char) (k : Nat) : Prop :=
  ∃ i < w.length, Doubled w k i ∨ Doubled w i k

instance (w : List Char) (k : Nat) : Decidable (Dropped w k) :=
  inferInstanceAs (Decidable (∃ i < w.length, _))

/-- What is left of `u`, which starts at `n` in `w`, without the doubled pairs of `w`. -/
def kept (w : List Char) (n : Nat) (u : List Char) : List Char :=
  ((u.zipIdx n).filter fun entry => ¬ Dropped w entry.2).map Prod.fst

/-- The run without its doubled pairs of parentheses. -/
def undoubled (w : List Char) : List Char := kept w 0 w

/-! ## Pairs -/

theorem exists_split {c : Char} (h : w[i]? = some c) : ∃ x y, w = x ++ c :: y ∧ x.length = i := by
  obtain ⟨hi, rfl⟩ := List.getElem?_eq_some_iff.mp h
  exact ⟨w.take i, w.drop (i + 1), by simp, List.length_take_of_le (Nat.le_of_lt hi)⟩

/-- What stands between the parentheses of a split. -/
theorem inside_split (x m y : List Char) :
    (x ++ '(' :: (m ++ ')' :: y))[x.length + 1 + m.length]? = some ')' ∧
      ((x ++ '(' :: (m ++ ')' :: y)).take (x.length + 1 + m.length)).drop (x.length + 1) = m := by
  have hlen : (x ++ '(' :: m).length = x.length + 1 + m.length := by
    rw [List.length_append, List.length_cons]
    omega
  have hopen : (x ++ ['(']).length = x.length + 1 := by simp
  have hsplit : x ++ '(' :: (m ++ ')' :: y) = (x ++ '(' :: m) ++ ')' :: y := by simp
  rw [hsplit, ← hlen, List.getElem?_append_right (Nat.le_refl _), Nat.sub_self,
    List.take_left' rfl, List.append_cons x '(' m, ← hopen, List.drop_left' rfl]
  exact ⟨rfl, rfl⟩

theorem matched_iff : Matched w i j ↔ ∃ x m y, w = x ++ '(' :: (m ++ ')' :: y) ∧ x.length = i ∧
    i + 1 + m.length = j ∧ Balanced m := by
  constructor
  · rintro ⟨hij, hi, hj, hm⟩
    obtain ⟨x, z, rfl, rfl⟩ := exists_split hi
    obtain ⟨m, y, rfl, hlen⟩ : ∃ m y, z = m ++ ')' :: y ∧ m.length = j - (x.length + 1) := by
      refine exists_split ?_
      rw [← hj, List.append_cons, List.getElem?_append_right] <;> simp
      omega
    have hj' : x.length + 1 + m.length = j := by omega
    rw [← hj', (inside_split x m y).2] at hm
    exact ⟨x, m, y, rfl, rfl, hj', hm⟩
  · rintro ⟨x, m, y, rfl, rfl, rfl, hm⟩
    obtain ⟨hclose, hinside⟩ := inside_split x m y
    exact ⟨by omega, by simp, hclose, by rwa [hinside]⟩

theorem Matched.lt_length (h : Matched w i j) : j < w.length :=
  (List.getElem?_eq_some_iff.mp h.2.2.1).1

theorem balance_open (x y : List Char) : balance (x ++ '(' :: y) = balance x + 1 + balance y := by
  rw [balance_append, balance, if_pos rfl, Int.add_assoc]

theorem balance_close (x y : List Char) :
    balance (x ++ ')' :: y) = balance x - 1 + balance y := by
  rw [balance_append, balance, if_neg (by decide), if_pos rfl]
  omega

theorem Balanced.not_close {m z : List Char} (hm : Balanced m) (h : Balanced (m ++ ')' :: z)) :
    False := by
  have := h.2 (m ++ [')']) z (by simp)
  rw [balance_close, hm.1] at this
  exact absurd this (by decide)

theorem Balanced.not_open {m z : List Char} (hm : Balanced m) (h : Balanced (z ++ '(' :: m)) :
    False := by
  have hz := h.2 z ('(' :: m) rfl
  have := h.1
  rw [balance_open, hm.1] at this
  omega

/-- No parenthesis has two partners. -/
theorem Matched.unique_right (h : Matched w i j) (h' : Matched w i k) : j = k := by
  obtain ⟨x, m, y, rfl, rfl, rfl, hm⟩ := matched_iff.mp h
  obtain ⟨x', m', y', hw, hx, rfl, hm'⟩ := matched_iff.mp h'
  obtain ⟨rfl, hrest⟩ := List.append_inj hw hx.symm
  rcases append_cons_cases (List.cons.inj hrest).2 with ⟨rfl, -, -⟩ | ⟨z, rfl, -⟩ | ⟨z, rfl, -⟩
  · rfl
  · exact (hm.not_close hm').elim
  · exact (hm'.not_close hm).elim

theorem Matched.unique_left (h : Matched w i j) (h' : Matched w k j) : i = k := by
  obtain ⟨x, m, y, rfl, rfl, rfl, hm⟩ := matched_iff.mp h
  obtain ⟨x', m', y', hw, rfl, hj, hm'⟩ := matched_iff.mp h'
  have hw' : (x ++ '(' :: m) ++ ')' :: y = (x' ++ '(' :: m') ++ ')' :: y' := by simpa using hw
  obtain ⟨hrest, -⟩ := List.append_inj hw' (by simp; omega)
  rcases append_cons_cases hrest with ⟨rfl, -, -⟩ | ⟨z, -, rfl⟩ | ⟨z, -, rfl⟩
  · rfl
  · exact (hm'.not_open hm).elim
  · exact (hm.not_open hm').elim

/-! ## Balanced parts -/

theorem Matched.append (h : Matched u i j) (pre post : List Char) :
    Matched (pre ++ u ++ post) (pre.length + i) (pre.length + j) := by
  obtain ⟨x, m, y, rfl, rfl, rfl, hm⟩ := matched_iff.mp h
  exact matched_iff.mpr ⟨pre ++ x, m, y ++ post, by simp, by simp, by omega, hm⟩

/-- What is opened in a balanced part is closed in it. -/
theorem Balanced.exists_close (hu : Balanced u) (hi : i < u.length) (pre post : List Char)
    (h : Matched (pre ++ u ++ post) (pre.length + i) j) :
    ∃ k, j = pre.length + k ∧ Matched u i k := by
  obtain ⟨x, m, y, hw, hx, rfl, hm⟩ := matched_iff.mp h
  obtain ⟨p, q, hpq, rfl⟩ := exists_split (List.getElem?_eq_getElem hi)
  have hw' : (pre ++ p) ++ u[p.length] :: (q ++ post) = x ++ '(' :: (m ++ ')' :: y) := by
    rw [← hw]
    conv_rhs => rw [hpq]
    simp
  obtain ⟨rfl, hrest⟩ := List.append_inj hw' (by simp [hx])
  obtain ⟨hopen, hrest⟩ := List.cons.inj hrest
  rw [hopen] at hpq
  -- If the part ended before the partner, more would be opened in it than is closed.
  have hinside : ∀ z, m ≠ q ++ z := by
    rintro z rfl
    have hp := hu.2 p _ hpq
    have hq := hm.2 q z rfl
    have := hu.1
    rw [hpq, balance_open] at this
    omega
  obtain ⟨z, rfl⟩ : ∃ z, q = m ++ ')' :: z := by
    rcases List.append_eq_append_iff.mp hrest with ⟨z, hz, -⟩ | ⟨z, hz, hrest⟩
    · exact absurd hz (hinside z)
    · cases z with
      | nil => exact absurd (by simpa using hz.symm) (hinside [])
      | cons c z => exact ⟨z, by rw [hz, (List.cons.inj hrest).1]⟩
  exact ⟨p.length + 1 + m.length, by omega, matched_iff.mpr ⟨p, m, z, hpq, rfl, rfl, hm⟩⟩

/-- What is closed in a balanced part is opened in it. -/
theorem Balanced.exists_open (hu : Balanced u) (hj : j < u.length) (pre post : List Char)
    (h : Matched (pre ++ u ++ post) i (pre.length + j)) :
    ∃ k, i = pre.length + k ∧ Matched u k j := by
  obtain ⟨x, m, y, hw, rfl, hlen, hm⟩ := matched_iff.mp h
  obtain ⟨p, q, hpq, rfl⟩ := exists_split (List.getElem?_eq_getElem hj)
  have hw' : (pre ++ p) ++ u[p.length] :: (q ++ post) = (x ++ '(' :: m) ++ ')' :: y := by
    rw [List.append_assoc x, List.cons_append, ← hw]
    conv_rhs => rw [hpq]
    simp
  obtain ⟨hrest, hclose⟩ := List.append_inj hw' (by simp; omega)
  rw [(List.cons.inj hclose).1] at hpq
  -- If the part began after the partner, more would be closed in it than is opened.
  have hinside : ∀ z, m ≠ z ++ p := by
    rintro z rfl
    have hz := hm.2 z p rfl
    have hp := hu.2 (p ++ [')']) q (by simp [hpq])
    have := hm.1
    rw [balance_append] at this
    rw [balance_close, balance] at hp
    omega
  obtain ⟨z, rfl, rfl⟩ : ∃ z, x = pre ++ z ∧ p = z ++ '(' :: m := by
    rcases List.append_eq_append_iff.mp hrest with h | ⟨z, rfl, hz⟩
    · exact h
    · cases z with
      | nil => exact ⟨[], by simp, by simpa using hz.symm⟩
      | cons c z => exact absurd (List.cons.inj hz).2 (hinside z)
  refine ⟨z.length, by simp, matched_iff.mpr ⟨z, m, q, by simpa using hpq, rfl, ?_, hm⟩⟩
  simp
  omega

theorem matched_append_iff (hu : Balanced u) (hi : i < u.length) (pre post : List Char) :
    Matched (pre ++ u ++ post) (pre.length + i) (pre.length + j) ↔ Matched u i j := by
  constructor
  · intro h
    obtain ⟨k, hk, hmatched⟩ := hu.exists_close hi pre post h
    rwa [Nat.add_left_cancel hk]
  · exact fun h => h.append pre post

theorem doubled_append_iff (hu : Balanced u) (hi : i < u.length) (pre post : List Char) :
    Doubled (pre ++ u ++ post) (pre.length + i) (pre.length + j) ↔ Doubled u i j := by
  unfold Doubled
  rw [matched_append_iff hu hi pre post]
  refine and_congr_right fun h => ?_
  have hj := h.lt_length
  have hij := h.1
  rw [Nat.add_assoc, Nat.add_sub_assoc (by omega), matched_append_iff hu (by omega) pre post]

theorem Doubled.dropped (h : Doubled w i j) : Dropped w i ∧ Dropped w j :=
  ⟨⟨j, h.1.lt_length, Or.inl h⟩, ⟨i, Nat.lt_trans h.1.1 h.1.lt_length, Or.inr h⟩⟩

/-- Whether a parenthesis in a balanced part is dropped does not depend on what is around it. -/
theorem dropped_append_iff (hu : Balanced u) (hk : k < u.length) (pre post : List Char) :
    Dropped (pre ++ u ++ post) (pre.length + k) ↔ Dropped u k := by
  constructor
  · rintro ⟨i, -, h | h⟩
    · obtain ⟨j, rfl, -⟩ := hu.exists_close hk pre post h.1
      exact ((doubled_append_iff hu hk pre post).mp h).dropped.1
    · obtain ⟨j, rfl, hj⟩ := hu.exists_open hk pre post h.1
      exact ((doubled_append_iff hu (Nat.lt_trans hj.1 hk) pre post).mp h).dropped.2
  · rintro ⟨i, hi, h | h⟩
    · exact ((doubled_append_iff hu hk pre post).mpr h).dropped.1
    · exact ((doubled_append_iff hu hi pre post).mpr h).dropped.2

/-- A pair is dropped whole, when the next parentheses to the inside are a pair as well. -/
theorem Matched.dropped_iff (h : Matched w i j) :
    (Dropped w i ↔ Matched w (i + 1) (j - 1)) ∧ (Dropped w j ↔ Matched w (i + 1) (j - 1)) := by
  have distinct : ∀ {k l m : Nat}, Matched w k l → Matched w m k → False := fun hkl hmk =>
    absurd (hkl.2.1.symm.trans hmk.2.2.1) (by decide)
  have whole : Matched w (i + 1) (j - 1) → Dropped w i ∧ Dropped w j := fun hin =>
    Doubled.dropped ⟨h, hin⟩
  refine ⟨⟨?_, fun hin => (whole hin).1⟩, ⟨?_, fun hin => (whole hin).2⟩⟩
  · rintro ⟨k, -, hd | hd⟩
    · rw [h.unique_right hd.1]
      exact hd.2
    · exact (distinct h hd.1).elim
  · rintro ⟨k, -, hd | hd⟩
    · exact (distinct hd.1 h).elim
    · rw [h.unique_left hd.1]
      exact hd.2

theorem Dropped.parenthesis (h : Dropped w k) : w[k]? = some '(' ∨ w[k]? = some ')' := by
  obtain ⟨i, -, h | h⟩ := h
  · exact Or.inl h.1.2.1
  · exact Or.inr h.1.2.2.1

/-! ## Undoubling -/

@[simp] theorem kept_nil (w : List Char) (n : Nat) : kept w n [] = [] := rfl

theorem kept_cons (w : List Char) (n : Nat) (c : Char) (u : List Char) :
    kept w n (c :: u) = if Dropped w n then kept w (n + 1) u else c :: kept w (n + 1) u := by
  unfold kept
  by_cases h : Dropped w n <;> simp [List.zipIdx_cons, h]

theorem kept_append (w : List Char) (n : Nat) (u v : List Char) :
    kept w n (u ++ v) = kept w n u ++ kept w (n + u.length) v := by
  simp only [kept, List.zipIdx_append, List.filter_append, List.map_append]

theorem kept_congr {w w' : List Char} : ∀ {u : List Char} {n m : Nat},
    (∀ k < u.length, Dropped w (n + k) ↔ Dropped w' (m + k)) → kept w n u = kept w' m u := by
  intro u
  induction u with
  | nil => exact fun _ => rfl
  | cons c u ih =>
    intro n m h
    have hhead := h 0 (Nat.succ_pos _)
    have hrest : kept w (n + 1) u = kept w' (m + 1) u := ih fun k hk => by
      simpa only [Nat.add_assoc, Nat.add_comm 1 k] using h (k + 1) (Nat.succ_lt_succ hk)
    rw [Nat.add_zero, Nat.add_zero] at hhead
    simp only [kept_cons, hhead, hrest]

/-- A balanced part is undoubled in its place. -/
theorem kept_append_append (hu : Balanced u) (pre post : List Char) :
    kept (pre ++ u ++ post) pre.length u = undoubled u := by
  refine kept_congr fun k hk => ?_
  rw [Nat.zero_add]
  exact dropped_append_iff hu hk pre post

theorem undoubled_symbol (hu : Balanced u) (hv : Balanced v) {c : Char} (hopen : c ≠ '(')
    (hclose : c ≠ ')') : undoubled (u ++ c :: v) = undoubled u ++ c :: undoubled v := by
  have hc : ¬ Dropped (u ++ c :: v) u.length := by
    intro h
    have := h.parenthesis
    simp [hopen, hclose] at this
  have hleft := kept_append_append hu [] (c :: v)
  have hright := kept_append_append hv (u ++ [c]) []
  simp only [List.nil_append, List.length_nil, List.append_nil, ← List.append_cons,
    List.length_append, List.length_singleton] at hleft hright
  rw [undoubled, kept_append, kept_cons, Nat.zero_add, if_neg hc, hleft, hright]

theorem undoubled_group (hu : Balanced u) (hne : u ≠ []) :
    undoubled ('(' :: (u ++ [')'])) =
      if Matched u 0 (u.length - 1) then undoubled u else '(' :: (undoubled u ++ [')']) := by
  have hpos := List.length_pos_of_ne_nil hne
  have houter : Matched ('(' :: (u ++ [')'])) 0 (1 + u.length) :=
    matched_iff.mpr ⟨[], u, [], rfl, rfl, by omega, hu⟩
  have hinner : Matched ('(' :: (u ++ [')'])) 1 (1 + (u.length - 1)) ↔ Matched u 0 (u.length - 1) :=
    matched_append_iff hu hpos ['('] [')']
  have hkept := kept_append_append hu ['('] [')']
  obtain ⟨hopen, hclose⟩ := houter.dropped_iff
  have hlast : 1 + u.length - 1 = 1 + (u.length - 1) := by omega
  rw [hlast, hinner] at hopen hclose
  change kept ('(' :: (u ++ [')'])) 1 u = undoubled u at hkept
  rw [undoubled, kept_cons, kept_append, hkept, kept_cons, kept_nil]
  simp only [hopen, hclose]
  split
  · rw [List.append_nil]
  · rfl

example : String.ofList (undoubled "((a))*(((b+7)+((c))))".toList) = "(a)*((b+7)+(c))" := by
  decide +kernel

theorem undoubled_sublist (w : List Char) : (undoubled w).Sublist w := by
  have h := (List.filter_sublist (l := w.zipIdx) (p := fun e => ¬ Dropped w e.2)).map Prod.fst
  rwa [List.zipIdx_map_fst] at h

/-- Nothing but parentheses is dropped. -/
theorem filter_undoubled (w : List Char) :
    (undoubled w).filter (fun c => c ≠ '(' ∧ c ≠ ')') = w.filter (fun c => c ≠ '(' ∧ c ≠ ')') := by
  conv_rhs => rw [← List.zipIdx_map_fst 0 w]
  rw [undoubled, kept, List.filter_map, List.filter_map, List.filter_filter]
  refine congrArg (List.map Prod.fst) (List.filter_congr fun e he => ?_)
  have hchar := List.mem_zipIdx_iff_getElem?.mp he
  by_cases hd : Dropped w e.2
  · have := hd.parenthesis
    rw [hchar] at this
    rcases this with h | h <;> simp [Option.some.inj h]
  · simp [hd]

theorem undoubled_eq_self (h : ∀ i j, ¬ Doubled w i j) : undoubled w = w := by
  have hall : ∀ k, ¬ Dropped w k := by
    rintro k ⟨i, -, hd | hd⟩
    · exact h k i hd
    · exact h i k hd
  simp [undoubled, kept, hall]

end ArithTree.Parser
