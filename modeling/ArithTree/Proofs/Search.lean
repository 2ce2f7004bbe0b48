import ArithTree.Proofs.Growth
import ArithTree.Proofs.Spans

/-!
# The search finds derivations

Every call of the search answers the question that its rule and span ask (`attempt_answers`): it
builds the tree of a derivation, or there is none and the store is as before. What carries this is
that every remembered attempt is hopeless, with memoization or without.
-/

namespace ArithTree.Parser.Search

open Unfolding hiding id

/-- A state of the search: nothing is marked yet, and no remembered attempt can succeed. -/
structure Fit (input : Array Char) (s : Search) : Prop where
  root : s.store.root = none
  ghost : s.store.ghost = none
  hopeless : ∀ a ∈ s.failures, ∀ t, ¬ Derives a.rule (span input a.start a.stop) t

/-- The answer to the question whether some shape satisfies `P`: a new tree with such a shape, or
none if there is no such shape. Everything else is as it was before the call. -/
inductive Answers (input : Array Char) (P : Shape → Prop) (before : Search) :
    Option NodeId × Search → Prop
  | found {after : Search} {u : Unfolding} {t : Shape} : u.shape? = some t → P t →
      before.store.Grows after.store [u] → Fit input after →
      Answers input P before (some u.id, after)
  | none {after : Search} : (∀ t, ¬ P t) → before.store.Grows after.store [] → Fit input after →
      Answers input P before (none, after)

theorem fit_initial (input : Array Char) : Fit input initial where
  root := rfl
  ghost := rfl
  hopeless _ ha := absurd ha Std.HashSet.not_mem_empty

section

variable {input : Array Char} {P Q : Shape → Prop} {before : Search}

theorem Answers.congr {r : Option NodeId × Search} (h : Answers input P before r)
    (hPQ : ∀ t, P t ↔ Q t) : Answers input Q before r := by
  cases h with
  | found ht hP hg hf => exact .found ht ((hPQ _).mp hP) hg hf
  | none hP hg hf => exact .none (fun t hQ => hP t ((hPQ t).mpr hQ)) hg hf

/-- A call that comes after others which have left no trace. -/
theorem Answers.after {middle : Search} {r : Option NodeId × Search} (h : Answers input P middle r)
    (hg : before.store.Grows middle.store []) : Answers input P before r := by
  cases h with
  | found ht hP hg' hf => exact .found ht hP (hg.trans hg') hf
  | none hP hg' hf => exact .none hP (hg.trans hg') hf

/-! ## Single steps -/

theorem Fit.insert (h : Fit input before) (label : Label) : Fit input (before.insert label).2 :=
  ⟨h.root, h.ghost, h.hopeless⟩

theorem Fit.append (h : Fit input before) (p c : NodeId) : Fit input (before.append p c) :=
  ⟨h.root, h.ghost, h.hopeless⟩

theorem Fit.remember {a : Attempt} (h : Fit input before)
    (ha : ∀ t, ¬ Derives a.rule (span input a.start a.stop) t) : Fit input (before.remember a) where
  root := h.root
  ghost := h.ghost
  hopeless b hb := by
    rcases Std.HashSet.mem_insert.mp hb with e | hb
    · rw [← eq_of_beq e]
      exact ha
    · exact h.hopeless b hb

theorem Fit.remove (h : Fit input before) (id : NodeId) : Fit input (before.remove id) where
  root := (Store.shrinks_remove before.store id).root.unset h.root
  ghost := (Store.shrinks_remove before.store id).ghost.unset h.ghost
  hopeless := h.hopeless

/-- A node over trees that have just been built. -/
theorem grows_insert {after : Search} {us : List Unfolding} (h : before.store.Grows after.store us)
    (label : Label) :
    before.store.Grows (after.insert label).2.store (.node (after.insert label).1 label [] :: us) :=
  h.insert label

/-- The tree that was built first becomes the last child of the node over it. -/
theorem grows_append {after : Search} {id : NodeId} {label : Label} {done : List Unfolding}
    {u : Unfolding} {us : List Unfolding}
    (h : before.store.Grows after.store (.node id label done :: u :: us)) :
    before.store.Grows (after.append id u.id).store (.node id label (done ++ [u]) :: us) :=
  h.append

/-- The question asked of a literal. -/
theorem literal_answers (hf : Fit input before) (start stop : Nat) :
    Answers input
      (fun t => ∃ l : Literal, l.text.toList = span input start stop ∧ t = .node (.literal l) [])
      before (literal input start stop before) := by
  unfold literal
  cases hl : Literal.ofChars? (input.extract start stop).toList with
  | none =>
    refine .none ?_ (Store.Grows.refl _) hf
    rintro t ⟨l, hl', -⟩
    exact absurd (hl.symm.trans ((ofChars?_eq_some_iff _ l).mpr hl')) (by simp)
  | some l =>
    have hg := grows_insert (Store.Grows.refl before.store) (.literal l)
    exact .found rfl ⟨l, (ofChars?_eq_some_iff _ l).mp hl, rfl⟩ hg (hf.insert _)

/-! ## The rules -/

variable {memoize : Bool} {start stop : Nat}

/-- What an attempt does when nothing is known about it. -/
def body (input : Array Char) (memoize : Bool) (rule : Rule) (start stop : Nat) (s : Search) :
    Option NodeId × Search :=
  match rule with
  | .chain c => splits input memoize c start stop 0 s
  | .grouping => grouping input memoize start stop s

theorem attempt_eq (input : Array Char) (memoize : Bool) (rule : Rule) (start stop : Nat)
    (s : Search) :
    attempt input memoize rule start stop s =
      if memoize && s.failures.contains ⟨rule, start, stop⟩ then (none, s)
      else match body input memoize rule start stop s with
        | (some id, s) => (some id, s)
        | (none, s) => (none, if memoize then s.remember ⟨rule, start, stop⟩ else s) := by
  rw [attempt.eq_def]
  split
  · rfl
  · cases rule with
    | chain c =>
      simp only [body]
      rcases splits input memoize c start stop 0 s with ⟨_ | id, s'⟩ <;> rfl
    | grouping =>
      simp only [body]
      rcases grouping input memoize start stop s with ⟨_ | id, s'⟩ <;> rfl

/-- Skipping what is known to fail and remembering what has failed. -/
theorem attempt_answers_of_body {rule : Rule} (hf : Fit input before)
    (hbody : Answers input (Derives rule (span input start stop)) before
      (body input memoize rule start stop before)) :
    Answers input (Derives rule (span input start stop)) before
      (attempt input memoize rule start stop before) := by
  rw [attempt_eq]
  split
  · next hmemo =>
    rw [Bool.and_eq_true, Std.HashSet.contains_iff_mem] at hmemo
    exact .none (hf.hopeless _ hmemo.2) (Store.Grows.refl _) hf
  · generalize body input memoize rule start stop before = r at hbody ⊢
    cases hbody with
    | found ht hP hg hf' => exact .found ht hP hg hf'
    | none hP hg hf' =>
      cases memoize with
      | false => exact .none hP hg hf'
      | true => exact .none hP hg (hf'.remember (a := ⟨rule, start, stop⟩) hP)

/-- A span that is a sum in parentheses is one that the rule for groups looks into. -/
theorem inside_of_derives (hstart : start ≤ stop) (hstop : stop ≤ input.size) {u : List Char}
    {d : Shape} (hu : span input start stop = '(' :: (u ++ [')']))
    (hd : Derives (.chain .addition) u d) :
    (start + 2 < stop ∧ input[start]? = some '(' ∧ input[stop - 1]? = some ')') ∧
      u = span input (start + 1) (stop - 1) := by
  obtain ⟨-, hopen, hclose, hinside⟩ := (span_eq_parens_iff hstart hstop u).mp hu
  have hpos := List.length_pos_of_ne_nil hd.ne_nil
  rw [hinside, length_span (by omega)] at hpos
  exact ⟨⟨by omega, hopen, hclose⟩, hinside⟩

theorem grouping_answers (hstart : start ≤ stop) (hstop : stop ≤ input.size) (hf : Fit input before)
    (hinner : start + 2 < stop →
      Answers input (Derives (.chain .addition) (span input (start + 1) (stop - 1))) before
        (attempt input memoize (.chain .addition) (start + 1) (stop - 1) before)) :
    Answers input (Derives .grouping (span input start stop)) before
      (grouping input memoize start stop before) := by
  -- without a derivation in parentheses the question is that of the literal
  have literal_only {middle : Search} (hf : Fit input middle)
      (hg : before.store.Grows middle.store [])
      (hno : ∀ u d, span input start stop = '(' :: (u ++ [')']) →
        ¬ Derives (.chain .addition) u d) :
      Answers input (Derives .grouping (span input start stop)) before
        (literal input start stop middle) :=
    ((literal_answers hf start stop).congr fun t => (derives_literal_iff hno t).symm).after hg
  rw [grouping]
  split
  · next hparens =>
    obtain ⟨hlong, hopen, hclose⟩ := hparens
    have hspan := (span_eq_parens_iff hstart hstop _).mpr ⟨by omega, hopen, hclose, rfl⟩
    have hin := hinner hlong
    generalize attempt input memoize (.chain .addition) (start + 1) (stop - 1) before = r at hin ⊢
    cases hin with
    | @found after u t ht hd hg hf' =>
      have hg' := grows_append (grows_insert hg (.compound .group))
      have hd' : Derives .grouping (span input start stop) (.node (.compound .group) [t]) :=
        hspan ▸ .group hd
      refine .found ?_ hd' hg' ((hf'.insert _).append _ _)
      rw [List.nil_append, shape?, shapes, shapes, ht]
    | none hno hg hf' =>
      refine literal_only hf' hg fun u d hu hd => ?_
      obtain ⟨-, rfl⟩ := inside_of_derives hstart hstop hu hd
      exact hno d hd
  · next hparens =>
    exact literal_only hf (Store.Grows.refl _) fun u d hu hd =>
      hparens (inside_of_derives hstart hstop hu hd).1

/-- What is left of a chain rule when its splits with a left side of at most `skipped` characters
have been ruled out. -/
def Remaining (c : Chain) (w : List Char) (skipped : Nat) (t : Shape) : Prop :=
  Derives c.tighter w t ∨ ∃ u v l r, w = u ++ c.symbol :: v ∧ skipped < u.length ∧
    Derives (.chain c) u l ∧ Derives c.tighter v r ∧ t = .node (.compound c.operator) [l, r]

theorem remaining_zero_iff (c : Chain) (w : List Char) (t : Shape) :
    Remaining c w 0 t ↔ Derives (.chain c) w t := by
  constructor
  · rintro (h | ⟨u, v, l, r, rfl, -, hl, hr, rfl⟩)
    · exact .tighter h
    · exact .binary hl hr
  · intro h
    cases h with
    | binary hl hr =>
      exact Or.inr ⟨_, _, _, _, rfl, List.length_pos_of_ne_nil hl.ne_nil, hl, hr, rfl⟩
    | tighter h => exact Or.inl h

/-- One more split that has been ruled out. -/
theorem remaining_succ_iff {c : Chain} {w : List Char} {skipped : Nat}
    (h : ∀ u v l r, w = u ++ c.symbol :: v → u.length = skipped + 1 → Derives (.chain c) u l →
      ¬ Derives c.tighter v r) (t : Shape) :
    Remaining c w (skipped + 1) t ↔ Remaining c w skipped t := by
  constructor
  · rintro (ht | ⟨u, v, l, r, hw, hlen, hsplit⟩)
    · exact Or.inl ht
    · exact Or.inr ⟨u, v, l, r, hw, by omega, hsplit⟩
  · rintro (ht | ⟨u, v, l, r, hw, hlen, hl, hr, ht⟩)
    · exact Or.inl ht
    · have : u.length ≠ skipped + 1 := fun e => h u v l r hw e hl hr
      exact Or.inr ⟨u, v, l, r, hw, by omega, hl, hr, ht⟩

/-- No split is left when the right side would be empty. -/
theorem remaining_iff_tighter {c : Chain} {w : List Char} {skipped : Nat}
    (h : w.length ≤ skipped + 2) (t : Shape) : Remaining c w skipped t ↔ Derives c.tighter w t := by
  constructor
  · rintro (ht | ⟨u, v, l, r, rfl, hlen, -, hr, -⟩)
    · exact ht
    · have := List.length_pos_of_ne_nil hr.ne_nil
      rw [List.length_append, List.length_cons] at h
      omega
  · exact Or.inl

theorem splits_answers {c : Chain} (hstart : start ≤ stop) (hstop : stop ≤ input.size)
    (hshorter : ∀ rule start' stop' s, stop' - start' < stop - start → start' ≤ stop' →
      stop' ≤ input.size → Fit input s → Answers input (Derives rule (span input start' stop')) s
        (attempt input memoize rule start' stop' s))
    (htighter : ∀ s, Fit input s → Answers input (Derives c.tighter (span input start stop)) s
      (attempt input memoize c.tighter start stop s)) (skipped : Nat) (before : Search)
    (hf : Fit input before) :
    Answers input (Remaining c (span input start stop) skipped) before
      (splits input memoize c start stop skipped before) := by
  have cut (u v) := span_eq_append_iff hstart hstop u v c.symbol
  rw [splits.eq_def]
  generalize hsplit : start + skipped + 1 = split
  dsimp only
  split
  · next hlt =>
    -- the next split, once the present one is ruled out
    have next {middle : Search} (hf' : Fit input middle) (hg : before.store.Grows middle.store [])
        (hno : ∀ l r, input[split]? = some c.symbol →
          Derives (.chain c) (span input start split) l →
          ¬ Derives c.tighter (span input (split + 1) stop) r) :
        Answers input (Remaining c (span input start stop) skipped) before
          (splits input memoize c start stop (skipped + 1) middle) := by
      have hlater := splits_answers hstart hstop hshorter htighter (skipped + 1) middle hf'
      refine (hlater.congr ?_).after hg
      refine remaining_succ_iff fun u v l r hw hlen hl hr => ?_
      obtain ⟨-, hc, hu, hv⟩ := (cut u v).mp hw
      have hat : start + u.length = split := by omega
      rw [hat] at hc hu hv
      exact hno l r hc (hu ▸ hl) (hv ▸ hr)
    split
    · next hsymbol =>
      have hleft := hshorter (.chain c) start split before (by omega) (by omega) (by omega) hf
      generalize attempt input memoize (.chain c) start split before = left at hleft ⊢
      cases hleft with
      | none hno hg hf' => exact next hf' hg fun l _ _ hl => absurd hl (hno l)
      | @found middle u l hlu hl hg hf' =>
        have hright := hshorter c.tighter (split + 1) stop middle (by omega) (by omega) hstop hf'
        dsimp only
        generalize attempt input memoize c.tighter (split + 1) stop middle = right at hright ⊢
        cases hright with
        | none hno hg' hf'' =>
          exact next (hf''.remove u.id) (hg.trans hg').remove fun _ r _ _ hr => absurd hr (hno r)
        | @found after v r hrv hr hg' hf'' =>
          have hgrown :=
            grows_append (grows_append (grows_insert (hg.trans hg') (.compound c.operator)))
          have hw : span input start stop =
              span input start split ++ c.symbol :: span input (split + 1) stop :=
            span_split (by omega) (by omega) hsymbol
          have hlen : (span input start split).length = split - start := length_span (by omega)
          have hd : Remaining c (span input start stop) skipped
              (.node (.compound c.operator) [l, r]) :=
            Or.inr ⟨_, _, l, r, hw, by omega, hl, hr, rfl⟩
          refine .found ?_ hd hgrown (((hf''.insert _).append _ _).append _ _)
          simp only [List.nil_append, List.singleton_append, shape?, shapes, hlu, hrv]
    · next hsymbol => exact next hf (Store.Grows.refl _) fun _ _ hc => absurd hc hsymbol
  · next hlt =>
    refine (htighter before hf).congr fun t => (remaining_iff_tighter ?_ t).symm
    rw [length_span hstop]
    omega
termination_by stop - start - skipped

end

/-- **Every attempt is answered.** The rules that bind tighter are asked on the same span, all
others on a shorter one. -/
theorem attempt_answers (input : Array Char) (memoize : Bool) (rule : Rule) (start stop : Nat)
    (before : Search) (hstart : start ≤ stop) (hstop : stop ≤ input.size) (hf : Fit input before) :
    Answers input (Derives rule (span input start stop)) before
      (attempt input memoize rule start stop before) := by
  have shorter : ∀ rule start' stop' s, stop' - start' < stop - start → start' ≤ stop' →
      stop' ≤ input.size → Fit input s → Answers input (Derives rule (span input start' stop')) s
        (attempt input memoize rule start' stop' s) :=
    fun rule start' stop' s hlt hle hsize hs =>
      attempt_answers input memoize rule start' stop' s hle hsize hs
  have grouping_level : ∀ s, Fit input s →
      Answers input (Derives .grouping (span input start stop)) s
        (attempt input memoize .grouping start stop s) := by
    intro s hs
    refine attempt_answers_of_body hs (grouping_answers hstart hstop hs fun hlong => ?_)
    exact shorter _ _ _ _ (by omega) (by omega) (by omega) hs
  have chain_level {c : Chain} (htighter : ∀ s, Fit input s →
      Answers input (Derives c.tighter (span input start stop)) s
        (attempt input memoize c.tighter start stop s)) (s : Search) (hs : Fit input s) :
      Answers input (Derives (.chain c) (span input start stop)) s
        (attempt input memoize (.chain c) start stop s) :=
    attempt_answers_of_body hs <|
      (splits_answers hstart hstop shorter htighter 0 s hs).congr (remaining_zero_iff c _)
  have multiplication_level := chain_level (c := .multiplication) grouping_level
  cases rule with
  | grouping => exact grouping_level before hf
  | chain c =>
    cases c with
    | multiplication => exact multiplication_level before hf
    | addition => exact chain_level (c := .addition) multiplication_level before hf
termination_by stop - start

end ArithTree.Parser.Search
