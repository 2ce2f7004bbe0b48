import ArithTree.Proofs.ScoreOrder
import ArithTree.Proofs.Sessions

/-!
# The closest candidate of a drag

Which candidate is chosen from its score. The host is asked once for each candidate, in order
(`Scored`). One pass through the candidates finds the earliest among those with the smallest score
(`closest?_eq_scan`, `earliestLeast?_eq_some_iff`); undefined scores do not count, and where all of
them are undefined, an update keeps the choice from before (`closest_earliest`).
-/

namespace ArithTree

namespace Score

/-- `index` is the number of a defined score. No score is smaller, and each defined score before it
is larger. -/
def IsEarliestLeast (given : List Score) (index : Nat) : Prop :=
  ∃ score, given[index]? = some score ∧ score ≠ .undefined ∧ (∀ other ∈ given, ¬ other < score) ∧
    ∀ (i : Nat) (other : Score), i < index → given[i]? = some other → other ≠ .undefined →
      score < other

/-- Of two such numbers the earlier score would have to be larger and could not be. -/
theorem IsEarliestLeast.unique {given : List Score} {i j : Nat} (hi : IsEarliestLeast given i)
    (hj : IsEarliestLeast given j) : i = j := by
  obtain ⟨a, ha, hdefined, hleast, hearlier⟩ := hi
  obtain ⟨b, hb, hdefined', hleast', hearlier'⟩ := hj
  rcases lt_trichotomy i j with h | h | h
  · exact absurd (hearlier' i a h ha hdefined) (hleast b (List.mem_of_getElem? hb))
  · exact h
  · exact absurd (hearlier j b h hb hdefined') (hleast' a (List.mem_of_getElem? ha))

theorem IsLeast.isEarliestLeast {given : List Score} {index : Nat} {rank : Int}
    (h : IsLeast given (some (index, rank))) : IsEarliestLeast given index := by
  obtain ⟨hget, hleast⟩ := h
  refine ⟨.place rank, hget, nofun, fun other hother hlt => ?_,
    fun i other hi hother hdefined => ?_⟩
  · obtain ⟨i, hi⟩ := List.mem_iff_getElem?.mp hother
    cases other with
    | undefined => exact hlt
    | place r => exact absurd (hleast i r hi).1 (Int.not_le.mpr hlt)
  · cases other with
    | undefined => exact absurd rfl hdefined
    | place r => exact (hleast i r hother).2 hi

/-- There is no choice exactly when no score is defined. -/
theorem earliestLeast?_eq_none_iff (given : List Score) :
    earliestLeast? given = none ↔ ∀ score ∈ given, score = .undefined := by
  rw [← Option.not_isSome_iff_eq_none, isSome_earliestLeast?_iff, not_exists]
  constructor
  · intro h score hscore
    cases score with
    | undefined => rfl
    | place rank => exact absurd hscore (h rank)
  · intro h rank hrank
    cases h _ hrank

/-- **The choice is the earliest among the smallest scores.** -/
theorem earliestLeast?_eq_some_iff (given : List Score) (index : Nat) :
    earliestLeast? given = some index ↔ IsEarliestLeast given index := by
  have hleast := leastFrom_zero given
  unfold earliestLeast?
  generalize leastFrom 0 none given = best at hleast
  match best with
  | none =>
    refine iff_of_false nofun fun ⟨score, hget, hdefined, _⟩ => ?_
    exact hdefined (hleast score (List.mem_of_getElem? hget))
  | some (i, rank) =>
    have hfound := hleast.isEarliestLeast
    constructor
    · intro h
      obtain rfl : i = index := Option.some.inj h
      exact hfound
    · intro h
      rw [hfound.unique h]
      rfl

end Score

namespace Placement

/-! ## One pass -/

section

variable {m : Type → Type} [Monad m]

/-- Scores one candidate after the other, numbered from `index`, and keeps the best so far with its
number and rank. -/
def scan (score : Placement → m Score) (index : Nat) (best : Option (Nat × Int)) :
    List Placement → m (Option (Nat × Int))
  | [] => return best
  | p :: rest => do
    match ← score p with
    | .undefined => scan score (index + 1) best rest
    | .place rank =>
      scan score (index + 1) (if Score.improves rank best then some (index, rank) else best) rest

variable [LawfulMonad m] (score : Placement → m Score) (candidates : List Placement)

theorem scan_eq : ∀ index best,
    scan score index best candidates = Score.leastFrom index best <$> candidates.mapM score := by
  induction candidates with
  | nil => simp [scan, Score.leastFrom]
  | cons p rest ih =>
    intro index best
    rw [scan, List.mapM_cons, map_bind]
    refine bind_congr fun a => ?_
    cases a with
    | undefined => simp [ih, Score.leastFrom]
    | place rank => simp [ih, Score.leastFrom]

/-- **One pass is enough**: a candidate may be compared with the best so far as soon as it is
scored. -/
theorem closest?_eq_scan :
    closest? candidates score = Option.map Prod.fst <$> scan score 0 none candidates := by
  rw [scan_eq, closest?, bind_pure_comp, Functor.map_map]
  rfl

end

/-! ## Asking the host -/

section

variable {σ : Type} {score : Placement → StateM σ Score}

/-- The host scores with `score` and is asked for the candidates one after the other. It answers
`given`, and each answer leaves the state for the next one. -/
inductive Scored (score : Placement → StateM σ Score) :
    List Placement → σ → List Score → σ → Prop
  | nil (state : σ) : Scored score [] state [] state
  | cons {p : Placement} {rest : List Placement} {state between after : σ} {a : Score}
      {given : List Score} : (score p).run state = (a, between) →
        Scored score rest between given after → Scored score (p :: rest) state (a :: given) after

theorem exists_scored (score : Placement → StateM σ Score) (candidates : List Placement) :
    ∀ state, ∃ given after, Scored score candidates state given after := by
  induction candidates with
  | nil => exact fun state => ⟨[], state, .nil state⟩
  | cons p rest ih =>
    intro state
    obtain ⟨given, after, hrest⟩ := ih ((score p).run state).2
    exact ⟨_, after, .cons rfl hrest⟩

variable {candidates : List Placement} {state after : σ} {given : List Score}

theorem Scored.run_scan (h : Scored score candidates state given after) : ∀ index best,
    (scan score index best candidates).run state =
      (Score.leastFrom index best given, after) := by
  induction h with
  | nil state => exact fun _ _ => rfl
  | @cons p rest state between after a given hcall _ ih =>
    intro index best
    rw [scan, StateT.run_bind, hcall]
    cases a with
    | undefined => exact ih _ _
    | place rank => exact ih _ _

theorem Scored.run_closest? (h : Scored score candidates state given after) :
    (closest? candidates score).run state = (Score.earliestLeast? given, after) := by
  rw [closest?_eq_scan, StateT.run_map, h.run_scan]
  rfl

/-- An update of a drag asks once and changes nothing but the choice, which it returns. -/
theorem Scored.run_update {s : Session} {drag : Drag} (hdrag : s.drag = some drag)
    (h : Scored score drag.candidates state given after) : (s.update score).run state =
      ((some ((Score.earliestLeast? given).getD drag.chosen), { s with drag := some { drag with
        chosen := (Score.earliestLeast? given).getD drag.chosen } }), after) := by
  rw [Session.update, hdrag]
  simp only [StateT.run_bind, h.run_closest?]
  rfl

end

open Score in
/-- **The closest candidate is the earliest of the smallest score.** The host is asked once for each
candidate, in order. If none of its answers is defined, nothing is chosen; otherwise the choice is
the number of the earliest among the smallest, and there is only one. An update of a drag makes this
choice, or keeps the one from before if there is none; it returns the choice and changes nothing
else. The scores of floating-point numbers are in the order of the numbers, and only what is no
number is undefined. -/
theorem closest_earliest {σ : Type} (score : Placement → StateM σ Score) (state : σ) :
    (∀ candidates, ∃ given after choice, Scored score candidates state given after ∧
      (closest? candidates score).run state = (choice, after) ∧
      (choice = none ↔ ∀ a ∈ given, a = .undefined) ∧
      ∀ index, choice = some index ↔ IsEarliestLeast given index) ∧
    (∀ (s : Session) (drag : Drag), s.drag = some drag →
      ∃ given after chosen, Scored score drag.candidates state given after ∧
        (s.update score).run state =
          ((some chosen, { s with drag := some { drag with chosen } }), after) ∧
        (∀ index, IsEarliestLeast given index → chosen = index) ∧
        ((∀ a ∈ given, a = .undefined) → chosen = drag.chosen)) ∧
    ∀ x y : Float, (ofFloat x = .undefined ↔ x.isNaN = true) ∧ (ofFloat x < ofFloat y ↔ x < y) := by
  refine ⟨fun candidates => ?_, fun s drag hdrag => ?_, fun x y => ?_⟩
  · obtain ⟨given, after, hscored⟩ := exists_scored score candidates state
    exact ⟨given, after, _, hscored, hscored.run_closest?, earliestLeast?_eq_none_iff given,
      earliestLeast?_eq_some_iff given⟩
  · obtain ⟨given, after, hscored⟩ := exists_scored score drag.candidates state
    refine ⟨given, after, _, hscored, hscored.run_update hdrag, fun index hindex => ?_,
      fun hnone => ?_⟩
    · rw [(earliestLeast?_eq_some_iff given index).mpr hindex, Option.getD_some]
    · rw [(earliestLeast?_eq_none_iff given).mpr hnone, Option.getD_none]
  · exact ⟨ofFloat_eq_undefined_iff x, ofFloat_lt_ofFloat_iff x y⟩

/-- Reads scores off a list; at its end they are undefined. -/
def readOff (_ : Placement) : StateM (List Float) Score :=
  modifyGet fun
    | [] => (.undefined, [])
    | x :: rest => (.ofFloat x, rest)

/-- The first name of a sum of two is being dragged. -/
def draggedSum : Session := (⟨⟨0, 0⟩, Session.parsedSum, 0, none⟩ : Session).beginDrag.2

/-- An infinite score is chosen behind an undefined one, and undefined scores keep this choice; of
two zeros the first is chosen. -/
theorem closest_earliest_draggedSum : ∃ p q, draggedSum.drag = some ⟨[p, q], 0⟩ ∧
    (draggedSum.update readOff).run [0.0 / 0.0, 1.0 / 0.0] =
      ((some 1, { draggedSum with drag := some ⟨[p, q], 1⟩ }), []) ∧
    (Session.update readOff { draggedSum with drag := some ⟨[p, q], 1⟩ }).run [] =
      ((some 1, { draggedSum with drag := some ⟨[p, q], 1⟩ }), []) ∧
    (closest? [p, q] readOff).run [0.0, -0.0] = (some 0, []) := by
  obtain ⟨p, q, hdrag⟩ : ∃ p q, draggedSum.drag = some ⟨[p, q], 0⟩ := ⟨_, _, rfl⟩
  refine ⟨p, q, hdrag, ?_, ?_, ?_⟩
  · obtain ⟨given, after, chosen, hscored, hrun, hclosest, -⟩ :=
      (closest_earliest readOff [0.0 / 0.0, 1.0 / 0.0]).2.1 draggedSum _ hdrag
    rcases hscored with _ | ⟨hfirst, _ | ⟨hsecond, ⟨⟩⟩⟩
    cases hfirst
    cases hsecond
    obtain rfl := hclosest 1 ((Score.earliestLeast?_eq_some_iff _ _).mp (by decide))
    exact hrun
  · obtain ⟨given, after, chosen, hscored, hrun, -, hkept⟩ := (closest_earliest readOff []).2.1
      { draggedSum with drag := some ⟨[p, q], 1⟩ } _ rfl
    rcases hscored with _ | ⟨hfirst, _ | ⟨hsecond, ⟨⟩⟩⟩
    cases hfirst
    cases hsecond
    obtain rfl : chosen = 1 := hkept (by decide)
    exact hrun
  · obtain ⟨given, after, choice, hscored, hrun, -, hchosen⟩ :=
      (closest_earliest readOff [0.0, -0.0]).1 [p, q]
    rcases hscored with _ | ⟨hfirst, _ | ⟨hsecond, ⟨⟩⟩⟩
    cases hfirst
    cases hsecond
    obtain rfl := (hchosen 0).mpr ((Score.earliestLeast?_eq_some_iff _ _).mp (by decide))
    exact hrun

end Placement

end ArithTree
