import ArithTree.Score

/-!
# The closest candidate

Which score is chosen from a list. Going through the scores keeps the earliest among the smallest of
those seen (`leastFrom_isLeast`), so there is a choice exactly when some score is defined
(`isSome_earliestLeast?_iff`), and it is the number of a score on the list (`earliestLeast?_lt`).
-/

namespace ArithTree.Score

/-- What is to be found in a list: nothing when all scores are undefined, and otherwise the number
and the rank of the earliest among the smallest. -/
def IsLeast (scores : List Score) : Option (Nat × Int) → Prop
  | none => ∀ score ∈ scores, score = .undefined
  | some (index, rank) => scores[index]? = some (.place rank) ∧
      ∀ (i : Nat) (other : Int), scores[i]? = some (.place other) →
        rank ≤ other ∧ (i < index → rank < other)

theorem IsLeast.undefined {seen : List Score} {best : Option (Nat × Int)} (h : IsLeast seen best) :
    IsLeast (seen ++ [.undefined]) best := by
  match best, h with
  | none, h =>
    intro score hscore
    rcases List.mem_append.mp hscore with hscore | hscore
    · exact h score hscore
    · exact List.mem_singleton.mp hscore
  | some (index, rank), ⟨hget, hleast⟩ =>
    refine ⟨by grind, fun i other hi => hleast i other ?_⟩
    grind

/-- A later score of the same rank does not take the place of an earlier one. -/
theorem IsLeast.place {seen : List Score} {best : Option (Nat × Int)} (h : IsLeast seen best)
    (rank : Int) : IsLeast (seen ++ [.place rank])
      (if improves rank best then some (seen.length, rank) else best) := by
  match best, h with
  | none, h =>
    refine ⟨by simp, fun i other hi => ?_⟩
    have := h (.place other)
    grind
  | some (index, least), ⟨hget, hleast⟩ =>
    by_cases hlt : rank < least
    · rw [improves, if_pos (by simpa using hlt)]
      refine ⟨by simp, fun i other hi => ?_⟩
      have := hleast i other
      grind
    · rw [improves, if_neg (by simpa using hlt)]
      refine ⟨by grind, fun i other hi => ?_⟩
      have := hleast i other
      grind

/-- **Going through the scores** keeps the earliest among the smallest. -/
theorem leastFrom_isLeast (rest : List Score) : ∀ (seen : List Score) (best : Option (Nat × Int)),
    IsLeast seen best → IsLeast (seen ++ rest) (leastFrom seen.length best rest) := by
  induction rest with
  | nil =>
    intro seen best h
    rwa [List.append_nil]
  | cons score rest ih =>
    intro seen best h
    rw [← List.singleton_append, ← List.append_assoc]
    cases score with
    | undefined => simpa [leastFrom] using ih _ _ h.undefined
    | place rank => simpa [leastFrom] using ih _ _ (h.place rank)

theorem leastFrom_zero (scores : List Score) : IsLeast scores (leastFrom 0 none scores) :=
  leastFrom_isLeast scores [] none fun _ h => (by cases h)

example : earliestLeast? [.undefined, .place 2, .place 1, .place 1] = some 2 := by decide

/-- What is chosen has a defined score. -/
theorem getElem?_of_earliestLeast? {scores : List Score} {index : Nat}
    (h : earliestLeast? scores = some index) : ∃ rank, scores[index]? = some (.place rank) := by
  have hleast := leastFrom_zero scores
  unfold earliestLeast? at h
  generalize leastFrom 0 none scores = best at h hleast
  match best, h with
  | some (index, rank), rfl => exact ⟨rank, hleast.1⟩

/-- A choice is the number of a score. -/
theorem earliestLeast?_lt {scores : List Score} {index : Nat}
    (h : earliestLeast? scores = some index) : index < scores.length := by
  obtain ⟨rank, hrank⟩ := getElem?_of_earliestLeast? h
  exact (List.getElem?_eq_some_iff.mp hrank).1

/-- There is a choice exactly when some score is defined. -/
theorem isSome_earliestLeast?_iff {scores : List Score} :
    (earliestLeast? scores).isSome = true ↔ ∃ rank, .place rank ∈ scores := by
  have hleast := leastFrom_zero scores
  unfold earliestLeast?
  generalize leastFrom 0 none scores = best at hleast
  match best with
  | none =>
    refine ⟨fun h => (by cases h), fun ⟨rank, hrank⟩ => ?_⟩
    cases hleast _ hrank
  | some (index, rank) => exact ⟨fun _ => ⟨rank, List.mem_of_getElem? hleast.1⟩, fun _ => rfl⟩

end ArithTree.Score
