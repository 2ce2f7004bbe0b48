import ArithTree.Proofs.Grammar

/-!
# Spans of the input

A span is given by two positions and stands for the characters between them. Cutting a span at a
symbol and cutting its characters at that symbol are the same thing (`span_eq_append_iff`).
-/

namespace ArithTree.Parser

/-- The characters from `start` up to but not including `stop`. -/
def span (input : Array Char) (start stop : Nat) : List Char := (input.extract start stop).toList

theorem span_eq_take_drop (input : Array Char) (start stop : Nat) :
    span input start stop = (input.toList.drop start).take (stop - start) := by
  rw [span, Array.toList_extract, List.extract_eq_take_drop]

theorem span_all (input : Array Char) : span input 0 input.size = input.toList := by
  rw [span, Array.extract_size]

section

variable {input : Array Char} {start stop : Nat}

theorem length_span (h : stop ≤ input.size) : (span input start stop).length = stop - start := by
  rw [span_eq_take_drop, List.length_take, List.length_drop, Array.length_toList]
  omega

theorem getElem?_span {i : Nat} (h : start + i < stop) :
    (span input start stop)[i]? = input[start + i]? := by
  rw [span_eq_take_drop, List.getElem?_take_of_lt (by omega), List.getElem?_drop,
    Array.getElem?_toList]

/-- Cutting a span at a symbol inside it. -/
theorem span_split {split : Nat} {c : Char} (hstart : start ≤ split) (hsplit : split < stop)
    (hc : input[split]? = some c) :
    span input start stop = span input start split ++ c :: span input (split + 1) stop := by
  have hdrop : input.toList.drop split = c :: input.toList.drop (split + 1) := by
    rw [← Array.getElem?_toList] at hc
    obtain ⟨hlt, rfl⟩ := List.getElem?_eq_some_iff.mp hc
    exact List.drop_eq_getElem_cons hlt
  have hskip : stop - start = (split - start) + (stop - (split + 1) + 1) := by omega
  simp only [span_eq_take_drop]
  rw [hskip, List.take_add, List.drop_drop, Nat.add_sub_cancel' hstart, hdrop, List.take_succ_cons]

/-- A cut through the characters of a span is a cut of the span. -/
theorem span_eq_append_iff (hstart : start ≤ stop) (hstop : stop ≤ input.size) (u v : List Char)
    (c : Char) :
    span input start stop = u ++ c :: v ↔
      start + u.length < stop ∧ input[start + u.length]? = some c ∧
        u = span input start (start + u.length) ∧ v = span input (start + u.length + 1) stop := by
  constructor
  · intro h
    have hlen : (span input start stop).length = stop - start := length_span hstop
    rw [h, List.length_append, List.length_cons] at hlen
    have hlt : start + u.length < stop := by omega
    have hc : input[start + u.length]? = some c := by
      rw [← getElem?_span hlt, h, List.getElem?_append_right (Nat.le_refl _), Nat.sub_self]
      rfl
    rw [span_split (Nat.le_add_right _ _) hlt hc] at h
    have hleft : (span input start (start + u.length)).length = u.length := by
      rw [length_span (by omega)]
      omega
    obtain ⟨hu, hv⟩ := List.append_inj h hleft
    rw [List.cons.injEq] at hv
    exact ⟨hlt, hc, hu.symm, hv.2.symm⟩
  · rintro ⟨hlt, hc, hu, hv⟩
    rw [span_split (Nat.le_add_right _ _) hlt hc, ← hu, ← hv]

/-- A span in parentheses. -/
theorem span_eq_parens_iff (hstart : start ≤ stop) (hstop : stop ≤ input.size) (u : List Char) :
    span input start stop = '(' :: (u ++ [')']) ↔
      start + 1 < stop ∧ input[start]? = some '(' ∧ input[stop - 1]? = some ')' ∧
        u = span input (start + 1) (stop - 1) := by
  have hopen := span_eq_append_iff hstart hstop [] (u ++ [')']) '('
  simp only [List.nil_append, List.length_nil, Nat.add_zero] at hopen
  constructor
  · intro h
    obtain ⟨hlt, ho, -, hu⟩ := hopen.mp h
    obtain ⟨hlt', hc, hu, hnil⟩ := (span_eq_append_iff (by omega) hstop u [] ')').mp hu.symm
    have hend : (span input (start + 1 + u.length + 1) stop).length = _ := length_span hstop
    rw [← hnil, List.length_nil] at hend
    have hlast : start + 1 + u.length = stop - 1 := by omega
    rw [hlast] at hc hu
    exact ⟨by omega, ho, hc, hu⟩
  · rintro ⟨hlt, ho, hc, hu⟩
    refine hopen.mpr ⟨by omega, ho, ?_, ?_⟩
    · simp [span]
    · rw [span_split (by omega) (by omega) hc, ← hu, Nat.sub_add_cancel (by omega)]
      simp [span]

end

end ArithTree.Parser
