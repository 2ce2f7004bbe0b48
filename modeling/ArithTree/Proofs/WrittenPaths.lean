import ArithTree.NodePath
import Mathlib.Data.List.Forall2

/-!
# Written paths are read back

A path is written in digits and dots only, so there is nothing to trim, the parts between the dots
are the positions, and each of them is read as it was written (`parse?_format`). The one condition
is that a position fits into a machine word.
-/

namespace ArithTree

namespace Text.Numeral

theorem isDigit_of_mem_toDigits {n : Nat} {c : Char} (h : c ∈ Nat.toDigits 10 n) :
    c.isDigit = true :=
  Nat.isDigit_of_mem_toDigits (by omega) (by omega) h

/-- A run of digits has no sign. -/
theorem unsigned?_of_isDigit {cs : List Char} (h : ∀ c ∈ cs, c.isDigit = true) :
    unsigned? cs = digitsUpTo? maxUnsigned cs := by
  unfold unsigned?
  split
  · next rest => exact absurd (h '+' (List.mem_cons_self ..)) (by decide)
  · rfl

theorem unsigned?_toDigits {n : Nat} (h : n ≤ maxUnsigned) :
    unsigned? (Nat.toDigits 10 n) = some n := by
  rw [unsigned?_of_isDigit fun _ => isDigit_of_mem_toDigits, digitsUpTo?, digits?_toDigits]
  simpa using h

end Text.Numeral

namespace NodePath

open Text Text.Numeral

/-- The parts are those of the library. -/
theorem parts_eq_splitOn (cs : List Char) : parts cs = cs.splitOn '.' := by
  induction cs with
  | nil => rfl
  | cons c cs ih =>
    rw [parts, ih, List.splitOn_cons_eq_if_modifyHead]
    cases hparts : cs.splitOn '.' with
    | nil => exact absurd hparts (List.splitOn_ne_nil '.' cs)
    | cons part rest => by_cases hc : c = '.' <;> simp [hc]

theorem toList_format (path : List Nat) :
    (format path).toList = ['.'].intercalate (path.map (Nat.toDigits 10)) := by
  have hdigits : String.toList ∘ Nat.repr = Nat.toDigits 10 := funext fun _ => Nat.toList_repr
  rw [format, String.toList_intercalate, List.map_map, hdigits]
  rfl

/-- What is written between dots is there again when the text is split. -/
theorem parts_format {path : List Nat} (h : path ≠ []) :
    parts (format path).toList = path.map (Nat.toDigits 10) := by
  rw [parts_eq_splitOn, toList_format]
  refine List.splitOn_intercalate '.' (fun part hpart hdot => ?_) (by simpa using h)
  obtain ⟨n, -, rfl⟩ := List.mem_map.mp hpart
  exact absurd (isDigit_of_mem_toDigits hdot) (by decide)

theorem mem_intercalate {sep c : Char} {ls : List (List Char)} (h : c ∈ [sep].intercalate ls) :
    c = sep ∨ ∃ l ∈ ls, c ∈ l := by
  induction ls with
  | nil => cases h
  | cons l ls ih =>
    cases ls with
    | nil => exact Or.inr ⟨l, List.mem_cons_self .., by simpa using h⟩
    | cons l' ls =>
      rw [List.intercalate_cons_cons, List.append_assoc, List.mem_append, List.mem_append,
        List.mem_singleton] at h
      rcases h with h | h | h
      · exact Or.inr ⟨l, List.mem_cons_self .., h⟩
      · exact Or.inl h
      · obtain hsep | ⟨l'', hl, hc⟩ := ih h
        · exact Or.inl hsep
        · exact Or.inr ⟨l'', List.mem_cons_of_mem _ hl, hc⟩

theorem not_isBlank_of_isDigit {c : Char} (h : c.isDigit = true) : isBlank c = false := by
  rw [Char.isDigit_iff_toNat] at h
  exact not_isBlank_of_toNat h.1 (Nat.le_trans h.2 (by decide))

theorem not_isBlank_of_mem_format {path : List Nat} {c : Char} (h : c ∈ (format path).toList) :
    isBlank c = false := by
  rw [toList_format] at h
  obtain rfl | ⟨part, hpart, hc⟩ := mem_intercalate h
  · rfl
  · obtain ⟨n, -, rfl⟩ := List.mem_map.mp hpart
    exact not_isBlank_of_isDigit (isDigit_of_mem_toDigits hc)

/-- Positions that are written out read back one by one. -/
theorem mapM_unsigned? {path : List Nat} (h : ∀ n ∈ path, n ≤ maxUnsigned) :
    (path.map (Nat.toDigits 10)).mapM (fun part => unsigned? (trimBlanks part)) = some path := by
  induction path with
  | nil => rfl
  | cons n path ih =>
    have htrim : trimBlanks (Nat.toDigits 10 n) = Nat.toDigits 10 n :=
      trimBlanks_eq_self fun c hc => not_isBlank_of_isDigit (isDigit_of_mem_toDigits hc)
    have hrest := ih fun m hm => h m (List.mem_cons_of_mem _ hm)
    simp [List.mapM_cons, htrim, unsigned?_toDigits (h n (List.mem_cons_self ..)), hrest]

/-- **Written paths are read back**, when every position fits into a machine word. -/
theorem parse?_format {path : List Nat} (h : ∀ n ∈ path, n ≤ maxUnsigned) :
    parse? (format path) = some path := by
  have htrim : trimBlanks (format path).toList = (format path).toList :=
    trimBlanks_eq_self fun _ => not_isBlank_of_mem_format
  unfold parse?
  rw [htrim]
  cases path with
  | nil => rfl
  | cons n path =>
    have hparts := parts_format (List.cons_ne_nil n path)
    cases hcs : (format (n :: path)).toList with
    | nil =>
      -- a part that is written is not empty
      rw [hcs, parts, List.map_cons, List.cons.injEq] at hparts
      exact absurd hparts.1.symm Nat.toDigits_ne_nil
    | cons c cs =>
      simp only
      rw [← hcs, hparts, mapM_unsigned? h]

/-! ## What is read -/

theorem le_maxUnsigned_of_unsigned? {cs : List Char} {n : Nat} (h : unsigned? cs = some n) :
    n ≤ maxUnsigned := by
  have bounded : ∀ cs, digitsUpTo? maxUnsigned cs = some n → n ≤ maxUnsigned := by
    intro cs h
    simpa using (Option.filter_eq_some_iff.mp h).2
  unfold unsigned? at h
  split at h <;> exact bounded _ h

theorem mapM_eq_some_iff {α β : Type} (f : α → Option β) (l : List α) (out : List β) :
    l.mapM f = some out ↔ List.Forall₂ (fun a b => f a = some b) l out := by
  induction l generalizing out with
  | nil => cases out <;> simp
  | cons a l ih =>
    rw [List.mapM_cons]
    cases hf : f a with
    | none => cases out <;> simp [hf]
    | some b =>
      cases hrest : l.mapM f with
      | none => cases out <;> simp [hf, ← ih, hrest]
      | some bs => cases out <;> simp [hf, ← ih, hrest]

/-- A path that is read has positions that fit into a machine word. -/
theorem le_maxUnsigned_of_parse? {text : String} {path : List Nat} (h : parse? text = some path) :
    ∀ n ∈ path, n ≤ maxUnsigned := by
  unfold parse? at h
  split at h
  · obtain rfl : [] = path := Option.some.inj h
    simp
  · rw [mapM_eq_some_iff] at h
    generalize parts (trimBlanks text.toList) = written at h
    induction h with
    | nil => simp
    | cons hpart _ ih => exact List.forall_mem_cons.mpr ⟨le_maxUnsigned_of_unsigned? hpart, ih⟩

end NodePath

end ArithTree
