import ArithTree.Proofs.Ranges
import ArithTree.Proofs.WrittenPaths
import ArithTree.Toml.Writer
import Mathlib

/-!
# Written documents are read back

A document is written row by row: a header for each section, a key and a value for each field. What
a row says is read back (`line?_header`, `line?_field`): a word ends where the first character comes
that no key can have, a number in base ten is no date, no time and has no mark in front, and nothing
has to be escaped in a text. Rows with empty lines between them are read one by one
(`lines?_of_rows`), and the drafts of the sections grow to the document that was written
(`read?_write`). With that, the library that the program runs with obeys the laws (`lawful`).
-/

namespace ArithTree

open Text.Numeral (maxSigned isDigit_of_mem_toDigits)

namespace Toml

variable {ds rest : List Char} {n : Nat}

/-! ## Numbers in base ten -/

/-- The digits that a positive number can start with. -/
def leadingDigits : List Char := ['1', '2', '3', '4', '5', '6', '7', '8', '9']

theorem exists_toDigits (h : 0 < n) : ∃ d ∈ leadingDigits, ∃ ds, Nat.toDigits 10 n = d :: ds := by
  induction n using Nat.strongRecOn with
  | ind n ih =>
    by_cases hsmall : n < 10
    · have hdigit : ∀ d < 10, 0 < d → Nat.digitChar d ∈ leadingDigits := by decide
      exact ⟨_, hdigit n hsmall h, [], Nat.toDigits_of_lt_base hsmall⟩
    · obtain ⟨d, hd, ds, hds⟩ := ih (n / 10) (by omega) (by omega)
      refine ⟨d, hd, ds ++ [(n % 10).digitChar], ?_⟩
      rw [Nat.toDigits_of_base_le (by decide) (Nat.le_of_not_lt hsmall), hds, List.cons_append]

theorem digitRun_append (h : ∀ c ∈ ds, c.isDigit = true) :
    digitRun Char.isDigit (ds ++ '\n' :: rest) = (ds, '\n' :: rest) := by
  induction ds with
  | nil => rfl
  | cons d ds ih =>
    rw [List.cons_append, digitRun, if_pos (h d (List.mem_cons_self ..)),
      ih fun c hc => h c (List.mem_cons_of_mem _ hc)]

theorem valueIn_toDigits (n : Nat) : valueIn 10 (Nat.toDigits 10 n) = n := by
  have hdigits : valueIn 10 (Nat.toDigits 10 n) = Nat.ofDigitChars 10 (Nat.toDigits 10 n) 0 := by
    rw [Nat.ofDigitChars_eq_foldl]
    refine List.foldl_ext _ _ _ fun m c hc => ?_
    rw [digitValue, if_pos (isDigit_of_mem_toDigits hc)]
  rw [hdigits, Nat.ofDigitChars_toDigits (by decide) (by decide)]

theorem skipSpaces_digits (h : ∀ c ∈ ds, c.isDigit = true) :
    skipSpaces (' ' :: (ds ++ '\n' :: rest)) = ds ++ '\n' :: rest := by
  match ds with
  | [] => rfl
  | d :: ds =>
    have hspace : isSpace d = false := by
      by_cases hd : d = ' ' ∨ d = '\t'
      · rcases hd with rfl | rfl <;> exact absurd (h _ (List.mem_cons_self ..)) (by decide)
      · simpa [isSpace] using hd
    rw [List.cons_append, skipSpaces, List.dropWhile_cons_of_pos (by rfl),
      List.dropWhile_cons_of_neg (by simp [hspace])]

/-- Two digits in a run of digits leave a run of digits. -/
theorem Moment.pair?_digits {least greatest m : Nat} {cs : List Char}
    (h : ∀ c ∈ ds, c.isDigit = true)
    (hpair : Moment.pair? least greatest (ds ++ '\n' :: rest) = some (m, cs)) :
    ∃ es, cs = es ++ '\n' :: rest ∧ ∀ c ∈ es, c.isDigit = true := by
  match ds with
  | [] =>
    cases rest with
    | nil => cases hpair
    | cons c rest => simp [Moment.pair?] at hpair
  | [a] => simp [Moment.pair?] at hpair
  | a :: b :: es =>
    simp only [List.cons_append, Moment.pair?] at hpair
    split at hpair
    · split at hpair
      · obtain ⟨-, rfl⟩ := Prod.mk.inj (Option.some.inj hpair)
        exact ⟨es, rfl, fun c hc => h c (by simp [hc])⟩
      · cases hpair
    · cases hpair

theorem Moment.char?_digits {c : Char} (h : ∀ c ∈ ds, c.isDigit = true) (hc : c.isDigit = false)
    (hline : c ≠ '\n') : Moment.char? c (ds ++ '\n' :: rest) = none := by
  match ds with
  | [] => exact if_neg hline.symm
  | d :: es => exact if_neg fun heq => by simp [← heq, h d] at hc

/-- A run of digits is no moment. -/
theorem Moment.read?_digits (h : ∀ c ∈ ds, c.isDigit = true) :
    Moment.read? (ds ++ '\n' :: rest) = none := by
  have hdate : Moment.date? (ds ++ '\n' :: rest) = none := by
    unfold Moment.date?
    cases hcentury : Moment.pair? 0 99 (ds ++ '\n' :: rest) with
    | none => rfl
    | some p =>
      obtain ⟨es, hes, hdigits⟩ := Moment.pair?_digits h hcentury
      cases hyear : Moment.pair? 0 99 p.2 with
      | none => simp [hyear]
      | some q =>
        rw [hes] at hyear
        obtain ⟨fs, hfs, hdigits⟩ := Moment.pair?_digits hdigits hyear
        simp [hes, hyear, hfs, Moment.char?_digits hdigits (c := '-') (by decide) (by decide)]
  have htime : Moment.time? (ds ++ '\n' :: rest) = none := by
    unfold Moment.time?
    cases hhour : Moment.pair? 0 23 (ds ++ '\n' :: rest) with
    | none => rfl
    | some p =>
      obtain ⟨es, hes, hdigits⟩ := Moment.pair?_digits h hhour
      simp [hes, Moment.char?_digits hdigits (c := ':') (by decide) (by decide)]
  rw [Moment.read?, hdate, htime]
  rfl

/-- A whole number at the end of its line. -/
theorem unsignedNumber?_of_wholePart? {negative : Bool} {cs : List Char} {v : Value}
    (hwhole : wholePart? cs = some (ds, '\n' :: rest)) (hvalue : valueIn 10 ds = n)
    (hv : integerOf? negative n = some v) :
    unsignedNumber? negative cs = some (v, '\n' :: rest) := by
  simp [unsignedNumber?, hwhole, hvalue, fraction?, exponent?, hv]

/-- A leading digit opens nothing but a moment or a number in base ten. -/
theorem value?_of_leadingDigit {d : Char} (hd : d ∈ leadingDigits) (cs : List Char) :
    value? maxDepth (d :: cs) =
      ((Moment.read? (d :: cs)).map (Value.moment, ·)).or (unsignedNumber? false (d :: cs)) ∧
    wholePart? (d :: cs) = digits? Char.isDigit (d :: cs) := by
  simp only [leadingDigits, List.mem_cons, List.not_mem_nil, or_false] at hd
  rcases hd with rfl | rfl | rfl | rfl | rfl | rfl | rfl | rfl | rfl <;> exact ⟨rfl, rfl⟩

/-- The digits of a number that is not zero. -/
theorem wholePart?_toDigits (rest : List Char) (hpos : 0 < n) : ∃ d ∈ leadingDigits, ∃ ds,
    Nat.toDigits 10 n ++ '\n' :: rest = d :: (ds ++ '\n' :: rest) ∧
      (∀ c ∈ d :: ds, c.isDigit = true) ∧
        wholePart? (Nat.toDigits 10 n ++ '\n' :: rest) =
        some (Nat.toDigits 10 n, '\n' :: rest) := by
  obtain ⟨d, hd, ds, hds⟩ := exists_toDigits hpos
  have hdigits : ∀ c ∈ d :: ds, c.isDigit = true := fun c hc =>
    isDigit_of_mem_toDigits (hds ▸ hc)
  obtain ⟨-, hwhole⟩ := value?_of_leadingDigit hd (ds ++ '\n' :: rest)
  rw [digits?, ← List.cons_append, digitRun_append hdigits] at hwhole
  refine ⟨d, hd, ds, by rw [hds, List.cons_append], hdigits, ?_⟩
  rw [hds, hwhole]
  exact if_pos (hdigits d (List.mem_cons_self ..))

/-- **Number lemma.** A whole number that fits is read as it was written. -/
theorem value?_toDigits (hn : n ≤ maxSigned) :
    value? maxDepth (Nat.toDigits 10 n ++ '\n' :: rest) = some (.integer n, '\n' :: rest) := by
  rcases Nat.eq_zero_or_pos n with rfl | hpos
  · rfl
  · obtain ⟨d, hd, ds, hcons, hdigits, hwhole⟩ := wholePart?_toDigits rest hpos
    rw [hcons] at hwhole ⊢
    rw [(value?_of_leadingDigit hd _).1, ← List.cons_append, Moment.read?_digits hdigits]
    refine unsignedNumber?_of_wholePart? hwhole (valueIn_toDigits n) ?_
    rw [integerOf?, if_neg Bool.false_ne_true, if_pos hn]

/-- So is a negative one, behind its sign. -/
theorem value?_minus (hn : n ≤ maxSigned) :
    value? maxDepth ('-' :: (Nat.toDigits 10 (n + 1) ++ '\n' :: rest)) =
      some (.integer (.negSucc n), '\n' :: rest) := by
  obtain ⟨d, hd, ds, hcons, -, hwhole⟩ := wholePart?_toDigits rest (Nat.succ_pos n)
  have hnumber (cs : List Char) : value? maxDepth ('-' :: d :: cs) =
      unsignedNumber? true (d :: cs) := by
    simp only [leadingDigits, List.mem_cons, List.not_mem_nil, or_false] at hd
    rcases hd with rfl | rfl | rfl | rfl | rfl | rfl | rfl | rfl | rfl <;> rfl
  rw [hcons] at hwhole ⊢
  rw [hnumber]
  refine unsignedNumber?_of_wholePart? hwhole (valueIn_toDigits _) ?_
  rw [integerOf?, if_pos rfl, if_pos (Nat.succ_le_succ hn)]
  rfl

/-! ## Words -/

theorem isBare_ne {c : Char} (h : isBare c = true) (other : Char) (hother : isBare other = false) :
    c ≠ other := by
  rintro rfl
  rw [h] at hother
  cases hother

theorem isPlain_of_isBare {c : Char} (h : isBare c = true) : isPlain c = true := by
  have hrange : 45 ≤ c.toNat ∧ c.toNat ≤ 122 := by
    simp only [isBare, Char.isAlphanum, Char.isAlpha, Char.isUpper, Char.isLower, Char.isDigit,
      Bool.or_eq_true, Bool.and_eq_true, decide_eq_true_eq, ge_iff_le, UInt32.le_iff_toNat_le]
      at h
    rcases h with ((((h | h) | h) | rfl) | rfl)
    · exact ⟨Nat.le_trans (by decide) h.1, Nat.le_trans h.2 (by decide)⟩
    · exact ⟨Nat.le_trans (by decide) h.1, Nat.le_trans h.2 (by decide)⟩
    · exact ⟨Nat.le_trans (by decide) h.1, Nat.le_trans h.2 (by decide)⟩
    · decide
    · decide
  simp only [isPlain, Bool.or_eq_true, Bool.and_eq_true, decide_eq_true_eq]
  exact Or.inr ⟨by omega, by omega⟩

variable {s : String}

/-- A word starts with one of its characters. -/
theorem IsWord.exists_cons (h : IsWord s) :
    ∃ c cs, s.toList = c :: cs ∧ isBare c = true := by
  obtain ⟨hne, hbare⟩ := h
  cases hs : s.toList with
  | nil => exact absurd (String.toList_eq_nil_iff.mp hs) hne
  | cons c cs => exact ⟨c, cs, rfl, hbare c (hs ▸ List.mem_cons_self ..)⟩

/-- A bare key ends where the first character comes that is none of a word. -/
theorem keyPart?_word (h : IsWord s) {stop : Char} (hstop : isBare stop = false) :
    keyPart? (s.toList ++ stop :: rest) = some (s, stop :: rest) := by
  have htake : (s.toList ++ stop :: rest).takeWhile isBare = s.toList := by
    rw [List.takeWhile_append_of_pos h.2, List.takeWhile_cons_of_neg (by simp [hstop]),
      List.append_nil]
  have hdrop : (s.toList ++ stop :: rest).dropWhile isBare = stop :: rest := by
    rw [List.dropWhile_append_of_pos h.2, List.dropWhile_cons_of_neg (by simp [hstop])]
  obtain ⟨c, cs, hs, hc⟩ := h.exists_cons
  rw [hs, List.cons_append] at htake hdrop ⊢
  unfold keyPart?
  split
  · next heq => exact absurd (List.cons.inj heq).1 (isBare_ne hc _ (by decide))
  · next heq => exact absurd (List.cons.inj heq).1 (isBare_ne hc _ (by decide))
  · next heq =>
    obtain ⟨rfl, -⟩ := List.cons.inj heq
    rw [if_pos hc, htake, hdrop, ← hs, String.ofList_toList]
  · next heq => cases heq

theorem skipSpaces_word (h : IsWord s) (cs : List Char) :
    skipSpaces (s.toList ++ cs) = s.toList ++ cs := by
  obtain ⟨c, cs', hs, hc⟩ := h.exists_cons
  have hspace : isSpace c = false := by
    simp [isSpace, isBare_ne hc ' ' (by decide),
      isBare_ne hc '\t' (by decide)]
  rw [hs, List.cons_append, skipSpaces, List.dropWhile_cons_of_neg (by simp [hspace])]

/-- A key of one part, with blanks behind it. -/
theorem key?_word (h : IsWord s) {stop : Char} {cs : List Char} (hstop : isBare stop = false)
    (hrest : skipSpaces (stop :: rest) = cs) (hdot : cs.head? ≠ some '.') :
    key? maxDepth (s.toList ++ stop :: rest) = some ([s], cs) := by
  rw [maxDepth, key?, skipSpaces_word h, keyPart?_word h hstop, Option.bind_eq_bind,
    Option.bind_some]
  simp only [hrest]
  split
  · exact absurd rfl hdot
  · rfl

/-- Nothing in a word has to be escaped. -/
theorem escapedLine_word {cs : List Char} (h : ∀ c ∈ cs, isBare c = true) :
    ∀ fuel, cs.length < fuel → escapedLine fuel (cs ++ '"' :: rest) = some (cs, rest) := by
  induction cs with
  | nil =>
    intro fuel hfuel
    obtain ⟨fuel, rfl⟩ := Nat.exists_eq_succ_of_ne_zero (Nat.ne_of_gt hfuel)
    rfl
  | cons c cs ih =>
    intro fuel hfuel
    obtain ⟨fuel, rfl⟩ := Nat.exists_eq_succ_of_ne_zero (Nat.ne_of_gt (Nat.zero_lt_of_lt hfuel))
    have hc := h c (List.mem_cons_self ..)
    rw [List.cons_append, escapedLine]
    · rw [if_pos (isPlain_of_isBare hc), ih (fun c hc => h c (List.mem_cons_of_mem _ hc)) fuel
        (Nat.lt_of_succ_lt_succ hfuel), Option.map_some]
    · exact isBare_ne hc _ (by decide)
    · exact isBare_ne hc _ (by decide)

/-- A quoted word. -/
theorem text?_word (h : IsWord s) :
    text? ('"' :: (s.toList ++ '"' :: rest)) = some (s, rest) := by
  obtain ⟨c, cs, hs, hc⟩ := h.exists_cons
  have hline : lineText? ('"' :: (s.toList ++ '"' :: rest)) = some (s, rest) := by
    have hlong : s.toList.length < (s.toList ++ '"' :: rest).length + 1 := by
      simp only [List.length_append, List.length_cons]
      omega
    rw [lineText?, escapedLine_word h.2 _ hlong, Option.map_some]
    simp only [String.ofList_toList]
  rw [hs, List.cons_append] at hline ⊢
  unfold text?
  split
  · next heq => exact absurd (List.cons.inj (List.cons.inj heq).2).1 (isBare_ne hc _ (by decide))
  · next heq => cases heq
  · exact hline

/-! ## Rows -/

/-- A value behind its key is read as it was written. -/
theorem value?_write {v : Value} {written : String} (hplain : v.IsPlain)
    (h : v.write = .ok written) :
    value? maxDepth (skipSpaces (' ' :: (written.toList ++ '\n' :: rest))) =
      some (v, '\n' :: rest) := by
  cases hplain with
  | boolean b =>
    obtain rfl := Except.ok.inj h
    cases b <;> rfl
  | text hword =>
    obtain rfl := Except.ok.inj h
    have hopen (cs : List Char) : value? maxDepth (skipSpaces (' ' :: '"' :: cs)) =
        (text? ('"' :: cs)).map (Prod.map .text id) := rfl
    have hquoted (s : String) : ("\"" ++ s ++ "\"").toList ++ '\n' :: rest =
        '"' :: (s.toList ++ '"' :: '\n' :: rest) := by simp
    rw [hquoted, hopen, text?_word hword]
    rfl
  | integer n =>
    match n with
    | .ofNat n =>
      rw [Value.write] at h
      split at h
      · next hn =>
        obtain rfl := Except.ok.inj h
        rw [Nat.toList_repr, skipSpaces_digits fun _ => isDigit_of_mem_toDigits]
        exact value?_toDigits hn
      · cases h
    | .negSucc n =>
      rw [Value.write] at h
      split at h
      · next hn =>
        obtain rfl := Except.ok.inj h
        simp only [String.toList_append, Nat.toList_repr]
        exact value?_minus hn
      · cases h

/-- A row can be read: there is something on it, and it says what the line says. -/
structure IsRow (cs : List Char) (line : Line) : Prop where
  unmarked : cs.head? ≠ some '\uFEFF'
  start (rest : List Char) : skipSpaces (cs ++ '\n' :: rest) = cs ++ '\n' :: rest
  full (rest : List Char) : lineEnd? (cs ++ '\n' :: rest) = none
  line (rest : List Char) : line? (cs ++ '\n' :: rest) = some (line, '\n' :: rest)

theorem lineEnd?_cons {c : Char} {cs : List Char} (hstart : skipSpaces (c :: cs) = c :: cs)
    (hmark : c ≠ '#') (hend : c ≠ '\n') (hreturn : c ≠ '\r') : lineEnd? (c :: cs) = none := by
  have hcomment : skipComment (c :: cs) = c :: cs := by
    unfold skipComment
    split
    · next heq => exact absurd (List.cons.inj heq).1 hmark
    · rfl
  rw [lineEnd?, hstart, hcomment]
  simp only
  unfold newline?
  split
  · next heq => exact absurd (List.cons.inj heq).1 hend
  · next heq => exact absurd (List.cons.inj heq).1 hreturn
  · rfl

/-- The header of a section. -/
theorem isRow_header (h : IsWord s) : IsRow ('[' :: (s.toList ++ [']'])) (.table [s]) where
  unmarked := by simp
  start rest := rfl
  full rest := lineEnd?_cons rfl (by decide) (by decide) (by decide)
  line rest := by
    have hkey : key? maxDepth (s.toList ++ ']' :: '\n' :: rest) = some ([s], ']' :: '\n' :: rest) :=
      key?_word h (by decide) rfl (by simp)
    obtain ⟨c, cs, hs, hc⟩ := h.exists_cons
    have hcons : '[' :: (s.toList ++ [']']) ++ '\n' :: rest =
        '[' :: (s.toList ++ ']' :: '\n' :: rest) := by simp
    rw [hcons]
    unfold line?
    split
    · next heq =>
      rw [hs] at heq
      exact absurd (List.cons.inj (List.cons.inj heq).2).1 (isBare_ne hc _ (by decide))
    · next heq =>
      rw [← (List.cons.inj heq).2, hkey]
      rfl
    · next hopen => exact absurd rfl (hopen _)

/-- A field of a section. -/
theorem isRow_field {v : Value} {written : String} (h : IsWord s) (hplain : v.IsPlain)
    (hwrite : v.write = .ok written) :
    IsRow (s.toList ++ ' ' :: '=' :: ' ' :: written.toList) (.pair [s] v) where
  unmarked := by
    obtain ⟨c, cs, hs, hc⟩ := h.exists_cons
    simpa [hs] using isBare_ne hc '\uFEFF' (by decide)
  start rest := by rw [List.append_assoc]; exact skipSpaces_word h _
  full rest := by
    obtain ⟨c, cs, hs, hc⟩ := h.exists_cons
    have hstart := skipSpaces_word h (' ' :: '=' :: ' ' :: (written.toList ++ '\n' :: rest))
    rw [List.append_assoc]
    rw [hs, List.cons_append] at hstart
    rw [hs, List.cons_append]
    exact lineEnd?_cons hstart (isBare_ne hc _ (by decide)) (isBare_ne hc _ (by decide))
      (isBare_ne hc _ (by decide))
  line rest := by
    have hkey : key? maxDepth (s.toList ++ ' ' :: '=' :: ' ' :: (written.toList ++ '\n' :: rest)) =
        some ([s], '=' :: ' ' :: (written.toList ++ '\n' :: rest)) :=
      key?_word h (by decide) rfl (by simp)
    obtain ⟨c, cs, hs, hc⟩ := h.exists_cons
    have hne := isBare_ne hc '[' (by decide)
    have hcons : s.toList ++ ' ' :: '=' :: ' ' :: written.toList ++ '\n' :: rest =
        s.toList ++ ' ' :: '=' :: ' ' :: (written.toList ++ '\n' :: rest) := by simp
    rw [hcons]
    unfold line?
    split
    · next heq =>
      rw [hs] at heq
      exact absurd (List.cons.inj heq).1 hne
    · next heq =>
      rw [hs] at heq
      exact absurd (List.cons.inj heq).1 hne
    · rw [pair?, hkey]
      simp [value?_write hplain hwrite]

/-- A text of rows, with empty lines before some of them, and what the rows say. -/
inductive Rows : List Char → List Line → Prop
  | done : Rows [] []
  | blank {cs : List Char} {lines : List Line} (h : Rows cs lines) : Rows ('\n' :: cs) lines
  | row {row cs : List Char} {line : Line} {lines : List Line} (hrow : IsRow row line)
      (h : Rows cs lines) : Rows (row ++ '\n' :: cs) (line :: lines)

/-- Rows are read one by one. -/
theorem lines?_of_rows {cs : List Char} {lines : List Line} (h : Rows cs lines) :
    ∀ fuel, cs.length < fuel → lines? fuel cs = some lines := by
  induction h with
  | done =>
    intro fuel hfuel
    obtain ⟨fuel, rfl⟩ := Nat.exists_eq_succ_of_ne_zero (Nat.ne_of_gt hfuel)
    rfl
  | blank h ih =>
    intro fuel hfuel
    obtain ⟨fuel, rfl⟩ := Nat.exists_eq_succ_of_ne_zero (Nat.ne_of_gt (Nat.zero_lt_of_lt hfuel))
    exact ih fuel (Nat.lt_of_succ_lt_succ hfuel)
  | @row row cs line lines hrow h ih =>
    intro fuel hfuel
    obtain ⟨fuel, rfl⟩ := Nat.exists_eq_succ_of_ne_zero (Nat.ne_of_gt (Nat.zero_lt_of_lt hfuel))
    have hshort : cs.length < fuel := by
      rw [List.length_append, List.length_cons] at hfuel
      omega
    rw [lines?, hrow.start]
    split
    · next heq => simp at heq
    · rw [hrow.full]
      change ((line? (row ++ '\n' :: cs)).bind fun p => (lineEnd? p.2).bind fun cs =>
        (lines? fuel cs).bind fun lines => some (p.1 :: lines)) = _
      have hend : lineEnd? ('\n' :: cs) = some cs := rfl
      rw [hrow.line, Option.bind_some, hend, Option.bind_some, ih fuel hshort, Option.bind_some]

/-- No byte order mark stands in front of rows. -/
theorem Rows.unmarked {cs : List Char} {lines : List Line} (h : Rows cs lines) :
    cs.head? ≠ some '\uFEFF' := by
  cases h with
  | done => simp
  | blank h => simp
  | @row row _ _ _ hrow h =>
    cases row with
    | nil => simp
    | cons c row => exact hrow.unmarked

/-! ## What is written -/

def Value.fields : Value → Document
  | .table fields => fields
  | _ => []

variable {fields d : Document} {written : String}

/-- What the rows of a section say. -/
def fieldLines (fields : Document) : List Line := fields.map fun e => .pair [e.1] e.2

def sectionLines (d : Document) : List Line :=
  d.flatMap fun e => .table [e.1] :: fieldLines e.2.fields

theorem writeFields_cons {e : String × Value} : writeFields (e :: fields) = .ok written ↔
    ∃ first others, e.2.write = .ok first ∧ writeFields fields = .ok others ∧
      written = e.1 ++ " = " ++ first ++ "\n" ++ others := by
  cases hfirst : e.2.write <;> cases hothers : writeFields fields <;>
    simp [writeFields, hfirst, hothers, bind, Except.bind, pure, Except.pure, eq_comm]

theorem writeSection_table {name : String} :
    writeSection (name, .table fields) = .ok written ↔
      ∃ others, writeFields fields = .ok others ∧ written = "[" ++ name ++ "]\n" ++ others := by
  cases hothers : writeFields fields <;>
    simp [writeSection, hothers, bind, Except.bind, pure, Except.pure, eq_comm]

theorem rows_fields {cs : List Char} {lines : List Line} (hrows : Rows cs lines)
    (hword : ∀ e ∈ fields, IsWord e.1) (hplain : ∀ e ∈ fields, e.2.IsPlain) :
    ∀ {written : String}, writeFields fields = .ok written →
      Rows (written.toList ++ cs) (fieldLines fields ++ lines) := by
  induction fields with
  | nil =>
    intro written h
    obtain rfl := Except.ok.inj h
    exact hrows
  | cons e fields ih =>
    intro written h
    obtain ⟨first, others, hfirst, hothers, rfl⟩ := writeFields_cons.mp h
    obtain ⟨hword, hwords⟩ := List.forall_mem_cons.mp hword
    obtain ⟨hplain, hplains⟩ := List.forall_mem_cons.mp hplain
    have hrow := Rows.row (isRow_field hword hplain hfirst) (ih hwords hplains hothers)
    simpa [fieldLines] using hrow

theorem rows_section {name : String} {cs : List Char} {lines : List Line} (hrows : Rows cs lines)
    (hname : IsWord name) (hkeyed : fields.Keyed Value.IsPlain)
    (h : writeSection (name, .table fields) = .ok written) :
    Rows (written.toList ++ cs) (.table [name] :: fieldLines fields ++ lines) := by
  obtain ⟨others, hothers, rfl⟩ := writeSection_table.mp h
  have hrow := Rows.row (isRow_header hname) (rows_fields hrows hkeyed.word hkeyed.kind hothers)
  simpa using hrow

/-- A plain document is written in rows that say what is in it. -/
theorem rows_write (hword : ∀ e ∈ d, IsWord e.1) (hsection : ∀ e ∈ d, e.2.IsSection) :
    ∀ {written : String}, write d = .ok written → Rows written.toList (sectionLines d) := by
  induction d with
  | nil =>
    intro written h
    obtain rfl := Except.ok.inj h
    exact .done
  | cons e d ih =>
    intro written h
    obtain ⟨hname, hwords⟩ := List.forall_mem_cons.mp hword
    obtain ⟨⟨fields, htable, hkeyed⟩, hsections⟩ := List.forall_mem_cons.mp hsection
    obtain ⟨name, v⟩ := e
    obtain rfl : v = .table fields := htable
    match d with
    | [] =>
      have hrows := rows_section .done hname hkeyed h
      simpa [sectionLines, Value.fields] using hrows
    | e' :: d =>
      simp only [write, bind, Except.bind] at h
      split at h
      · cases h
      · next first hfirst =>
        split at h
        · cases h
        · next others hothers =>
          obtain rfl := Except.ok.inj h
          have hrows := rows_section (.blank (ih hwords hsections hothers)) hname hkeyed hfirst
          simpa [sectionLines, Value.fields] using hrows

/-! ## From rows to documents -/

/-- The entries under a header. -/
def fieldDrafts (fields : Document) : Drafts := fields.map fun e => (e.1, .value e.2)

def sectionDrafts (d : Document) : Drafts :=
  d.map fun e => (e.1, .table .header (fieldDrafts e.2.fields))

theorem finishEntries_fieldDrafts (fields : Document) :
    finishEntries (fieldDrafts fields) = fields := by
  induction fields with
  | nil => rfl
  | cons e fields ih => exact congrArg (e :: ·) ih

theorem finishEntries_sectionDrafts (hsection : ∀ e ∈ d, e.2.IsSection) :
    finishEntries (sectionDrafts d) = d := by
  induction d with
  | nil => rfl
  | cons e d ih =>
    obtain ⟨name, v⟩ := e
    obtain ⟨⟨fields, rfl, -⟩, hsections⟩ := List.forall_mem_cons.mp hsection
    rw [sectionDrafts, List.map_cons, finishEntries, ← sectionDrafts, ih hsections, Draft.finish,
      Value.fields, finishEntries_fieldDrafts]

variable {before inner : Drafts} {name : String}

theorem lookup_of_notMem (h : name ∉ before.map (·.1)) : before.lookup name = none :=
  List.lookup_eq_none_iff.mpr fun e he => bne_iff_ne.mpr fun heq =>
    h (List.mem_map.mpr ⟨e, he, heq.symm⟩)

theorem lookup_append_of_notMem (h : name ∉ before.map (·.1)) (draft : Draft) :
    (before ++ [(name, draft)]).lookup name = some draft := by
  rw [List.lookup_append, lookup_of_notMem h, Option.none_or, List.lookup_cons_self]

theorem put_append_of_notMem (h : name ∉ before.map (·.1)) (old draft : Draft) :
    Drafts.put name draft (before ++ [(name, old)]) = before ++ [(name, draft)] := by
  have hbefore : Drafts.put name draft before = before :=
    (List.map_congr_left fun e he => if_neg fun heq => h (List.mem_map.mpr ⟨e, he, heq⟩)).trans
      (List.map_id before)
  rw [Drafts.put, List.map_append, ← Drafts.put, hbefore, List.map_cons, if_pos rfl, List.map_nil]

/-- The rows below a header go into its table. -/
theorem extend_fields (hname : name ∉ before.map (·.1)) (hnodup : (fields.map (·.1)).Nodup) :
    ∀ inner : Drafts, (∀ e ∈ fields, e.1 ∉ inner.map (·.1)) →
      (fieldLines fields).foldlM Line.extend (before ++ [(name, .table .header inner)], [name]) =
        some (before ++ [(name, .table .header (inner ++ fieldDrafts fields))], [name]) := by
  induction fields with
  | nil => intro inner _; simp [fieldLines, fieldDrafts]
  | cons e fields ih =>
    intro inner hnew
    obtain ⟨hkey, hnew⟩ := List.forall_mem_cons.mp hnew
    obtain ⟨hfresh, hnodup⟩ := List.nodup_cons.mp hnodup
    have hstep : Line.extend (before ++ [(name, .table .header inner)], [name])
        (.pair [e.1] e.2) =
          some (before ++ [(name, .table .header (inner ++ [(e.1, .value e.2)]))], [name]) := by
      simp [Line.extend, Drafts.within, Drafts.assign, Drafts.add, lookup_append_of_notMem hname,
        put_append_of_notMem hname, lookup_of_notMem hkey]
    have hrest := ih hnodup (inner ++ [(e.1, .value e.2)]) fun e' he => by
      have hne : e'.1 ≠ e.1 := fun heq => hfresh (List.mem_map.mpr ⟨e', he, heq⟩)
      simpa [hne] using hnew e' he
    rw [fieldLines, List.map_cons, ← fieldLines, List.foldlM_cons, hstep]
    exact hrest.trans (by simp [fieldDrafts])

/-- Each section becomes one more table. -/
theorem extend_sections (hnodup : (d.map (·.1)).Nodup) (hsection : ∀ e ∈ d, e.2.IsSection) :
    ∀ (before : Drafts) (path : List String), (∀ e ∈ d, e.1 ∉ before.map (·.1)) →
      ∃ path', (sectionLines d).foldlM Line.extend (before, path) =
        some (before ++ sectionDrafts d, path') := by
  induction d with
  | nil => intro before path _; exact ⟨path, by simp [sectionLines, sectionDrafts]⟩
  | cons e d ih =>
    intro before path hnew
    obtain ⟨hname, hnew⟩ := List.forall_mem_cons.mp hnew
    obtain ⟨hfresh, hnodup⟩ := List.nodup_cons.mp hnodup
    obtain ⟨⟨fields, hfields, hkeyed⟩, hsections⟩ := List.forall_mem_cons.mp hsection
    have hopen : Line.extend (before, path) (.table [e.1]) =
        some (before ++ [(e.1, .table .header [])], [e.1]) := by
      simp [Line.extend, Drafts.openTable, Drafts.within, Drafts.add, lookup_of_notMem hname]
    have hfill := extend_fields hname hkeyed.nodup [] (by simp)
    obtain ⟨path', hrest⟩ := ih hnodup hsections
      (before ++ [(e.1, .table .header (fieldDrafts fields))]) [e.1] fun e' he => by
        have hne : e'.1 ≠ e.1 := fun heq => hfresh (List.mem_map.mpr ⟨e', he, heq⟩)
        simpa [hne] using hnew e' he
    refine ⟨path', ?_⟩
    rw [sectionLines, List.flatMap_cons, ← sectionLines, List.cons_append, List.foldlM_cons, hopen,
      Option.bind_eq_bind, Option.bind_some, List.foldlM_append, hfields, Value.fields, hfill]
    exact hrest.trans (by simp [sectionDrafts, hfields, Value.fields])

/-- **What is written is read back.** -/
theorem read?_write (hplain : d.IsPlain) (h : write d = .ok written) : read? written = some d := by
  have hrows := rows_write hplain.word hplain.kind h
  obtain ⟨path, hextend⟩ :=
    extend_sections hplain.nodup hplain.kind [] [] (by simp)
  rw [List.nil_append] at hextend
  have hlines := lines?_of_rows hrows (written.toList.length + 1) (Nat.lt_succ_self _)
  unfold read?
  split
  · next heq => exact absurd (by rw [heq]; rfl) hrows.unmarked
  · simp [hlines, hextend, finishEntries_sectionDrafts hplain.kind]

/-! ## What can be written -/

theorem Value.write_ok_iff {v : Value} (h : v.IsPlain) :
    (∃ written, v.write = .ok written) ↔ v.Fits := by
  cases h with
  | text hword => exact iff_of_true ⟨_, rfl⟩ (.text _)
  | boolean b => exact iff_of_true ⟨_, rfl⟩ (.boolean b)
  | integer n =>
    rw [Value.fits_integer_iff]
    cases n with
    | ofNat n =>
      rw [Value.write, Int.ofNat_eq_natCast]
      split
      · next hn => exact iff_of_true ⟨_, rfl⟩ (by omega)
      · next hn => exact iff_of_false (fun h => nomatch h) (by omega)
    | negSucc n =>
      rw [Value.write]
      split
      · next hn => exact iff_of_true ⟨_, rfl⟩ (by omega)
      · next hn => exact iff_of_false (fun h => nomatch h) (by omega)

theorem writeFields_ok_iff (hplain : ∀ e ∈ fields, e.2.IsPlain) :
    (∃ written, writeFields fields = .ok written) ↔ fields.Fits := by
  induction fields with
  | nil => exact iff_of_true ⟨_, rfl⟩ fun _ he => (by cases he)
  | cons e fields ih =>
    obtain ⟨hfirst, hothers⟩ := List.forall_mem_cons.mp hplain
    rw [Document.fits_cons_iff, ← ih hothers, ← Value.write_ok_iff hfirst]
    simp only [writeFields_cons]
    constructor
    · rintro ⟨_, first, others, hfirst, hothers, -⟩
      exact ⟨⟨first, hfirst⟩, others, hothers⟩
    · rintro ⟨⟨first, hfirst⟩, others, hothers⟩
      exact ⟨_, first, others, hfirst, hothers, rfl⟩

theorem writeSection_ok_iff {name : String} (hkeyed : fields.Keyed Value.IsPlain) :
    (∃ written, writeSection (name, .table fields) = .ok written) ↔ (Value.table fields).Fits := by
  rw [Value.fits_table_iff, ← writeFields_ok_iff hkeyed.kind]
  simp only [writeSection_table]
  constructor
  · rintro ⟨_, others, hothers, -⟩
    exact ⟨others, hothers⟩
  · rintro ⟨others, hothers⟩
    exact ⟨_, others, hothers, rfl⟩

theorem write_cons {e : String × Value} : (∃ written, write (e :: d) = .ok written) ↔
    (∃ first, writeSection e = .ok first) ∧ ∃ others, write d = .ok others := by
  cases d with
  | nil => exact (and_iff_left ⟨_, rfl⟩).symm
  | cons e' d =>
    cases hfirst : writeSection e <;> cases hothers : write (e' :: d) <;>
      simp [write, hfirst, hothers, bind, Except.bind, pure, Except.pure]

/-- **Only numbers without room are refused.** -/
theorem write_ok_iff (hsection : ∀ e ∈ d, e.2.IsSection) :
    (∃ written, write d = .ok written) ↔ d.Fits := by
  induction d with
  | nil => exact iff_of_true ⟨_, rfl⟩ fun _ he => (by cases he)
  | cons e d ih =>
    obtain ⟨⟨fields, hfields, hkeyed⟩, hsections⟩ := List.forall_mem_cons.mp hsection
    obtain ⟨name, v⟩ := e
    obtain rfl : v = .table fields := hfields
    rw [Document.fits_cons_iff, ← ih hsections, write_cons, writeSection_ok_iff hkeyed]

/-- All that is relied on. -/
theorem lawful : (⟨read?, write⟩ : Library).Lawful where
  fits_of_read? := read?_fits
  write_ok_iff h := write_ok_iff h.kind
  read?_of_write := read?_write

end Toml

end ArithTree
