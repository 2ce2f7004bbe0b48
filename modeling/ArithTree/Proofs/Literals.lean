import ArithTree.Node
import ArithTree.Proofs.Grammar
import Mathlib.Data.Nat.Digits.Defs
import Mathlib.Tactic.Ring

/-!
# The language of literals

Which tokens are literals, and what they stand for (`ofToken?_eq_some_iff`). A number counts its
digits by their places (`placeValue`), so only its value is bounded and zeros in front of it do not
matter (`Denotes.zeros`). Read digit by digit into a signed machine word, with every product and
every sum checked, a number gives the same value or, exactly where that is out of range, nothing
(`readWord?_eq_some_iff`).
-/

namespace ArithTree

namespace Text.Numeral

/-! ## Values -/

def digitValue (c : Char) : Nat := c.toNat - '0'.toNat

/-- The value of digits by their places: the last one counts once, the one before it ten times, and
so on. -/
def placeValue (digits : List Char) : Nat := Nat.ofDigits 10 (digits.reverse.map digitValue)

theorem placeValue_cons (c : Char) (cs : List Char) :
    placeValue (c :: cs) = digitValue c * 10 ^ cs.length + placeValue cs := by
  unfold placeValue
  rw [List.reverse_cons, List.map_append, Nat.ofDigits_append, List.map_singleton,
    Nat.ofDigits_singleton, List.length_map, List.length_reverse]
  ring

/-- Shifting in one digit after the other counts each by its place. -/
theorem ofDigitChars_eq (cs : List Char) :
    ∀ start, Nat.ofDigitChars 10 cs start = start * 10 ^ cs.length + placeValue cs := by
  induction cs with
  | nil =>
    intro start
    rw [List.length_nil, Nat.pow_zero, Nat.mul_one]
    rfl
  | cons c cs ih =>
    intro start
    rw [Nat.ofDigitChars_cons, ih, placeValue_cons, List.length_cons, ← digitValue]
    ring

theorem placeValue_zeros (zeros : Nat) (cs : List Char) :
    placeValue (List.replicate zeros '0' ++ cs) = placeValue cs := by
  induction zeros with
  | zero => rfl
  | succ zeros ih =>
    have hzero : digitValue '0' = 0 := rfl
    rw [List.replicate_succ, List.cons_append, placeValue_cons, ih, hzero, Nat.zero_mul,
      Nat.zero_add]

theorem isDigit_iff (c : Char) : c.isDigit = true ↔ '0' ≤ c ∧ c ≤ '9' := by
  rw [Char.isDigit, Bool.and_eq_true, decide_eq_true_eq, decide_eq_true_eq]
  exact Iff.rfl

/-! ## Machine words -/

/-- The signed machine word with this value, if there is one. -/
def word? (exact : Int) : Option Int64 :=
  if -2 ^ 63 ≤ exact ∧ exact < 2 ^ 63 then some (.ofInt exact) else none

theorem word?_eq_some_iff (exact : Int) (w : Int64) : word? exact = some w ↔ w.toInt = exact := by
  have hleast := w.le_toInt
  have hgreatest := w.toInt_lt
  unfold word?
  split_ifs with h
  · rw [Option.some.injEq, ← Int64.toInt_inj, Int64.toInt_ofInt_of_le h.1 h.2, eq_comm]
  · exact iff_of_false nofun (by omega)

theorem exists_word (n : Int) (hleast : 0 ≤ n) (hgreatest : n < 2 ^ 63) :
    ∃ w : Int64, w.toInt = n :=
  ⟨.ofInt n, Int64.toInt_ofInt_of_le (by omega) hgreatest⟩

/-- The number read so far with one digit more: ten times as much, and then the digit. Neither of
the two steps may leave the range of a word. -/
def shiftIn? (read : Int64) (c : Char) : Option Int64 := do
  let tens ← word? (read.toInt * 10)
  word? (tens.toInt + digitValue c)

/-- Reads a number into a word, digit by digit. -/
def readWord? (digits : List Char) : Option Int64 := digits.foldlM shiftIn? 0

/-- A digit is shifted in exactly if the result fits: where it does, the product has fitted
before. -/
theorem shiftIn?_eq_some_iff {read : Int64} (hread : 0 ≤ read.toInt) (c : Char) (w : Int64) :
    shiftIn? read c = some w ↔ w.toInt = read.toInt * 10 + digitValue c := by
  simp only [shiftIn?, Option.bind_eq_bind, Option.bind_eq_some_iff, word?_eq_some_iff]
  constructor
  · rintro ⟨tens, htens, hw⟩
    rw [hw, htens]
  · intro hw
    have hgreatest := w.toInt_lt
    obtain ⟨tens, htens⟩ := exists_word (read.toInt * 10) (by omega) (by omega)
    exact ⟨tens, htens, by rw [hw, htens]⟩

/-- Shifting in digits gives nothing exactly where the whole value does not fit. A number that has
grown too large stays so with every further digit. -/
theorem foldlM_shiftIn?_eq_some_iff (w : Int64) (cs : List Char) : ∀ read : Int64, 0 ≤ read.toInt →
    (cs.foldlM shiftIn? read = some w ↔
      w.toInt = read.toInt * 10 ^ cs.length + placeValue cs) := by
  induction cs with
  | nil =>
    intro read _
    rw [List.foldlM_nil, List.length_nil, Int.pow_zero, Int.mul_one]
    change some read = some w ↔ w.toInt = read.toInt + 0
    rw [Int.add_zero, Option.some.injEq, Int64.toInt_inj, eq_comm]
  | cons c cs ih =>
    intro read hread
    have hvalue : read.toInt * 10 ^ (c :: cs).length + placeValue (c :: cs) =
        (read.toInt * 10 + digitValue c) * 10 ^ cs.length + placeValue cs := by
      rw [placeValue_cons, List.length_cons]
      push_cast
      ring
    rw [List.foldlM_cons, hvalue]
    simp only [Option.bind_eq_bind, Option.bind_eq_some_iff, shiftIn?_eq_some_iff hread]
    constructor
    · rintro ⟨next, hnext, hrest⟩
      rw [← hnext]
      exact (ih next (by omega)).mp hrest
    · intro hw
      have hone : (1 : Int) ≤ 10 ^ cs.length := Int.add_one_le_iff.mpr (Int.pow_pos (by decide))
      have hgrown : read.toInt * 10 + digitValue c ≤
          (read.toInt * 10 + digitValue c) * 10 ^ cs.length :=
        le_mul_of_one_le_right (by omega) hone
      have hgreatest := w.toInt_lt
      obtain ⟨next, hnext⟩ := exists_word (read.toInt * 10 + digitValue c) (by omega) (by omega)
      exact ⟨next, hnext, (ih next (by omega)).mpr (by rw [hnext, hw])⟩

theorem readWord?_eq_some_iff (digits : List Char) (w : Int64) :
    readWord? digits = some w ↔ w.toInt = placeValue digits := by
  rw [readWord?, foldlM_shiftIn?_eq_some_iff w digits 0 (by decide)]
  simp

end Text.Numeral

open Text.Numeral

/-! ## Tokens -/

/-- What a token stands for: a letter for itself, and digits for their value, if it is below `2 ^
63`. -/
inductive Denotes : List Char → LiteralValue → Prop
  | letter {c : Char} : 'a' ≤ c → c ≤ 'z' → Denotes [c] (.identifier c)
  | number {digits : List Char} : digits ≠ [] → (∀ c ∈ digits, '0' ≤ c ∧ c ≤ '9') →
      placeValue digits ≤ 2 ^ 63 - 1 → Denotes digits (.numeric (placeValue digits))

/-- Zeros in front of a number do not matter, however many. -/
theorem Denotes.zeros {digits : List Char} {n : Nat} (h : Denotes digits (.numeric n))
    (zeros : Nat) : Denotes (List.replicate zeros '0' ++ digits) (.numeric n) := by
  cases h with
  | number hne hdigits hsmall =>
    rw [← placeValue_zeros zeros] at hsmall ⊢
    refine .number (by simp [hne]) (fun c hc => ?_) hsmall
    rcases List.mem_append.mp hc with hzero | hc
    · rw [List.eq_of_mem_replicate hzero]
      decide
    · exact hdigits c hc

/-- The numbers among the tokens. -/
theorem digitsUpTo?_eq_some_iff_denotes (token : List Char) (n : Nat) :
    digitsUpTo? maxSigned token = some n ↔ Denotes token (.numeric n) := by
  rw [Parser.digitsUpTo?_eq_some_iff, ofDigitChars_eq, Nat.zero_mul, Nat.zero_add]
  simp only [isDigit_iff]
  constructor
  · rintro ⟨hne, hdigits, rfl, hsmall⟩
    exact .number hne hdigits hsmall
  · rintro (_ | ⟨hne, hdigits, hsmall⟩)
    exact ⟨hne, hdigits, rfl, hsmall⟩

theorem not_letter_of_digit {c : Char} (h : '0' ≤ c ∧ c ≤ '9') : ¬ 'a' ≤ c := fun ha =>
  absurd (Char.le_trans ha h.2) (by decide)

/-- Where a token is not a letter, only its digits count. -/
theorem map_numeric_eq_some_iff {token : List Char}
    (hletter : ∀ c, token = [c] → ¬ ('a' ≤ c ∧ c ≤ 'z')) (value : LiteralValue) :
    (digitsUpTo? maxSigned token).map .numeric = some value ↔ Denotes token value := by
  rw [Option.map_eq_some_iff]
  simp only [digitsUpTo?_eq_some_iff_denotes]
  constructor
  · rintro ⟨n, hn, rfl⟩
    exact hn
  · intro h
    cases h with
    | @letter c hlo hhi => exact absurd ⟨hlo, hhi⟩ (hletter c rfl)
    | number hne hdigits hsmall => exact ⟨_, .number hne hdigits hsmall, rfl⟩

/-- **A token is read as what it stands for.** -/
theorem ofToken?_eq_some_iff (token : List Char) (value : LiteralValue) :
    LiteralValue.ofToken? token = some value ↔ Denotes token value := by
  unfold LiteralValue.ofToken?
  split
  · next c =>
    split_ifs with hletter
    · rw [Option.some.injEq]
      constructor
      · rintro rfl
        exact .letter hletter.1 hletter.2
      · intro h
        cases h with
        | letter _ _ => rfl
        | number _ hdigits _ =>
          exact absurd hletter.1 (not_letter_of_digit (hdigits c (List.mem_singleton_self c)))
    · refine map_numeric_eq_some_iff (fun d hd => ?_) value
      obtain rfl : c = d := List.singleton_inj.mp hd
      exact hletter
  · next hno => exact map_numeric_eq_some_iff (fun c hc => absurd hc (hno c)) value

theorem Literal.map_value_parse? (text : String) :
    (Literal.parse? text).map Literal.value = LiteralValue.ofToken? text.toList := by
  unfold Literal.parse?
  split
  · next value h => exact h.symm
  · next h => exact h.symm

/-- Digits that are read into a word are a number with the value of the word. -/
theorem denotes_iff_readWord? {digits : List Char} (hne : digits ≠ [])
    (hdigits : ∀ c ∈ digits, '0' ≤ c ∧ c ≤ '9') (value : LiteralValue) : Denotes digits value ↔
      ∃ w, readWord? digits = some w ∧ LiteralValue.numeric w.toInt.toNat = value := by
  simp only [readWord?_eq_some_iff]
  constructor
  · intro h
    cases h with
    | @letter c hlo hhi =>
      exact absurd hlo (not_letter_of_digit (hdigits c (List.mem_singleton_self c)))
    | number _ _ hsmall =>
      obtain ⟨w, hw⟩ := exists_word (placeValue digits) (by omega) (by omega)
      exact ⟨w, hw, by rw [hw, Int.toNat_natCast]⟩
  · rintro ⟨w, hw, rfl⟩
    have hgreatest := w.toInt_lt
    rw [hw, Int.toNat_natCast]
    exact .number hne hdigits (by omega)

/-- **Literals are the tokens of the language.** A text is a literal exactly if it is a token that
stands for something, and this is its value. It is kept and shown as it was written. Digits are a
literal exactly if no step of reading them into a signed machine word leaves its range, and then the
word is the value. Any number of zeros may stand in front. -/
theorem literals_denote (text : String) :
    ((Literal.parse? text).isSome = true ↔ ∃ value, Denotes text.toList value) ∧
    (∀ value, (Literal.parse? text).map Literal.value = some value ↔ Denotes text.toList value) ∧
    (∀ l, Literal.parse? text = some l → l.text = text ∧ (Label.literal l).text = text) ∧
    (text.toList ≠ [] → (∀ c ∈ text.toList, '0' ≤ c ∧ c ≤ '9') →
      (Literal.parse? text).map Literal.value =
        (readWord? text.toList).map fun w => .numeric w.toInt.toNat) ∧
    (∀ zeros n, Denotes text.toList (.numeric n) →
      (Literal.parse? (String.ofList (List.replicate zeros '0' ++ text.toList))).map
        Literal.value = some (.numeric n)) := by
  have hread := Literal.map_value_parse? text
  refine ⟨?_, fun value => ?_, fun l hl => ?_, fun hne hdigits => Option.ext fun value => ?_,
    fun zeros n hn => ?_⟩
  · rw [← Option.isSome_map (f := Literal.value), hread, Option.isSome_iff_exists]
    simp only [ofToken?_eq_some_iff]
  · rw [hread, ofToken?_eq_some_iff]
  · have htext := Literal.text_of_parse? hl
    exact ⟨htext, htext⟩
  · rw [hread, ofToken?_eq_some_iff, denotes_iff_readWord? hne hdigits, Option.map_eq_some_iff]
  · rw [Literal.map_value_parse?, String.toList_ofList, ofToken?_eq_some_iff]
    exact hn.zeros zeros

/-- The largest number is read, behind zeros too, and the next one is not; a line break is no part
of a token. -/
theorem literals_denote_largest :
    (Literal.parse? "9223372036854775807").map Literal.value = some (.numeric (2 ^ 63 - 1)) ∧
    (Literal.parse? (String.ofList (List.replicate 64 '0' ++ "9223372036854775807".toList))).map
      Literal.value = some (.numeric (2 ^ 63 - 1)) ∧
    (Literal.parse? "9223372036854775808").map Literal.value = none ∧
    (Literal.parse? "x").map Literal.value = some (.identifier 'x') ∧
    ¬ ∃ value, Denotes "7\n".toList value := by
  obtain ⟨-, hvalue, -, hlargest, hzeros⟩ := literals_denote "9223372036854775807"
  obtain ⟨-, -, -, hnext, -⟩ := literals_denote "9223372036854775808"
  obtain ⟨-, hletter, -⟩ := literals_denote "x"
  obtain ⟨hline, -⟩ := literals_denote "7\n"
  simp only [← isDigit_iff] at hlargest hnext
  have hread : (Literal.parse? "9223372036854775807").map Literal.value =
      some (.numeric (2 ^ 63 - 1)) := by
    rw [hlargest (by decide +kernel) (List.all_eq_true.mp (by decide +kernel))]
    decide +kernel
  refine ⟨hread, hzeros 64 _ ((hvalue _).mp hread), ?_,
    (hletter _).mpr (.letter (by decide) (by decide)), fun h => ?_⟩
  · rw [hnext (by decide +kernel) (List.all_eq_true.mp (by decide +kernel))]
    decide +kernel
  · exact absurd (hline.mpr h) (by decide +kernel)

end ArithTree
