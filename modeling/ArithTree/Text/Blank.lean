/-!
# Blank characters

The characters of the Unicode property White_Space. Blanks inside an expression mean nothing and are
taken out; around a path, a format name or a file they are trimmed.
-/

namespace ArithTree.Text

/-- Membership in the Unicode property White_Space. The separators U+001C to U+001F, the zero width
space and the byte order mark are not in it. -/
def isBlank (c : Char) : Bool :=
  let n := c.toNat
  (9 ≤ n && n ≤ 13) || n == 0x20 || n == 0x85 || n == 0xA0 || n == 0x1680 ||
    (0x2000 ≤ n && n ≤ 0x200A) || n == 0x2028 || n == 0x2029 || n == 0x202F || n == 0x205F ||
    n == 0x3000

/-- All characters but the blank ones, in order. -/
def withoutBlanks (cs : List Char) : List Char := cs.filter fun c => !isBlank c

/-- Drops the blanks at both ends and keeps those between. -/
def trimBlanks (cs : List Char) : List Char :=
  ((cs.dropWhile isBlank).reverse.dropWhile isBlank).reverse

/-- `trimBlanks` on texts. -/
def trim (s : String) : String := String.ofList (trimBlanks s.toList)

theorem not_isBlank_of_mem_withoutBlanks (cs : List Char) (c : Char) (h : c ∈ withoutBlanks cs) :
    isBlank c = false := by
  simpa using (List.mem_filter.mp h).2

/-- No digit and no small letter is blank, nor anything between them. -/
theorem not_isBlank_of_toNat {c : Char} (hlo : 48 ≤ c.toNat) (hhi : c.toNat ≤ 122) :
    isBlank c = false := by
  simp only [isBlank, Bool.or_eq_false_iff, Bool.and_eq_false_iff, decide_eq_false_iff_not,
    beq_eq_false_iff_ne]
  omega

/-- Without blanks there is nothing to trim. -/
theorem trimBlanks_eq_self {cs : List Char} (h : ∀ c ∈ cs, isBlank c = false) :
    trimBlanks cs = cs := by
  have keep : ∀ l : List Char, (∀ c ∈ l, isBlank c = false) → l.dropWhile isBlank = l := by
    intro l hl
    cases l with
    | nil => rfl
    | cons c l => simp [hl c (List.mem_cons_self ..)]
  rw [trimBlanks, keep cs h, keep cs.reverse fun c hc => h c (List.mem_reverse.mp hc),
    List.reverse_reverse]

theorem length_withoutBlanks_le (cs : List Char) : (withoutBlanks cs).length ≤ cs.length :=
  List.length_filter_le _ _

end ArithTree.Text
