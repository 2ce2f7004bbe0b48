import ArithTree.Text.Numeral

/-!
# Literals

The leaves of an expression: unsigned whole numbers below `2 ^ 63` and one-letter names. A literal
keeps the token as it was written, so `007` stays `007`; its value is a function of the token, so
two literals with one text are equal.
-/

namespace ArithTree

/-- What a literal token stands for. -/
inductive LiteralValue where
  | numeric (value : Nat)
  | identifier (letter : Char)
  deriving DecidableEq, Repr

/-- Reads a token: one letter from `a` to `z`, or digits with a value of at most `2 ^ 63 - 1`.
Signs, letters beside digits, and digits of other scripts are refused. -/
def LiteralValue.ofToken? (token : List Char) : Option LiteralValue :=
  match token with
  | [c] =>
    if 'a' ≤ c ∧ c ≤ 'z' then some (.identifier c)
    else (Text.Numeral.digitsUpTo? Text.Numeral.maxSigned [c]).map .numeric
  | _ => (Text.Numeral.digitsUpTo? Text.Numeral.maxSigned token).map .numeric

/-- A token together with the value it reads as. -/
structure Literal where
  text : String
  value : LiteralValue
  reads : LiteralValue.ofToken? text.toList = some value
  deriving DecidableEq

namespace Literal

/-- The literal written as `text`, if the text is a literal token. -/
def parse? (text : String) : Option Literal :=
  match h : LiteralValue.ofToken? text.toList with
  | some value => some ⟨text, value, h⟩
  | none => none

/-- `parse?` on a run of characters. -/
def ofChars? (token : List Char) : Option Literal := parse? (String.ofList token)

def isNumeric (l : Literal) : Bool :=
  match l.value with
  | .numeric _ => true
  | .identifier _ => false

/-- The text decides the literal. -/
@[ext] theorem ext_text {a b : Literal} (h : a.text = b.text) : a = b := by
  cases a with
  | mk ta va ha =>
    cases b with
    | mk tb vb hb =>
      simp only at h
      subst h
      have : va = vb := Option.some.inj (ha.symm.trans hb)
      subst this
      rfl

theorem text_of_parse? {text : String} {l : Literal} (h : parse? text = some l) :
    l.text = text := by
  unfold parse? at h
  split at h
  · simp only [Option.some.injEq] at h
    rw [← h]
  · cases h

theorem parse?_text (l : Literal) : parse? l.text = some l := by
  unfold parse?
  split
  · exact congrArg some (ext_text rfl)
  · next h => rw [l.reads] at h; cases h

end Literal

end ArithTree
