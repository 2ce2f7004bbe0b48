/-!
# The environment

The variables of a run as the system hands them over: names and values are bytes, and need not be
text.
-/

namespace ArithTree

/-- A name or a value: a text, or bytes that are none. -/
inductive OsText where
  | text (s : String)
  | bytes (bs : List UInt8) (invalid : String.fromUTF8? bs.toByteArray = none)
  deriving DecidableEq

namespace OsText

def ofBytes (bs : List UInt8) : OsText :=
  match h : String.fromUTF8? bs.toByteArray with
  | some s => .text s
  | none => .bytes bs h

def text? : OsText → Option String
  | .text s => some s
  | .bytes _ _ => none

/-- A text to show, with a mark for every byte that is no ASCII. -/
def shown : OsText → String
  | .text s => s
  | .bytes bs _ =>
    String.ofList (bs.map fun byte => if byte < 128 then Char.ofNat byte.toNat else '\uFFFD')

end OsText

/-- Variables by name. -/
abbrev Variables := List (String × String)

/-- All variables in the order in which the system lists them. -/
abbrev Environment := List (OsText × OsText)

namespace Environment

/-- The value of a variable. Of two with one name the first counts. -/
def value? (env : Environment) (name : String) : Option OsText := env.lookup (.text name)

/-- The value of a variable, if it is text. -/
def text? (env : Environment) (name : String) : Option String := (env.value? name).bind OsText.text?

/-- A variable as text. -/
def textPair? (v : OsText × OsText) : Option (String × String) := do
  return (← v.1.text?, ← v.2.text?)

/-- The variables that are text. -/
def textPairs (env : Environment) : Variables := env.filterMap textPair?

/-- Every variable is text. -/
def IsText (env : Environment) : Prop := ∀ v ∈ env, (textPair? v).isSome = true

end Environment

end ArithTree
