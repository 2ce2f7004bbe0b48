import ArithTree.Text.Numeral

/-!
# Key paths

A setting is named by a path: a name, then names after a dot and positions in brackets, in any
number. A variable names one by `EXPRTREE_` in letters of any case and the path in small letters,
with two underscores for a dot.
-/

namespace ArithTree

/-- A step into a table or into a list. -/
inductive KeyStep where
  | member (name : String)
  | position (index : Int)
  deriving DecidableEq, Repr

abbrev KeyPath := List KeyStep

namespace KeyPath

/-- A path of names alone. -/
def ofNames (names : List String) : KeyPath := names.map .member

/-! ## Reading -/

def isNameChar (c : Char) : Bool := c.isAlphanum || c = ' ' || c = '_' || c = '-'

/-- A name has at least one character. -/
def name? (cs : List Char) : Option (String × List Char) :=
  match cs.takeWhile isNameChar with
  | [] => none
  | name => some (String.ofList name, cs.dropWhile isNameChar)

def isGap (c : Char) : Bool := c = ' ' || c = '\t'

/-- A position up to its closing bracket: digits, with a minus or without a sign, between gaps. -/
def position? (cs : List Char) : Option (Int × List Char) :=
  let inside := ((cs.takeWhile (· ≠ ']')).dropWhile isGap).reverse.dropWhile isGap
  match inside.reverse, cs.dropWhile (· ≠ ']') with
  | '+' :: _, _ => none
  | numeral, ']' :: rest => (Text.Numeral.signed? numeral).map (·, rest)
  | _, _ => none

/-- The steps after the first, each at least one character long. -/
def steps? : Nat → List Char → Option KeyPath
  | _, [] => some []
  | fuel + 1, '.' :: cs => do
    let (name, cs) ← name? cs
    return .member name :: (← steps? fuel cs)
  | fuel + 1, '[' :: cs => do
    let (index, cs) ← position? cs
    return .position index :: (← steps? fuel cs)
  | _, _ => none

/-- Reads a path. All of the text has to belong to it. -/
def read? (text : String) : Option KeyPath := do
  let (name, cs) ← name? text.toList
  return .member name :: (← steps? cs.length cs)

/-! ## Variables -/

/-- Two underscores stand for a dot. -/
def dotted : List Char → List Char
  | '_' :: '_' :: cs => '.' :: dotted cs
  | c :: cs => c :: dotted cs
  | [] => []

/-- The small letter for a capital one. The Kelvin sign is a capital k too. -/
def lowered (c : Char) : Char := if c = '\u212A' then 'k' else c.toLower

/-- The path that a variable names, if it names one. What is no path is a name as a whole. -/
def ofVariable? (name : String) : Option KeyPath :=
  let lower := name.toList.map lowered
  let marker := "exprtree_".toList
  if marker.isPrefixOf lower then
    let key := String.ofList (dotted (lower.drop marker.length))
    some ((read? key).getD (ofNames [key]))
  else none

/-- The key leads through the names, and is in small letters as all keys of variables are. -/
def IsKey (key : String) (names : List String) : Prop :=
  read? key = some (ofNames names) ∧ ∀ c ∈ key.toList, c.isUpper = false

/-! ## How paths lie to each other -/

/-- The second path is the first or leads to something under a name in it. -/
def IsSectionOf (path path' : KeyPath) : Prop :=
  path = path' ∨ ∃ name rest, path' = path ++ .member name :: rest

/-- The path parts from the names at one of them. -/
def Passes : KeyPath → List String → Prop
  | .member name' :: path, name :: names => name' ≠ name ∨ Passes path names
  | _, _ => False

/-- The path needs a list where the names need a table or a value. -/
def Displaces : KeyPath → List String → Prop
  | .position _ :: _, _ => True
  | .member name' :: path, name :: names => name' = name ∧ Displaces path names
  | _, _ => False

end KeyPath

end ArithTree
