import ArithTree.Settings.Reader
import ArithTree.Text.Numeral

/-!
# Settings as a tree

A reader of the environment that sets the keys in the order in which the variables are listed.
Setting a key makes the tables and lists on its way, in place of what was there in another form. A
list grows to have the position asked for. A position that counts from the end has to be there
already.
-/

namespace ArithTree

inductive KeyTree where
  | empty
  | text (s : String)
  | table (fields : List (String × KeyTree))
  /-- A list of so many items, of which those that are not empty are kept by position. -/
  | list (length : Nat) (items : List (Nat × KeyTree))

namespace KeyTree

/-- The most items that a list has room for. -/
def maxItems : Nat := 0x155555555555555

def fields : KeyTree → List (String × KeyTree)
  | .table fields => fields
  | _ => []

def items : KeyTree → Nat × List (Nat × KeyTree)
  | .list length items => (length, items)
  | _ => (0, [])

/-- Where a position is in a list, which may have to grow for it. -/
def place? (length : Nat) : Int → Option Nat
  | .ofNat n => if n < maxItems then some n else none
  | .negSucc n => if n < length then some (length - (n + 1)) else none

/-- Puts a value in front of the others for its key. -/
def put {α : Type} [BEq α] (key : α) (tree : KeyTree) (entries : List (α × KeyTree)) :
    List (α × KeyTree) :=
  (key, tree) :: entries.filter fun e => e.1 != key

/-- The tree with a text at the end of a path, unless a position on it is out of reach. -/
def set (text : String) : KeyPath → KeyTree → Option KeyTree
  | [], _ => some (.text text)
  | .member name :: path, tree => do
    let inner ← set text path ((tree.fields.lookup name).getD .empty)
    return .table (put name inner tree.fields)
  | .position index :: path, tree => do
    let (length, items) := tree.items
    let place ← place? length index
    let inner ← set text path ((items.lookup place).getD .empty)
    return .list (max length (place + 1)) (put place inner items)

/-- What is at the end of a path. -/
def get? : KeyPath → KeyTree → Option KeyTree
  | [], tree => some tree
  | .member name :: path, tree => (tree.fields.lookup name).bind (get? path)
  | .position index :: path, tree => do
    let (length, items) := tree.items
    let place ← place? length index
    if place < length then get? path ((items.lookup place).getD .empty) else none

def text? : KeyTree → Option String
  | .text s => some s
  | _ => none

/-- The text under a key. -/
def textAt? (tree : KeyTree) (key : String) : Option String := do
  (← tree.get? (← KeyPath.read? key)).text?

/-- Sets the key that a variable names, if it names one. -/
def setVariable (tree : KeyTree) (v : String × String) : Option KeyTree :=
  match KeyPath.ofVariable? v.1 with
  | some path => tree.set v.2 path
  | none => some tree

end KeyTree

namespace Reader

/-! ## Conversions -/

def isYes (word : String) : Bool := ["true", "on", "yes"].contains word

def isNo (word : String) : Bool := ["false", "off", "no"].contains word

/-- A truth value, by word or digit. -/
def truth? (text : String) : Option Bool :=
  let word := text.map Char.toLower
  if isYes word || word = "1" then some true
  else if isNo word || word = "0" then some false
  else none

/-- A signed number, or a word for one or zero. -/
def number? (text : String) : Option Int :=
  let word := text.map Char.toLower
  if isYes word then some 1
  else if isNo word then some 0
  else Text.Numeral.signed? word.toList

/-! ## Reading -/

/-- The variables, if all of them are text. -/
def texts? (env : Environment) : Option Variables := env.mapM Environment.textPair?

/-- The settings in a tree. -/
def ofTree (tree : KeyTree) : Configuration where
  boolean? key := (tree.textAt? key).bind truth?
  integer? key := (tree.textAt? key).bind number?
  text? := tree.textAt?

/-- The tree of all variables. -/
def tree? (vars : Variables) : Option KeyTree := vars.foldlM KeyTree.setVariable (.table [])

/-- Sets the keys in the order of the variables. -/
def inOrder : Reader where
  boolean? := truth?
  integer? := number?
  build env :=
    match (texts? env).bind tree? with
    | some tree => .built (ofTree tree)
    | none => .panicked

end Reader

end ArithTree
