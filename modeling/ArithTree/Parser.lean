import ArithTree.Parser.Search
import ArithTree.Store.Flatten
import ArithTree.Text.Blank

/-!
# Parsing expressions

The blanks are taken out of the text, the rest has to be one sum in the sense of the grammar, and
the tree that is found is flattened.
-/

namespace ArithTree

/-- No option changes a tree. `memoize` makes the search remember failures, and inputs of more than
`maxLength` characters besides blanks are refused before the search. -/
structure ParserOptions where
  memoize : Bool
  maxLength : Option Nat
  deriving DecidableEq, Repr

namespace ParserOptions

def defaultMaxLength : Nat := 256

def default : ParserOptions := ⟨true, some defaultMaxLength⟩

end ParserOptions

/-- Why a text is no expression. The text is kept as it was given, the length is that without
blanks. -/
inductive ParseError where
  | invalid (text : String)
  | tooLong (length max : Nat)
  deriving DecidableEq, Repr

namespace Parser

/-- The tree of an input without blanks, before flattening. -/
def derive? (memoize : Bool) (input : Array Char) : Option Store :=
  match Search.initial.attempt input memoize (.chain .addition) 0 input.size with
  | (some root, s) => some (s.store.setRoot root)
  | (none, _) => none

/-- The search, without a limit, on a text from which the blanks have been taken. -/
def parseInput (options : ParserOptions) (text : String) (input : List Char) :
    Except ParseError Store :=
  match derive? options.memoize input.toArray with
  | some store => .ok store.flatten
  | none => .error (.invalid text)

/-- The flat tree of the expression `text`. -/
def parse (options : ParserOptions) (text : String) : Except ParseError Store :=
  let input := Text.withoutBlanks text.toList
  match options.maxLength with
  | some max =>
    if max < input.length then .error (.tooLong input.length max) else parseInput options text input
  | none => parseInput options text input

end Parser

end ArithTree
