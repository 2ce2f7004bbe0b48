import ArithTree.OutputFormat
import ArithTree.Parser

/-!
# Settings

The settings of a run. Each layer of them gives values for some fields; where it gives one, it wins
over the layers below.
-/

namespace ArithTree

/-- A limit of zero means none. -/
structure Settings where
  memoize : Bool
  maxInputLength : Nat
  format : OutputFormat
  deriving DecidableEq, Repr

/-- What one layer says about each field. -/
structure Overlay where
  memoize : Option Bool
  maxInputLength : Option Nat
  format : Option OutputFormat
  deriving DecidableEq, Repr

def Overlay.empty : Overlay := ⟨none, none, none⟩

namespace Settings

def default : Settings := ⟨true, ParserOptions.defaultMaxLength, .dump⟩

def overlaid (s : Settings) (o : Overlay) : Settings where
  memoize := o.memoize.getD s.memoize
  maxInputLength := o.maxInputLength.getD s.maxInputLength
  format := o.format.getD s.format

def parserOptions (s : Settings) : ParserOptions where
  memoize := s.memoize
  maxLength := if s.maxInputLength = 0 then none else some s.maxInputLength

end Settings

end ArithTree
