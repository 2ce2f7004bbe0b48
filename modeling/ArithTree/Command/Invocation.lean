import ArithTree.OutputFormat

/-!
# Invocations

What the arguments of a run ask for, once they have been read and nothing required is missing.
-/

namespace ArithTree.Command

/-- Where the expression comes from; neither a text nor a file means standard input. -/
structure Source where
  text : Option String
  file : Option String
  deriving DecidableEq, Repr

inductive Action where
  | parse (source : Source) (format : Option OutputFormat)
  | check (source : Source)
  | placements (source : Source) (node : String) (format : Option OutputFormat)
  | move (source : Source) (node : String) (slot : Nat) (format : Option OutputFormat)
  | showSettings
  | showPaths
  | completion (shell : String)
  deriving DecidableEq, Repr

/-- Without an action the program was called by its name alone. -/
structure Invocation where
  noMemo : Bool
  configDir : Option String
  action : Option Action
  deriving DecidableEq, Repr

/-- What the arguments of the program ask for: a run, the help or the version, or nothing because
there is a fault in them. -/
inductive Call where
  | rejected
  | help
  | version (name : String)
  | run (i : Invocation)

end ArithTree.Command
