import ArithTree.Command.Invocation
import ArithTree.Settings.Reader
import ArithTree.Toml.Library

/-!
# Libraries

What the program leaves to libraries: reading the command line and the environment, TOML, and where
the settings of all runs are kept. All that is said about a run holds whatever they do, but for the
laws that are named where they are needed.
-/

namespace ArithTree

structure Libraries where
  toml : Toml.Library
  reader : Reader
  /-- What the arguments of the program ask for. -/
  call : List String → Command.Call
  /-- The directory of the settings of all runs, from the environment and the home directory of the
  account. -/
  configDirectory? : Environment → Option String → Option String

end ArithTree
