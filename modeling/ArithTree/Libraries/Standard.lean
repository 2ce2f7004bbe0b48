import ArithTree.Command.Arguments
import ArithTree.Libraries
import ArithTree.Settings.KeyTree
import ArithTree.Surroundings
import ArithTree.Toml.Document
import ArithTree.Toml.Writer

/-!
# The libraries that the program runs with
-/

namespace ArithTree.Libraries

/-- The home directory: the one in the environment, or else that of the account. -/
def home? (env : Environment) (accountHome : Option String) : Option String :=
  (((env.value? "HOME").map OsText.shown).filter (!·.isEmpty)).or accountHome

/-- Where settings of all runs are kept: below the home directory, unless a variable gives another
place. A variable that gives no absolute path does not count, and without a home directory there is
no place at all. -/
def settingsDirectory? (env : Environment) (accountHome : Option String) : Option String := do
  let home ← home? env accountHome
  let given := ((env.value? "XDG_CONFIG_HOME").map OsText.shown).filter (·.startsWith "/")
  return Surroundings.below (given.getD (Surroundings.below home ".config")) "exprtree"

def standard : Libraries where
  toml := ⟨Toml.read?, Toml.write⟩
  reader := .inOrder
  call := Command.Call.ofArguments
  configDirectory? := settingsDirectory?

end ArithTree.Libraries
