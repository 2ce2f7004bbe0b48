import ArithTree.Libraries
import ArithTree.Settings.File
import ArithTree.Settings.Variables
import ArithTree.Surroundings

/-!
# Layers of settings

From the lowest to the highest: the defaults, the file for all runs, the file of the directory, the
environment. A file need not exist, but one that exists has to be readable and free of faults,
whatever the layers above it say.
-/

namespace ArithTree

/-- What the file at a path says. -/
def Overlay.ofFile (toml : Toml.Library) (path : String) (state : FileState) :
    Except ConfigError Overlay :=
  match state.content with
  | .error reason => .error (.unreadable path reason)
  | .ok content =>
    match Overlay.ofText? toml content with
    | some overlay => .ok overlay
    | none => .error (.malformed path)

/-- What a file that need not exist says. -/
def Overlay.ofOptionalFile (toml : Toml.Library) (path : String) (state : FileState) :
    Except ConfigError Overlay :=
  if state.isPresent then Overlay.ofFile toml path state else .ok .empty

/-- The settings file for all runs. -/
def Surroundings.globalSettings? (lib : Libraries) (m : Surroundings) : Option String :=
  (lib.configDirectory? m.environment m.accountHome).map (below · "exprtree.toml")

namespace Settings

/-- The settings of a run for a directory, by default the working directory. -/
def load (lib : Libraries) (m : Surroundings) (directory : Option String) :
    Except ConfigError Settings := do
  let forAll ← match m.globalSettings? lib with
    | some path => Overlay.ofOptionalFile lib.toml path (m.file path)
    | none => pure .empty
  let forDirectory ← match m.localSettings directory with
    | .ok path => Overlay.ofOptionalFile lib.toml path (m.file path)
    | .error _ => pure .empty
  let fromVariables ← m.environment.overlay lib.reader
  return ((default.overlaid forAll).overlaid forDirectory).overlaid fromVariables

/-- The settings of one file that has to exist, above the defaults alone. -/
def loadFile (lib : Libraries) (m : Surroundings) (path : String) :
    Except ConfigError Settings := do
  return default.overlaid (← Overlay.ofFile lib.toml path (m.file path))

end Settings

end ArithTree
