import ArithTree.Command.Printing
import ArithTree.Command.Style
import ArithTree.Rearrangement
import ArithTree.Settings.Layers

/-!
# Runs

A run takes the surroundings and the arguments and ends with an exit code and two texts. Its stages
are loading the settings, finding the action, reading the expression, parsing it, and the action
itself; the first that fails ends the run.
-/

namespace ArithTree.Command

structure Outcome where
  exit : Nat
  stdout : String
  stderr : String
  deriving DecidableEq, Repr

def programVersion : String := "0.1.0"

/-- The help text. -/
def usage : String :=
  "Usage: exprtree [-d] [--no-memo] [-C DIR] COMMAND\n\n" ++
  "Commands:\n" ++
  "  parse [EXPR | -f FILE] [--format FORMAT]\n" ++
  "  check [EXPR | -f FILE]\n" ++
  "  placements [EXPR | -f FILE] -n NODE [--format FORMAT]\n" ++
  "  move [EXPR | -f FILE] -n NODE -t SLOT [--format FORMAT]\n" ++
  "  config show | path\n" ++
  "  completion SHELL\n" ++
  "  help [COMMAND]\n\n" ++
  "Formats: dump, tree, infix\n"

/-- The word list that a shell completes commands from. -/
def completionWords : String := "parse check placements move config completion help\n"

/-- The tree of the expression. Blanks around the text are no part of it. -/
def loadTree (m : Surroundings) (settings : Settings) (source : Source) : Except Failure Store :=
  match m.readExpression source.text source.file with
  | .error e => .error e
  | .ok text => Store.ofText settings.parserOptions (Text.trim text)

/-- A line with a label in front. -/
def labelled (coloured : Bool) (label text : String) : String :=
  Style.label.paint coloured label ++ s!": {text}\n"

def header (coloured : Bool) (text : String) : String := Style.header.paint coloured text ++ "\n"

/-- Prints one candidate. -/
def printCandidate (coloured : Bool) (format : OutputFormat) (c : Candidate) : Printing Unit := do
  print (labelled coloured s!"slot {c.slot}" s!"node at {NodePath.format c.path}")
  print (c.placement.tree.render format)

/-- Does what an action asks for. -/
def Action.run (lib : Libraries) (m : Surroundings) (coloured : Bool) (settings : Settings)
    (configDir : Option String) : Action → Printing Unit
  | .parse source format => do
    let tree ← need (loadTree m settings source)
    print (tree.render (format.getD settings.format))
  | .check source => do
    let tree ← need (loadTree m settings source)
    print (Style.label.paint coloured "✓" ++ s!" valid: {tree.formula} ({tree.size} nodes)\n")
  | .placements source node format => do
    let tree ← need (loadTree m settings source)
    let candidates ← need (tree.candidatesAt node)
    print (header coloured
      s!"{candidates.length} placements of node {Text.quote node} in {tree.formula}")
    candidates.forM (printCandidate coloured (format.getD settings.format))
  | .move source node slot format => do
    let tree ← need (loadTree m settings source)
    let placement ← need (tree.relocate node slot)
    print (placement.tree.clearGhost.render (format.getD settings.format))
  | .showSettings => do
    print (header coloured "Effective configuration")
    print (← need ((settings.toText lib.toml).mapError .config))
  | .showPaths => do
    print (labelled coloured "global" ((m.globalSettings? lib).getD "<unavailable>"))
    let path ← need ((m.localSettings configDir).mapError (.io "current directory"))
    print (labelled coloured "local" path)
    print "  environment overrides: EXPRTREE_PARSER__MEMOIZE, EXPRTREE_OUTPUT__FORMAT\n"
  | .completion _ => print completionWords

/-- Loads the settings, and goes on with the action. -/
def Invocation.run (lib : Libraries) (m : Surroundings) (coloured : Bool) (i : Invocation) :
    Printing Unit := do
  let settings ← need ((Settings.load lib m i.configDir).mapError .config)
  let settings := if i.noMemo then { settings with memoize := false } else settings
  match i.action with
  | some action => action.run lib m coloured settings i.configDir
  | none => throw (.usage "no command given, see `exprtree --help`")

/-- The whole run. Arguments with a fault end it with exit code 2. -/
def run (lib : Libraries) (m : Surroundings) (args : List String) : Outcome :=
  let coloured := isColoured m.environment m.terminal
  match lib.call args with
  | .rejected => ⟨2, "", Style.fault.paint coloured "error" ++ ": invalid arguments\n\n" ++ usage⟩
  | .help => ⟨0, usage, ""⟩
  | .version name => ⟨0, name ++ " " ++ programVersion ++ "\n", ""⟩
  | .run i =>
    match (i.run lib m coloured).after "" with
    | (.ok (), printed) => ⟨0, printed, ""⟩
    | (.error e, printed) =>
      ⟨e.exitCode, printed, Style.fault.paint coloured "error" ++ ": " ++ e.message ++ "\n"⟩

/-- The source that a run reads its expression from. -/
def Action.source? : Action → Option Source
  | .parse source _ => some source
  | .check source => some source
  | .placements source _ _ => some source
  | .move source _ _ _ => some source
  | _ => none

/-- The source of the expression in a run with these arguments. -/
def source? (lib : Libraries) (args : List String) : Option Source :=
  match lib.call args with
  | .run i => i.action.bind Action.source?
  | _ => none

/-- The files that a run may read. -/
def filesNeeded (lib : Libraries) (m : Surroundings) (args : List String) : List String :=
  match lib.call args with
  | .run i =>
    (m.globalSettings? lib).toList ++ (m.localSettings i.configDir).toOption.toList ++
      ((source? lib args).bind Source.file).toList
  | _ => []

/-- Whether a run reads standard input. -/
def needsInput (lib : Libraries) (args : List String) : Bool := source? lib args = some ⟨none, none⟩

end ArithTree.Command
