import ArithTree.Command.Invocation
import ArithTree.Text.Numeral

/-!
# Command-line arguments

Arguments are read from left to right, level by level: first those of the program, then those of a
command, then those of a command below it. The first argument that settles the matter does so: a
request for help or for the version, or a fault. Only at the end it is asked whether something is
missing.

A value may be attached to its option or follow it as an argument of its own, but then it must not
look like an option. A value that follows is looked at when the next argument comes; if that is the
name of a command, after the arguments of the command.
-/

namespace ArithTree.Command

/-- Everything that starts with a dash. -/
inductive Switch where
  | debug
  | noMemo
  | configDir
  | file
  | node
  | slot
  | format
  | help
  | version
  deriving DecidableEq, Repr

namespace Switch

def longName : Switch → String
  | debug => "debug"
  | noMemo => "no-memo"
  | configDir => "config-dir"
  | file => "file"
  | node => "node"
  | slot => "to"
  | format => "format"
  | help => "help"
  | version => "version"

def letter? : Switch → Option Char
  | debug => some 'd'
  | noMemo => none
  | configDir => some 'C'
  | file => some 'f'
  | node => some 'n'
  | slot => some 't'
  | format => none
  | help => some 'h'
  | version => some 'V'

def takesValue : Switch → Bool
  | configDir => true
  | file => true
  | node => true
  | slot => true
  | format => true
  | _ => false

end Switch

/-- The argument without a dash that a level takes. -/
inductive Operand where
  | none
  | expression
  | shell
  deriving DecidableEq, Repr

/-- The places in the tree of commands where arguments can be read. -/
inductive Level where
  | program
  | parse
  | check
  | placements
  | move
  | config
  | configShow
  | configPath
  | completion
  deriving DecidableEq, Repr

namespace Level

/-- The names on the way to the level. -/
def names : Level → List String
  | program => []
  | parse => ["parse"]
  | check => ["check"]
  | placements => ["placements"]
  | move => ["move"]
  | config => ["config"]
  | configShow => ["config", "show"]
  | configPath => ["config", "path"]
  | completion => ["completion"]

/-- The level of a command name. -/
def below? : Level → String → Option Level
  | program, "parse" => some parse
  | program, "check" => some check
  | program, "placements" => some placements
  | program, "move" => some move
  | program, "config" => some config
  | program, "completion" => some completion
  | config, "show" => some configShow
  | config, "path" => some configPath
  | _, _ => none

/-- Whether there are commands below the level, and with them the command for help. -/
def hasCommands : Level → Bool
  | program => true
  | config => true
  | _ => false

/-- The switches that are known on every level come first. -/
def switches (level : Level) : List Switch :=
  [.debug, .noMemo, .configDir, .help, .version] ++
    match level with
    | parse => [.file, .format]
    | check => [.file]
    | placements => [.file, .node, .format]
    | move => [.file, .node, .slot, .format]
    | _ => []

def operand : Level → Operand
  | parse => .expression
  | check => .expression
  | placements => .expression
  | move => .expression
  | completion => .shell
  | _ => .none

end Level

/-- What the arguments of one level have given. -/
structure Given where
  noMemo : Bool
  configDir : Option String
  file : Option String
  node : Option String
  slot : Option Nat
  format : Option OutputFormat
  operand : Option String

namespace Given

def empty : Given := ⟨false, none, none, none, none, none, none⟩

def shells : List String := ["bash", "elvish", "fish", "powershell", "zsh"]

/-- Takes a switch without a value. Only the one for debugging may be repeated. -/
def flag (g : Given) : Switch → Option Given
  | .debug => some g
  | .noMemo => if g.noMemo then none else some { g with noMemo := true }
  | _ => none

/-- Takes an option with its value. No option may be repeated, names of files and directories are
not empty, and slots and formats have to be such. -/
def option (g : Given) (switch : Switch) (value : String) : Option Given :=
  match switch with
  | .configDir =>
    if g.configDir.isSome || value.isEmpty then none else some { g with configDir := some value }
  | .file => if g.file.isSome || value.isEmpty then none else some { g with file := some value }
  | .node => if g.node.isSome then none else some { g with node := some value }
  | .slot =>
    if g.slot.isSome then none
    else (Text.Numeral.unsigned? value.toList).map fun n => { g with slot := some n }
  | .format =>
    if g.format.isSome then none
    else (OutputFormat.ofName? value).map fun f => { g with format := some f }
  | _ => none

/-- Takes an argument without a dash. -/
def operandValue (g : Given) (operand : Operand) (value : String) : Option Given :=
  if g.operand.isSome then none
  else
    match operand with
    | .none => none
    | .expression => some { g with operand := some value }
    | .shell => if shells.contains value then some { g with operand := some value } else none

/-- What holds below a level: the switches known on every level are handed down, unless given
again. -/
def handedDown (above below : Given) : Given :=
  { below with
    noMemo := below.noMemo || above.noMemo
    configDir := below.configDir.or above.configDir }

end Given

/-- How far the arguments of a level have been read. -/
structure Reading where
  given : Given
  /-- An option whose value has to be the next argument. -/
  awaiting : Option Switch
  /-- An option with the argument after it, not looked at yet. -/
  held : Option (Switch × String)
  /-- Whether all that follows is without dashes. -/
  operandsOnly : Bool

namespace Reading

def start : Reading := ⟨.empty, none, none, false⟩

/-- Looks at the option that is held. -/
def settle (r : Reading) : Option Reading :=
  match r.held with
  | some (switch, value) =>
    (r.given.option switch value).map fun given => { r with given, held := none }
  | none => some r

end Reading

/-- What one argument amounts to. -/
inductive Step where
  | rejected
  | help
  | version
  | read (r : Reading)
  /-- The command for help, with names of commands to follow. -/
  | helpCommand
  | enter (lower : Level)

namespace Step

/-- Goes on with what was given, if it could be taken. -/
def ofGiven (r : Reading) : Option Given → Step
  | some given => .read { r with given }
  | none => .rejected

end Step

/-- Reads the letters after a dash. What follows the letter of an option is its value, with or
without an equals sign between them. -/
def readCluster (level : Level) (r : Reading) : List Char → Step
  | [] => .read r
  | c :: cs =>
    match level.switches.find? fun s => s.letter? = some c, r.settle with
    | none, _ => .rejected
    | _, none => .rejected
    | some .help, some _ => .help
    | some .version, some _ => .version
    | some switch, some settled =>
      if switch.takesValue then
        match cs with
        | [] => .read { settled with awaiting := some switch }
        | '=' :: value => .ofGiven settled (settled.given.option switch (String.ofList value))
        | value => .ofGiven settled (settled.given.option switch (String.ofList value))
      else
        match settled.given.flag switch with
        | some given => readCluster level { settled with given } cs
        | none => .rejected

/-- Reads a switch by its long name, with or without an equals sign and a value. -/
def readLong (level : Level) (r : Reading) (cs : List Char) : Step :=
  let name := String.ofList (cs.takeWhile (· ≠ '='))
  let attached := match cs.dropWhile (· ≠ '=') with
    | _ :: value => some (String.ofList value)
    | [] => none
  match level.switches.find? fun s => s.longName = name, r.settle with
  | none, _ => .rejected
  | _, none => .rejected
  | some switch, some settled =>
    match switch.takesValue, attached with
    | true, some value => .ofGiven settled (settled.given.option switch value)
    | true, none => .read { settled with awaiting := some switch }
    | false, some _ => .rejected
    | false, none =>
      match switch with
      | .help => .help
      | .version => .version
      | switch => .ofGiven settled (settled.given.flag switch)

/-- Reads an argument without a dash that is no name of a command. -/
def readOperand (level : Level) (r : Reading) (arg : String) : Step :=
  match r.settle with
  | some settled => .ofGiven settled (settled.given.operandValue level.operand arg)
  | none => .rejected

/-- Reads one argument. A lone dash is none, and two dashes make operands of all that follow. -/
def readArgument (level : Level) (r : Reading) (arg : String) : Step :=
  if r.operandsOnly then readOperand level r arg
  else
    match r.awaiting, arg.toList with
    | some _, '-' :: _ :: _ => .rejected
    | some switch, _ => .read { r with awaiting := none, held := some (switch, arg) }
    | none, ['-', '-'] => .read { r with operandsOnly := true }
    | none, '-' :: '-' :: cs => readLong level r cs
    | none, '-' :: c :: cs => readCluster level r (c :: cs)
    | none, _ =>
      if level.hasCommands && arg = "help" then .helpCommand
      else
        match level.below? arg with
        | some lower => .enter lower
        | none => readOperand level r arg

/-- What the arguments as a whole ask for: a run with what was given for a level and the levels
above it, the help, the version of a level, or nothing because there is a fault. -/
inductive Request where
  | rejected
  | help
  | version (level : Level)
  | run (level : Level) (given : Given)

/-- Whether each name is a command below the one before. The command for help has none below it. -/
def isCommandPath : Level → List String → Bool
  | _, [] => true
  | level, name :: rest =>
    if level.hasCommands && name = "help" then rest.isEmpty
    else
      match level.below? name with
      | some lower => isCommandPath lower rest
      | none => false

/-- Reads the arguments of a level and of those below it. `above` is what the levels above have
given, or nothing when the last value held there is a fault. -/
def readLevel (level : Level) (above : Option Given) (r : Reading) : List String → Request
  | [] =>
    match r.awaiting, r.settle, above with
    | none, some settled, some above => .run level (above.handedDown settled.given)
    | _, _, _ => .rejected
  | arg :: rest =>
    match readArgument level r arg with
    | .rejected => .rejected
    | .help => .help
    | .version => .version level
    | .read r => readLevel level above r rest
    | .helpCommand => if isCommandPath level rest then .help else .rejected
    | .enter lower =>
      let inherited := match r.settle, above with
        | some settled, some above => some (above.handedDown settled.given)
        | _, _ => none
      readLevel lower inherited .start rest

/-- Reads the arguments of the program. -/
def read (args : List String) : Request := readLevel .program (some .empty) .start args

/-! ## Invocations -/

/-- The source of the expression; a text and a file together are a fault. -/
def Given.source (g : Given) : Option Source :=
  if g.operand.isSome && g.file.isSome then none else some ⟨g.operand, g.file⟩

/-- The action of a level, if all that it requires is given. -/
def Given.action (g : Given) : Level → Option (Option Action)
  | .program => some none
  | .parse => do return some (.parse (← g.source) g.format)
  | .check => do return some (.check (← g.source))
  | .placements => do return some (.placements (← g.source) (← g.node) g.format)
  | .move => do return some (.move (← g.source) (← g.node) (← g.slot) g.format)
  | .config => none
  | .configShow => some (some .showSettings)
  | .configPath => some (some .showPaths)
  | .completion => do return some (.completion (← g.operand))

/-- The name under which a level gives its version. -/
def Level.title (level : Level) : String := "-".intercalate ("exprtree" :: level.names)

/-- What the arguments of the program ask for. -/
def Call.ofArguments (args : List String) : Call :=
  match read args with
  | .rejected => .rejected
  | .help => .help
  | .version level => .version level.title
  | .run level given =>
    match given.action level with
    | some action => .run ⟨given.noMemo, given.configDir, action⟩
    | none => .rejected

end ArithTree.Command
