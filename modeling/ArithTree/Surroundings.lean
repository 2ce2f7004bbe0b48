import ArithTree.Environment
import ArithTree.Failure

/-!
# The surroundings of a run

What a run can see of the machine, as a value: files, standard input, the environment, the working
directory, and whether a terminal is listening.
-/

namespace ArithTree

/-- What is found at a path. Only a regular file counts as a file, but other things can be read
too. -/
inductive FileState where
  /-- Nothing, and the reason that reading it gives. -/
  | missing (reason : String)
  /-- Something, with its content or the reason why that cannot be read. -/
  | present (regular : Bool) (content : Except String String)

namespace FileState

def isPresent : FileState → Bool
  | .missing _ => false
  | .present _ _ => true

def isFile : FileState → Bool
  | .missing _ => false
  | .present regular _ => regular

/-- The content, or the reason why there is none. -/
def content : FileState → Except String String
  | .missing reason => .error reason
  | .present _ content => content

/-! ## Common states -/

def absent : FileState := .missing "No such file or directory (os error 2)"

def directory : FileState := .present false (.error "Is a directory (os error 21)")

def text (content : String) : FileState := .present true (.ok content)

end FileState

structure Surroundings where
  file : String → FileState
  /-- Standard input, or the reason why it cannot be read. -/
  input : Except String String
  environment : Environment
  /-- The home directory of the account, for want of one in the environment. -/
  accountHome : Option String
  /-- The working directory, or the reason why there is none. -/
  directory : Except String String
  terminal : Bool

namespace Surroundings

/-- The expression text: the one given, or else the content of the file given, or else the input. -/
def readExpression (m : Surroundings) (text file : Option String) : Except Failure String :=
  match text, file with
  | some text, _ => .ok text
  | none, some path =>
    if (m.file path).isFile then
      match (m.file path).content with
      | .ok content => .ok content
      | .error reason => .error (.io s!"read {path}" reason)
    else .error (.io s!"not a file: {path}" "no such file")
  | none, none =>
    match m.input with
    | .ok content => .ok content
    | .error reason => .error (.io "read stdin" reason)

/-- A name below a directory. -/
def below (directory name : String) : String :=
  if directory.isEmpty then name
  else if directory.endsWith "/" then directory ++ name
  else directory ++ "/" ++ name

/-- The settings file of a directory, by default the working directory. -/
def localSettings (m : Surroundings) (directory : Option String) : Except String String :=
  match directory with
  | some directory => .ok (below directory ".exprtree.toml")
  | none => m.directory.map (below · ".exprtree.toml")

end Surroundings

end ArithTree
