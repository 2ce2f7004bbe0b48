import ArithTree.Command.Run
import ArithTree.Libraries.Standard

/-!
# The program

Looks at the machine, asks for the outcome of the run, and prints it. Nothing is decided here.
-/

namespace ArithTree

/-- Bytes as text. -/
def contentOfBytes (bytes : ByteArray) : Except String String :=
  match String.fromUTF8? bytes with
  | some content => .ok content
  | none => .error "stream did not contain valid UTF-8"

def reasonOf : IO.Error → String
  | .noFileOrDirectory .. => "No such file or directory (os error 2)"
  | .permissionDenied .. => "Permission denied (os error 13)"
  | e => e.toString

/-- What is found at a path, at the end of all links. -/
def readFile (path : String) : IO FileState := do
  let here ← try IO.currentDir catch _ => pure "."
  let place := here / path
  try
    match (← place.metadata).type with
    | .dir => return .directory
    | kind =>
      let content ← try pure (contentOfBytes (← IO.FS.readBinFile place))
        catch e => pure (.error (reasonOf e))
      return .present (kind matches .file) content
  catch e => return .missing (reasonOf e)

partial def readStream (stream : IO.FS.Stream) (bytes : ByteArray) : IO ByteArray := do
  let chunk ← stream.read 65536
  if chunk.isEmpty then return bytes else readStream stream (bytes ++ chunk)

def readInput : IO (Except String String) := do
  try return contentOfBytes (← readStream (← IO.getStdin) .empty)
  catch e => return .error (reasonOf e)

/-- A name, an equals sign and a value. A name is not empty, but may start with an equals sign. -/
def variableOfBytes : List UInt8 → Option (OsText × OsText)
  | [] => none
  | first :: rest =>
    match rest.span (· ≠ 61) with
    | (name, _ :: value) => some (.ofBytes (first :: name), .ofBytes value)
    | (_, []) => none

/-- The parts of a run of bytes that end with a zero. -/
def partsOf (bytes : List UInt8) : List (List UInt8) :=
  let (first, others) := bytes.foldr (fun byte (first, others) =>
    if byte = 0 then ([], first :: others) else (byte :: first, others)) ([], [])
  first :: others

/-- The environment as the machine lists it. -/
def readEnvironment : IO Environment := do
  return (partsOf (← IO.FS.readBinFile "/proc/self/environ").toList).filterMap variableOfBytes

def readLines (path : String) : IO (List String) := do
  try return (← IO.FS.readFile path).splitOn "\n"
  catch _ => return []

/-- The home directory in the line about the account that runs the program. -/
def readAccountHome : IO (Option String) := do
  let status := (← readLines "/proc/self/status").map (·.splitOn "\t")
  let account := (status.find? (·.head? = some "Uid:")).bind (·[1]?)
  let accounts := (← readLines "/etc/passwd").map (·.splitOn ":")
  return (accounts.find? fun entry => entry[2]? = account).bind (·[5]?)

def readDirectory : IO (Except String String) := do
  try return .ok (← IO.currentDir).toString
  catch e => return .error (reasonOf e)

end ArithTree

open ArithTree in
def main (args : List String) : IO UInt32 := do
  let bare : Surroundings := {
    file := fun _ => .absent
    input := .ok ""
    environment := ← readEnvironment
    accountHome := ← readAccountHome
    directory := ← readDirectory
    terminal := ← (← IO.getStdout).isTty }
  let files ← (Command.filesNeeded .standard bare args).mapM fun path =>
    return (path, ← readFile path)
  let input ← if Command.needsInput .standard args then readInput else pure bare.input
  let m := { bare with file := fun path => (files.lookup path).getD .absent, input }
  let outcome := Command.run .standard m args
  IO.print outcome.stdout
  IO.eprint outcome.stderr
  return outcome.exit.toUInt32
