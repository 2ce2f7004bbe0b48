import ArithTree.Failure
import ArithTree.Settings.Basic
import ArithTree.Toml.Library

/-!
# Settings files

A file gives fields in the sections `parser` and `output`; everything else in it is passed over. A
section is a table, or an array with the values of its fields in order. A value of the wrong type is
a fault of the whole file.
-/

namespace ArithTree

/-- The fields of a section by name. A section that is not given has none, nor has a date; any other
value is no section. -/
def sectionFields? (names : List String) : Option Toml.Value → Option Toml.Document
  | none => some []
  | some (.table entries) => some entries
  | some (.array items) => some (names.zip items)
  | some .moment => some []
  | some _ => none

/-- Reads a field, if it is given. -/
def field? {α : Type} (read : Toml.Value → Option α) (name : String) (fields : Toml.Document) :
    Option (Option α) :=
  match fields.lookup name with
  | some value => (read value).map some
  | none => some none

def readBoolean? : Toml.Value → Option Bool
  | .boolean b => some b
  | _ => none

def readLength? : Toml.Value → Option Nat
  | .integer (.ofNat n) => some n
  | _ => none

/-- Whether a value holds nothing. -/
def isHollow : Toml.Value → Bool
  | .table entries => entries.isEmpty
  | .array items => items.isEmpty
  | _ => false

/-- A format is given by its name, or by a table with its name as the only key and nothing under
it. -/
def readFormat? : Toml.Value → Option OutputFormat
  | .text s => OutputFormat.ofName? s
  | .table [(key, value)] => if isHollow value then OutputFormat.ofName? key else none
  | _ => none

/-- What a document says about the settings. -/
def Overlay.ofDocument? (d : Toml.Document) : Option Overlay := do
  let parser ← sectionFields? ["memoize", "max_input_len"] (d.lookup "parser")
  let output ← sectionFields? ["format"] (d.lookup "output")
  return {
    memoize := ← field? readBoolean? "memoize" parser
    maxInputLength := ← field? readLength? "max_input_len" parser
    format := ← field? readFormat? "format" output }

/-- What a file says about the settings. -/
def Overlay.ofText? (toml : Toml.Library) (text : String) : Option Overlay := do
  Overlay.ofDocument? (← toml.read? text)

namespace Settings

/-- The settings as a document. -/
def document (s : Settings) : Toml.Document :=
  [("parser", .table [("memoize", .boolean s.memoize),
    ("max_input_len", .integer s.maxInputLength)]),
   ("output", .table [("format", .text s.format.name)])]

/-- The settings as a file. -/
def toText (toml : Toml.Library) (s : Settings) : Except ConfigError String :=
  (toml.write s.document).mapError .notWritable

end Settings

end ArithTree
