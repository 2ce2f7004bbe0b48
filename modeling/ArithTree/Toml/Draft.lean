import ArithTree.Toml.Value

/-!
# Drafts of TOML documents

While the lines of a document are read, a table can still grow. It remembers how it came about,
because that decides what may be added to it. Keys keep the order of their first mention.
-/

namespace ArithTree.Toml

/-- How a table came about: under a header of its own, on the way to the table of another header, or
on the way of a dotted key. -/
inductive Origin where
  | header
  | implied
  | dotted
  deriving DecidableEq, Repr

inductive Draft where
  /-- A value that stood behind an equals sign. Nothing can be added to it. -/
  | value (v : Value)
  | table (origin : Origin) (entries : List (String × Draft))
  /-- The tables under headers in double brackets, at least one. -/
  | tables (items : List (List (String × Draft)))

abbrev Drafts := List (String × Draft)

mutual

/-- The value that a draft has become. -/
def Draft.finish : Draft → Value
  | .value v => v
  | .table _ entries => .table (finishEntries entries)
  | .tables items => .array (finishTables items)

def finishEntries : List (String × Draft) → Document
  | [] => []
  | (key, draft) :: entries => (key, draft.finish) :: finishEntries entries

def finishTables : List (List (String × Draft)) → List Value
  | [] => []
  | entries :: items => .table (finishEntries entries) :: finishTables items

end

namespace Drafts

/-- Gives a present key another draft. -/
def put (key : String) (draft : Draft) (entries : Drafts) : Drafts :=
  entries.map fun e => if e.1 = key then (key, draft) else e

def add (key : String) (draft : Draft) (entries : Drafts) : Drafts := entries ++ [(key, draft)]

/-- Changes the table that a header path leads to. Missing tables on the way are implied, an array
of tables stands for its last table, and a value is in the way. -/
def within (change : Drafts → Option Drafts) : List String → Drafts → Option Drafts
  | [], entries => change entries
  | key :: path, entries =>
    match entries.lookup key with
    | none => (within change path []).map fun inner => entries.add key (.table .implied inner)
    | some (.table origin inner) =>
      (within change path inner).map fun inner => entries.put key (.table origin inner)
    | some (.tables items) =>
      match items.getLast? with
      | some last =>
        (within change path last).map fun last =>
          entries.put key (.tables (items.dropLast ++ [last]))
      | none => none
    | some (.value _) => none

/-- Adds a key with its value. A dotted key goes through tables that dotted keys have made, and may
pass through implied ones, but its last part has to come into the table of the line, which is
`direct`, or into one that dotted keys have made. No key is given twice. -/
def assign (value : Value) : List String → Bool → Drafts → Option Drafts
  | [], _, _ => none
  | [key], direct, entries =>
    if direct && (entries.lookup key).isNone then some (entries.add key (.value value)) else none
  | key :: path, _, entries =>
    match entries.lookup key with
    | none => (assign value path true []).map fun inner => entries.add key (.table .dotted inner)
    | some (.table .dotted inner) =>
      (assign value path true inner).map fun inner => entries.put key (.table .dotted inner)
    | some (.table .implied inner) =>
      (assign value path false inner).map fun inner => entries.put key (.table .implied inner)
    | some (.tables items) =>
      match items.getLast? with
      | some last =>
        (assign value path false last).map fun last =>
          entries.put key (.tables (items.dropLast ++ [last]))
      | none => none
    | some _ => none

/-- Opens the table under a header. It must be new, or implied so far. -/
def openTable (path : List String) (key : String) (entries : Drafts) : Option Drafts :=
  within (fun parent =>
    match parent.lookup key with
    | none => some (parent.add key (.table .header []))
    | some (.table .implied inner) => some (parent.put key (.table .header inner))
    | some _ => none) path entries

/-- Opens one more table of an array under a header in double brackets. -/
def openElement (path : List String) (key : String) (entries : Drafts) : Option Drafts :=
  within (fun parent =>
    match parent.lookup key with
    | none => some (parent.add key (.tables [[]]))
    | some (.tables items) => some (parent.put key (.tables (items ++ [[]])))
    | some _ => none) path entries

end Drafts

end ArithTree.Toml
