import ArithTree.Toml.Draft
import ArithTree.Toml.Library
import ArithTree.Toml.Moment
import ArithTree.Toml.Number
import ArithTree.Toml.Text

/-!
# TOML documents

A document is a sequence of lines: headers that open a table, keys with a value, comments and blank
lines. Reading gives the whole document or nothing, as settings need no more than to know that a
file is at fault.
-/

namespace ArithTree.Toml

/-- How deep values may be nested, and how many parts a key may have. -/
def maxDepth : Nat := 79

/-- Skips to the end of a comment. -/
def skipComment (cs : List Char) : List Char :=
  match cs with
  | '#' :: cs => cs.dropWhile isPlain
  | cs => cs

/-- The rest after a line of which only blanks and a comment are left. -/
def lineEnd? (cs : List Char) : Option (List Char) :=
  match skipComment (skipSpaces cs) with
  | [] => some []
  | cs => newline? cs

/-- Skips blanks, line ends and comments between the items of an array. -/
def skipGap (inComment : Bool) : List Char → List Char
  | [] => []
  | '\n' :: cs => skipGap false cs
  | '\r' :: '\n' :: cs => skipGap false cs
  | c :: cs =>
    if inComment then if isPlain c then skipGap true cs else c :: cs
    else if isSpace c then skipGap false cs
    else if c = '#' then skipGap true cs
    else c :: cs

/-! ## Keys -/

/-- One part of a key, bare or quoted. -/
def keyPart? (cs : List Char) : Option (String × List Char) :=
  match cs with
  | '"' :: _ => lineText? cs
  | '\'' :: _ => lineText? cs
  | c :: _ =>
    if isBare c then some (String.ofList (cs.takeWhile isBare), cs.dropWhile isBare) else none
  | [] => none

/-- A key of at most so many parts, with blanks around each. -/
def key? : Nat → List Char → Option (List String × List Char)
  | 0, _ => none
  | parts + 1, cs => do
    let (part, cs) ← keyPart? (skipSpaces cs)
    match skipSpaces cs with
    | '.' :: cs =>
      let (path, rest) ← key? parts cs
      return (part :: path, rest)
    | cs => return ([part], cs)

/-- A key, an equals sign and a value. -/
def pair? (value? : List Char → Option (Value × List Char)) (cs : List Char) :
    Option ((List String × Value) × List Char) := do
  let (path, cs) ← key? maxDepth cs
  match cs with
  | '=' :: cs =>
    let (value, rest) ← value? (skipSpaces cs)
    return ((path, value), rest)
  | _ => none

/-! ## Values -/

/-- The rest of an array. A comma may follow the last item. -/
def items? (value? : List Char → Option (Value × List Char)) : Nat → List Char →
    Option (List Value × List Char)
  | 0, _ => none
  | fuel + 1, cs =>
    match skipGap false cs with
    | ']' :: rest => some ([], rest)
    | cs => do
      let (value, cs) ← value? cs
      match skipGap false cs with
      | ',' :: cs =>
        let (values, rest) ← items? value? fuel cs
        return (value :: values, rest)
      | ']' :: rest => return ([value], rest)
      | _ => none

/-- The rest of a table in braces that has a key. -/
def pairs? (value? : List Char → Option (Value × List Char)) : Nat → List Char →
    Option (List (List String × Value) × List Char)
  | 0, _ => none
  | fuel + 1, cs => do
    let (pair, cs) ← pair? value? cs
    match skipSpaces cs with
    | ',' :: cs =>
      let (pairs, rest) ← pairs? value? fuel cs
      return (pair :: pairs, rest)
    | '\x7d' :: rest => return ([pair], rest)
    | _ => none

/-- The entries of a table in braces, from the brace on. -/
def braces? (value? : List Char → Option (Value × List Char)) (cs : List Char) :
    Option (Value × List Char) :=
  match skipSpaces cs with
  | '\x7d' :: rest => some (.table [], rest)
  | cs => do
    let (pairs, rest) ← pairs? value? (cs.length + 1) cs
    let entries ← pairs.foldlM (fun entries (path, value) =>
      Drafts.assign value path true entries) []
    return (.table (finishEntries entries), rest)

/-- A value that is no array and no table. -/
def scalarValue? (cs : List Char) : Option (Value × List Char) :=
  match cs with
  | '"' :: _ => (text? cs).map fun (s, rest) => (.text s, rest)
  | '\'' :: _ => (text? cs).map fun (s, rest) => (.text s, rest)
  | 't' :: 'r' :: 'u' :: 'e' :: rest => some (.boolean true, rest)
  | 'f' :: 'a' :: 'l' :: 's' :: 'e' :: rest => some (.boolean false, rest)
  | _ => ((Moment.read? cs).map (Value.moment, ·)).or (number? cs)

/-- A value with at most so many arrays and tables around each other. -/
def value? : Nat → List Char → Option (Value × List Char)
  | 0, '[' :: _ => none
  | 0, '\x7b' :: _ => none
  | 0, cs => scalarValue? cs
  | depth + 1, '[' :: cs =>
    (items? (value? depth) (cs.length + 1) cs).map fun (values, rest) => (.array values, rest)
  | depth + 1, '\x7b' :: cs => braces? (value? depth) cs
  | _ + 1, cs => scalarValue? cs

/-! ## Lines -/

inductive Line where
  | pair (path : List String) (value : Value)
  | table (path : List String)
  | element (path : List String)

/-- A line that is neither blank nor a comment, up to where only a comment may follow. -/
def line? : List Char → Option (Line × List Char)
  | '[' :: '[' :: cs => do
    let (path, cs) ← key? maxDepth cs
    match cs with
    | ']' :: ']' :: rest => return (.element path, rest)
    | _ => none
  | '[' :: cs => do
    let (path, cs) ← key? maxDepth cs
    match cs with
    | ']' :: rest => return (.table path, rest)
    | _ => none
  | cs => (pair? (value? maxDepth) cs).map fun ((path, value), rest) => (.pair path value, rest)

def lines? : Nat → List Char → Option (List Line)
  | 0, _ => none
  | fuel + 1, cs =>
    match skipSpaces cs with
    | [] => some []
    | cs =>
      match lineEnd? cs with
      | some cs => lines? fuel cs
      | none => do
        let (line, cs) ← line? cs
        let lines ← lines? fuel (← lineEnd? cs)
        return line :: lines

/-- Takes a line into the entries read so far; `path` leads to the table of the last header. -/
def Line.extend (state : Drafts × List String) : Line → Option (Drafts × List String)
  | .pair key value =>
    (state.1.within (Drafts.assign value key true) state.2).map fun entries => (entries, state.2)
  | .table path => do
    let entries ← state.1.openTable path.dropLast (← path.getLast?)
    return (entries, path)
  | .element path => do
    let entries ← state.1.openElement path.dropLast (← path.getLast?)
    return (entries, path)

/-- The document that a text is. A byte order mark in front is passed over. -/
def read? (text : String) : Option Document := do
  let cs := match text.toList with
    | '\uFEFF' :: cs => cs
    | cs => cs
  let lines ← lines? (cs.length + 1) cs
  let (entries, _) ← lines.foldlM Line.extend ([], [])
  return finishEntries entries

end ArithTree.Toml
