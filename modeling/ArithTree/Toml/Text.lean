/-!
# TOML texts

Readers take the characters that are left and return what they have read with the rest. Texts come
in four forms: with or without escapes, on one line or on several.
-/

namespace ArithTree.Toml

/-- Characters that stand for themselves: all but the controls, and of these the tab. -/
def isPlain (c : Char) : Bool := c = '\t' || (0x20 ≤ c.toNat && c.toNat ≠ 0x7F)

def isSpace (c : Char) : Bool := c = ' ' || c = '\t'

def skipSpaces (cs : List Char) : List Char := cs.dropWhile isSpace

/-- The rest after the end of a line, if here is one. -/
def newline? : List Char → Option (List Char)
  | '\n' :: cs => some cs
  | '\r' :: '\n' :: cs => some cs
  | _ => none

def hexDigit? (c : Char) : Option Nat :=
  if '0' ≤ c ∧ c ≤ '9' then some (c.toNat - '0'.toNat)
  else if 'a' ≤ c ∧ c ≤ 'f' then some (c.toNat - 'a'.toNat + 10)
  else if 'A' ≤ c ∧ c ≤ 'F' then some (c.toNat - 'A'.toNat + 10)
  else none

/-- The character with a code point in hexadecimal digits. -/
def scalar? (digits : List Char) : Option Char := do
  let code ← digits.foldlM (fun n c => (hexDigit? c).map (16 * n + ·)) 0
  if code.isValidChar then some (Char.ofNat code) else none

/-- What follows a backslash. -/
def unescape? : List Char → Option (Char × List Char)
  | 'b' :: cs => some ('\x08', cs)
  | 'f' :: cs => some ('\x0c', cs)
  | 'n' :: cs => some ('\n', cs)
  | 'r' :: cs => some ('\r', cs)
  | 't' :: cs => some ('\t', cs)
  | '\\' :: cs => some ('\\', cs)
  | '"' :: cs => some ('"', cs)
  | 'u' :: a :: b :: c :: d :: cs => (scalar? [a, b, c, d]).map (·, cs)
  | 'U' :: a :: b :: c :: d :: e :: f :: g :: h :: cs =>
    (scalar? [a, b, c, d, e, f, g, h]).map (·, cs)
  | _ => none

/-- The rest of a text on one line, escapes resolved. -/
def escapedLine : Nat → List Char → Option (List Char × List Char)
  | 0, _ => none
  | _ + 1, [] => none
  | _ + 1, '"' :: cs => some ([], cs)
  | fuel + 1, '\\' :: cs => do
    let (c, cs) ← unescape? cs
    let (body, rest) ← escapedLine fuel cs
    return (c :: body, rest)
  | fuel + 1, c :: cs =>
    if isPlain c then (escapedLine fuel cs).map fun (body, rest) => (c :: body, rest) else none

/-- The rest of a text on one line, taken as it stands. -/
def literalLine : List Char → Option (List Char × List Char)
  | [] => none
  | '\'' :: cs => some ([], cs)
  | c :: cs =>
    if isPlain c then (literalLine cs).map fun (body, rest) => (c :: body, rest) else none

/-- A backslash at the end of a line takes the line end and all blanks and line ends after it
away. -/
def skipLineEnds : List Char → List Char
  | ' ' :: cs => skipLineEnds cs
  | '\t' :: cs => skipLineEnds cs
  | '\n' :: cs => skipLineEnds cs
  | '\r' :: '\n' :: cs => skipLineEnds cs
  | cs => cs

/-- The rest of a text on several lines, escapes resolved. Of five quotes in a row the last three
end the text. -/
def escapedLines : Nat → List Char → Option (List Char × List Char)
  | 0, _ => none
  | _ + 1, [] => none
  | _ + 1, '"' :: '"' :: '"' :: '"' :: '"' :: cs => some (['"', '"'], cs)
  | _ + 1, '"' :: '"' :: '"' :: '"' :: cs => some (['"'], cs)
  | _ + 1, '"' :: '"' :: '"' :: cs => some ([], cs)
  | fuel + 1, '\\' :: cs =>
    match newline? (skipSpaces cs) with
    | some cs => escapedLines fuel (skipLineEnds cs)
    | none => do
      let (c, cs) ← unescape? cs
      let (body, rest) ← escapedLines fuel cs
      return (c :: body, rest)
  | fuel + 1, c :: cs =>
    match newline? (c :: cs) with
    | some cs => (escapedLines fuel cs).map fun (body, rest) => ('\n' :: body, rest)
    | none =>
      if isPlain c then (escapedLines fuel cs).map fun (body, rest) => (c :: body, rest) else none

/-- The rest of a text on several lines, taken as it stands. -/
def literalLines : List Char → Option (List Char × List Char)
  | [] => none
  | '\'' :: '\'' :: '\'' :: '\'' :: '\'' :: cs => some (['\'', '\''], cs)
  | '\'' :: '\'' :: '\'' :: '\'' :: cs => some (['\''], cs)
  | '\'' :: '\'' :: '\'' :: cs => some ([], cs)
  | '\r' :: '\n' :: cs => (literalLines cs).map fun (body, rest) => ('\n' :: body, rest)
  | c :: cs =>
    if isPlain c || c = '\n' then
      (literalLines cs).map fun (body, rest) => (c :: body, rest)
    else none

/-- Drops the line end right after the opening quotes of a text on several lines. -/
def afterOpening (cs : List Char) : List Char := (newline? cs).getD cs

/-- A text on one line, from its opening quote on. -/
def lineText? : List Char → Option (String × List Char)
  | '"' :: cs => (escapedLine (cs.length + 1) cs).map fun (body, rest) => (String.ofList body, rest)
  | '\'' :: cs => (literalLine cs).map fun (body, rest) => (String.ofList body, rest)
  | _ => none

/-- A text in any form, from its opening quote on. -/
def text? : List Char → Option (String × List Char)
  | '"' :: '"' :: '"' :: cs =>
    (escapedLines (cs.length + 1) (afterOpening cs)).map fun (body, rest) =>
      (String.ofList body, rest)
  | '\'' :: '\'' :: '\'' :: cs =>
    (literalLines (afterOpening cs)).map fun (body, rest) => (String.ofList body, rest)
  | cs => lineText? cs

end ArithTree.Toml
