import ArithTree.Parser

/-!
# The search on byte positions

The search over a text in UTF-8, with spans that are given by offsets of bytes. A symbol is looked
for byte by byte, and a span becomes a text only where a literal is read or a split is reported.
What cannot be done with such offsets in general (a difference below zero, a byte behind the end, a
slice through a character) is a panic, and every call of a routine is recorded.

That there are no panics, and that the search is the one on characters, is proved and not checked.
-/

namespace ArithTree.Parser.Bytes

/-- What can go wrong with offsets. -/
inductive Panic where
  | underflow (minuend subtrahend : Nat)
  | noByte (index : Nat)
  | cut (start stop : Nat)
  deriving DecidableEq, Repr

/-- The difference of two offsets. -/
def minus (a b : Nat) : Except Panic { d // d + b = a } :=
  if h : b ≤ a then .ok ⟨a - b, Nat.sub_add_cancel h⟩ else .error (.underflow a b)

def byteAt (text : String) (index : Nat) : Except Panic UInt8 :=
  if h : (⟨index⟩ : String.Pos.Raw) < text.rawEndPos then .ok (text.getUTF8Byte ⟨index⟩ h)
  else .error (.noByte index)

/-- The text between two offsets, which have to be in order and next to characters. -/
def slice (text : String) (start stop : Nat) : Except Panic String :=
  if start ≤ stop ∧ String.Pos.Raw.isValid text ⟨start⟩ ∧ String.Pos.Raw.isValid text ⟨stop⟩ then
    .ok (String.Pos.Raw.extract text ⟨start⟩ ⟨stop⟩)
  else .error (.cut start stop)

/-! ## Calls -/

/-- A routine of the search. A rule is called on behalf of an attempt at a rule, but for the call
that starts the search. -/
inductive Routine where
  | rule (r : Rule) (caller : Option Attempt)
  | binary (c : Chain)
  | grouping
  | literal
  deriving DecidableEq, Repr

structure Call where
  routine : Routine
  start : Nat
  stop : Nat
  deriving DecidableEq, Repr

/-- A search with the calls that have been made, the last one first. -/
structure Run where
  search : Search
  calls : List Call

namespace Run

def initial : Run := ⟨.initial, []⟩

def enter (s : Run) (routine : Routine) (start stop : Nat) : Run :=
  { s with calls := ⟨routine, start, stop⟩ :: s.calls }

def append (s : Run) (parent child : NodeId) : Run :=
  { s with search := s.search.append parent child }

/-- A new node over trees that have been built. -/
def join (s : Run) (label : Label) (below : List NodeId) : Option NodeId × Run :=
  let (id, search) := s.search.insert label
  (some id, below.foldl (fun s child => s.append id child) { s with search })

def remove (s : Run) (id : NodeId) : Run := { s with search := s.search.remove id }

def remember (s : Run) (a : Attempt) : Run := { s with search := s.search.remember a }

end Run

/-! ## The routines -/

/-- A search that gives the top of what it has built, if anything, and the state it ends in. -/
abbrev Outcome := Except Panic (Option NodeId × Run)

/-- A span that is one literal token. -/
def literal (input : String) (start stop : Nat) (s : Run) : Outcome := do
  let s := s.enter .literal start stop
  let token ← slice input start stop
  match Literal.parse? token with
  | some l => return s.join (.literal l) []
  | none => return (none, s)

/-- The offset of the last byte of a span of at least three bytes that starts with an opening and
ends with a closing parenthesis. -/
def parens? (input : String) (start stop : Nat) :
    Except Panic (Option { last // last + 1 = stop ∧ start + 2 ≤ last }) := do
  let ⟨length, hlength⟩ ← minus stop start
  if hlong : 3 ≤ length then
    if (← byteAt input start) = '('.toUInt8 then
      let ⟨last, hlast⟩ ← minus stop 1
      if (← byteAt input last) = ')'.toUInt8 then
        return some ⟨last, hlast, by omega⟩
  return none

mutual

/-- Tries a rule on a span. With `memoize`, attempts known to fail are skipped and new failures
remembered. -/
def rule (input : String) (memoize : Bool) (r : Rule) (caller : Option Attempt) (start stop : Nat)
    (s : Run) : Outcome := do
  let s := s.enter (.rule r caller) start stop
  if memoize && s.search.failures.contains ⟨r, start, stop⟩ then return (none, s)
  else
    let (found, s) ← match r with
      | .chain c => binary input memoize c start stop s
      | .grouping => grouping input memoize start stop s
    match found with
    | some id => return (some id, s)
    | none => return (none, if memoize then s.remember ⟨r, start, stop⟩ else s)
termination_by (stop - start, 3 * r.looseness + 2, 0)
decreasing_by
  all_goals
    apply Prod.Lex.right
    apply Prod.Lex.left
    simp only [Rule.looseness]
    omega

/-- Looks for a split of a span of more than two bytes. -/
def binary (input : String) (memoize : Bool) (c : Chain) (start stop : Nat) (s : Run) :
    Outcome := do
  let s := s.enter (.binary c) start stop
  let length ← minus stop start
  if 2 < length.val then
    let last ← minus stop 1
    splits input memoize c start stop last 0 s
  else rule input memoize c.tighter (some ⟨.chain c, start, stop⟩) start stop s
termination_by (stop - start, 3 * c.looseness + 1, 0)
decreasing_by
  · apply Prod.Lex.right; apply Prod.Lex.left; omega
  · have := c.looseness_tighter
    apply Prod.Lex.right; apply Prod.Lex.left; omega

/-- Tries the splits of a span that have more than `skipped` bytes on the left and come before the
last byte, and at last the tighter rule on the whole span. -/
def splits (input : String) (memoize : Bool) (c : Chain) (start stop : Nat)
    (last : { last // last + 1 = stop }) (skipped : Nat) (s : Run) : Outcome := do
  let split := start + skipped + 1
  if split < last then
    if (← byteAt input split) = c.symbol.toUInt8 then
      match ← rule input memoize (.chain c) (some ⟨.chain c, start, stop⟩) start split s with
      | (none, s) => splits input memoize c start stop last (skipped + 1) s
      | (some left, s) =>
        match ← rule input memoize c.tighter (some ⟨.chain c, start, stop⟩) (split + 1) stop s with
        | (none, s) => splits input memoize c start stop last (skipped + 1) (s.remove left)
        | (some right, s) =>
          let _ ← slice input start stop
          return s.join (.compound c.operator) [left, right]
    else splits input memoize c start stop last (skipped + 1) s
  else rule input memoize c.tighter (some ⟨.chain c, start, stop⟩) start stop s
termination_by (stop - start, 3 * c.looseness, stop - start - skipped)
decreasing_by
  · apply Prod.Lex.left; omega
  · apply Prod.Lex.right; apply Prod.Lex.right; omega
  · apply Prod.Lex.left; omega
  · apply Prod.Lex.right; apply Prod.Lex.right; omega
  · apply Prod.Lex.right; apply Prod.Lex.right; omega
  · have := c.looseness_tighter
    apply Prod.Lex.right; apply Prod.Lex.left; omega

/-- Tries a pair of parentheses around a sum, and otherwise a literal. -/
def grouping (input : String) (memoize : Bool) (start stop : Nat) (s : Run) : Outcome := do
  let s := s.enter .grouping start stop
  match ← parens? input start stop with
  | some ⟨last, _⟩ =>
    match ← rule input memoize (.chain .addition) (some ⟨.grouping, start, stop⟩) (start + 1)
      last s with
    | (some inner, s) => return s.join (.compound .group) [inner]
    | (none, s) => literal input start stop s
  | none => literal input start stop s
termination_by (stop - start, 1, 0)
decreasing_by
  apply Prod.Lex.left
  omega

end

/-! ## Parsing -/

/-- The search, without a limit, on a text from which the blanks have been taken. -/
def parseInput (options : ParserOptions) (text input : String) :
    Except Panic (Except ParseError Store × List Call) := do
  match ← rule input options.memoize (.chain .addition) none 0 input.utf8ByteSize .initial with
  | (some root, s) => return (.ok (s.search.store.setRoot root).flatten, s.calls)
  | (none, s) => return (.error (.invalid text), s.calls)

/-- The flat tree of the expression `text`, and the calls that were made to find it. -/
def parse (options : ParserOptions) (text : String) :
    Except Panic (Except ParseError Store × List Call) :=
  let input := String.ofList (Text.withoutBlanks text.toList)
  match options.maxLength with
  | some max =>
    if max < input.length then .ok (.error (.tooLong input.length max), [])
    else parseInput options text input
  | none => parseInput options text input

end ArithTree.Parser.Bytes
