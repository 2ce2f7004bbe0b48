import ArithTree.Store.Basic
import Std.Data.HashSet

/-!
# The search for a derivation

```text
Addition       := Addition '+' Multiplication | Multiplication Multiplication := Multiplication '*'
Grouping | Grouping Grouping       := '(' Addition ')' | Literal
```

A rule is tried on a span of the input, given by the positions of its first character and of the one
after its last. A chain rule tries every inner occurrence of its symbol from left to right, with
itself on the left and the tighter rule on the right; the first split with both sides matched wins.
What a failed split has put into the store is removed again. Spans that a rule is known not to match
may be remembered, so that the rule is not tried there twice.

The rules are left-recursive. The search ends because a call gets a shorter span, or the same span
and a tighter rule.
-/

namespace ArithTree.Parser

/-- The rules for operands joined by one symbol. -/
inductive Chain where
  | addition
  | multiplication
  deriving DecidableEq, Hashable, Repr

inductive Rule where
  | chain (c : Chain)
  | grouping
  deriving DecidableEq, Hashable, Repr

namespace Chain

def symbol : Chain → Char
  | .addition => '+'
  | .multiplication => '*'

def operator : Chain → Operator
  | .addition => .add
  | .multiplication => .multiply

/-- The rule for what stands to the right of the symbol. -/
def tighter : Chain → Rule
  | .addition => .chain .multiplication
  | .multiplication => .grouping

/-- Number of rules that bind tighter. -/
def looseness : Chain → Nat
  | .addition => 2
  | .multiplication => 1

end Chain

/-- Number of rules that bind tighter. -/
def Rule.looseness : Rule → Nat
  | .chain c => c.looseness
  | .grouping => 0

theorem Chain.looseness_tighter (c : Chain) : c.tighter.looseness < c.looseness := by
  cases c <;> decide

/-- A rule on the span from `start` up to but not including `stop`. -/
structure Attempt where
  rule : Rule
  start : Nat
  stop : Nat
  deriving DecidableEq, Hashable, Repr

/-- The nodes built so far and the attempts known to fail. -/
structure Search where
  store : Store
  failures : Std.HashSet Attempt

namespace Search

def initial : Search := ⟨.empty, ∅⟩

/-- Adds a node without a parent. -/
def insert (s : Search) (label : Label) : NodeId × Search :=
  let (id, store) := s.store.insert label none
  (id, { s with store })

def append (s : Search) (parent child : NodeId) : Search :=
  { s with store := s.store.append parent child }

def remove (s : Search) (id : NodeId) : Search := { s with store := s.store.remove id }

def remember (s : Search) (a : Attempt) : Search := { s with failures := s.failures.insert a }

/-- A span that is one literal token. -/
def literal (input : Array Char) (start stop : Nat) (s : Search) : Option NodeId × Search :=
  match Literal.ofChars? (input.extract start stop).toList with
  | some l =>
    let (id, s) := s.insert (.literal l)
    (some id, s)
  | none => (none, s)

mutual

/-- Tries a rule on a span. With `memoize`, attempts known to fail are skipped and new failures
remembered. -/
def attempt (input : Array Char) (memoize : Bool) (rule : Rule) (start stop : Nat) (s : Search) :
    Option NodeId × Search :=
  if memoize && s.failures.contains ⟨rule, start, stop⟩ then (none, s)
  else
    let (found, s) := match rule with
      | .chain c => splits input memoize c start stop 0 s
      | .grouping => grouping input memoize start stop s
    match found with
    | some id => (some id, s)
    | none => (none, if memoize then s.remember ⟨rule, start, stop⟩ else s)
termination_by (stop - start, 2 * rule.looseness + 1, 0)
decreasing_by
  all_goals
    apply Prod.Lex.right
    apply Prod.Lex.left
    simp only [Rule.looseness]
    omega

/-- Tries the splits of a span whose left side is longer than `skipped`, and at last the tighter
rule on the whole span. Both sides of a split hold at least one character. -/
def splits (input : Array Char) (memoize : Bool) (c : Chain) (start stop skipped : Nat)
    (s : Search) :
    Option NodeId × Search :=
  let split := start + skipped + 1
  if split + 1 < stop then
    if input[split]? = some c.symbol then
      match attempt input memoize (.chain c) start split s with
      | (none, s) => splits input memoize c start stop (skipped + 1) s
      | (some left, s) =>
        match attempt input memoize c.tighter (split + 1) stop s with
        | (none, s) => splits input memoize c start stop (skipped + 1) (s.remove left)
        | (some right, s) =>
          let (id, s) := s.insert (.compound c.operator)
          (some id, (s.append id left).append id right)
    else splits input memoize c start stop (skipped + 1) s
  else attempt input memoize c.tighter start stop s
termination_by (stop - start, 2 * c.looseness, stop - start - skipped)
decreasing_by
  · apply Prod.Lex.left; omega
  · apply Prod.Lex.right; apply Prod.Lex.right; omega
  · apply Prod.Lex.left; omega
  · apply Prod.Lex.right; apply Prod.Lex.right; omega
  · apply Prod.Lex.right; apply Prod.Lex.right; omega
  · have := c.looseness_tighter
    apply Prod.Lex.right; apply Prod.Lex.left; omega

/-- Tries a pair of parentheses around a sum, and otherwise a literal. -/
def grouping (input : Array Char) (memoize : Bool) (start stop : Nat) (s : Search) :
    Option NodeId × Search :=
  if start + 2 < stop ∧ input[start]? = some '(' ∧ input[stop - 1]? = some ')' then
    match attempt input memoize (.chain .addition) (start + 1) (stop - 1) s with
    | (some inner, s) =>
      let (id, s) := s.insert (.compound .group)
      (some id, s.append id inner)
    | (none, s) => literal input start stop s
  else literal input start stop s
termination_by (stop - start, 0, 0)

end

end Search

end ArithTree.Parser
