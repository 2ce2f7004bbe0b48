import ArithTree.Environment
import ArithTree.Settings.KeyPath

/-!
# The reader of the environment

The settings in the environment are gathered by a library. It sets one key after the other, in an
order of its own, so that variables that need a table and a list in one place get in each other's
way. What is assumed of it (`Reader.Lawful`) leaves open what comes of those, and of positions in
lists altogether. It also leaves open whether a variable that is no text is passed over, is a reason
to refuse the environment, or a panic.
-/

namespace ArithTree

/-- Settings by key, as a library has gathered them. -/
structure Configuration where
  boolean? : String → Option Bool
  integer? : String → Option Int
  text? : String → Option String

/-- What becomes of the environment. -/
inductive Build where
  | built (c : Configuration)
  | refused (reason : String)
  | panicked

structure Reader where
  build : Environment → Build
  /-- How a text converts to a truth value. -/
  boolean? : String → Option Bool
  /-- How a text converts to a whole number. -/
  integer? : String → Option Int

/-- The environment is refused, for some reason. -/
def Reader.Refuses (r : Reader) (env : Environment) : Prop :=
  ∃ reason, r.build env = .refused reason

/-- No variable names a position in a list. -/
def Environment.NamesOnly (env : Environment) : Prop :=
  ∀ v ∈ env.textPairs, ∀ path, KeyPath.ofVariable? v.1 = some path →
    ∃ names, path = .ofNames names

/-- What is relied on, for keys that are names alone. -/
structure Reader.Lawful (r : Reader) : Prop where
  /-- Texts that name no position are always taken. -/
  built_of_names {env : Environment} : env.IsText → env.NamesOnly → ∃ c, r.build env = .built c
  /-- Texts are never refused. -/
  not_refuses {env : Environment} : env.IsText → ¬ r.Refuses env
  /-- A variable that no other one gets in the way of gives its key its value. -/
  text?_of_mem {env : Environment} {c : Configuration} {key : String} {names : List String}
    {v : String × String} : r.build env = .built c → KeyPath.IsKey key names →
      v ∈ env.textPairs → KeyPath.ofVariable? v.1 = some (.ofNames names) →
        (∀ w ∈ env.textPairs, w = v ∨
          ∀ path, KeyPath.ofVariable? w.1 = some path → path.Passes names) →
            c.text? key = some v.2
  /-- Nothing but a variable gives a key a value. -/
  mem_of_text? {env : Environment} {c : Configuration} {key text : String} {names : List String} :
    r.build env = .built c → KeyPath.IsKey key names →
      c.text? key = some text →
        ∃ v ∈ env.textPairs, KeyPath.ofVariable? v.1 = some (.ofNames names) ∧ v.2 = text
  /-- Values are texts, and are converted. -/
  boolean?_eq {env : Environment} {c : Configuration} (key : String) : r.build env = .built c →
    c.boolean? key = (c.text? key).bind r.boolean?
  integer?_eq {env : Environment} {c : Configuration} (key : String) : r.build env = .built c →
    c.integer? key = (c.text? key).bind r.integer?
  /-- Whole numbers have 64 bits with sign. -/
  integer?_inRange {text : String} {n : Int} : r.integer? text = some n →
    -(Text.Numeral.maxSigned : Int) - 1 ≤ n ∧ n ≤ (Text.Numeral.maxSigned : Int)

end ArithTree
