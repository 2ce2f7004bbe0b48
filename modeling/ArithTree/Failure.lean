import ArithTree.Parser
import ArithTree.Session
import ArithTree.Text.Quoted

/-!
# Failures

Every reason for which a request can fail, with its message and the exit code of a run that ends
with it.
-/

namespace ArithTree

inductive ConfigError where
  | unreadable (path reason : String)
  | malformed (path : String)
  /-- The environment was not taken, for the reason that the reader of it gives. -/
  | refused (reason : String)
  | negativeLimit (value : Int)
  | unknownFormat (name : String)
  | notWritable (reason : String)
  /-- The reader of the environment has panicked, which ends the run. -/
  | panicked
  deriving DecidableEq, Repr

inductive Failure where
  | parse (e : ParseError)
  | drag (e : DragError)
  | invalidPath (text : String)
  | slotOutOfRange (index siblings : Nat)
  | config (e : ConfigError)
  | io (context reason : String)
  | usage (text : String)
  deriving DecidableEq, Repr

def ParseError.message : ParseError → String
  | .invalid text => s!"cannot parse expression: {Text.quote text}"
  | .tooLong length max => s!"expression too long: {length} characters (max {max})"

def PlacementError.message : PlacementError → String
  | .noMoreCombinations index siblings =>
    s!"no more combinations: slot {index} is outside {siblings} sibling slots"
  | .listedTwice => "the node is listed more than once among its siblings"

def DragError.message : DragError → String
  | .rootNotMovable => "the root expression cannot be moved"
  | .notDragging => "no drag in progress"
  | .dragInProgress => "a drag is already in progress"
  | .unknownNode => "node does not belong to this expression"
  | .emptyTree => "expression tree is empty"
  | .listedTwice => PlacementError.listedTwice.message

/-- The message for a format name that is none. -/
def OutputFormat.unknownMessage (name : String) : String := s!"unknown output format: {name}"

def ConfigError.message : ConfigError → String
  | .unreadable path reason => s!"read {path}: {reason}"
  | .malformed path => s!"parse {path}: invalid settings"
  | .refused reason => reason
  | .negativeLimit value => s!"parser.max_input_len must not be negative: {value}"
  | .unknownFormat name => OutputFormat.unknownMessage name
  | .notWritable reason => s!"serialize settings: {reason}"
  | .panicked => "the environment cannot be followed"

namespace Failure

def message : Failure → String
  | .parse e => e.message
  | .drag e => e.message
  | .invalidPath text => s!"invalid node path: {Text.quote text}"
  | .slotOutOfRange index siblings =>
    s!"slot {index} out of range: node has {siblings} sibling slots"
  | .config e => s!"config error: {e.message}"
  | .io context reason => s!"I/O error: {context}: {reason}"
  | .usage text => text

/-- 64 for misuse, 65 for a text that is no expression, 74 for input that cannot be read, and 78 for
settings, except that a panic gives 101. -/
def exitCode : Failure → Nat
  | .parse _ => 65
  | .drag _ => 64
  | .invalidPath _ => 64
  | .slotOutOfRange _ _ => 64
  | .config .panicked => 101
  | .config _ => 78
  | .io _ _ => 74
  | .usage _ => 64

end Failure

end ArithTree
