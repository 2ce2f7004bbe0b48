import ArithTree.Failure
import ArithTree.Settings.Basic
import ArithTree.Settings.Reader

/-!
# Settings in the environment

Truth values and lengths that do not convert are passed over; a negative length and an unknown
format are faults. A variable may name any other key as well, which has no effect, unless its reader
panics.
-/

namespace ArithTree

/-- What has been gathered about the settings. The length is looked at before the format. -/
def Configuration.overlay (c : Configuration) : Except ConfigError Overlay := do
  let memoize := c.boolean? "parser.memoize"
  let maxInputLength ← match c.integer? "parser.max_input_len" with
    | some (.ofNat n) => pure (some n)
    | some (.negSucc n) => throw (.negativeLimit (.negSucc n))
    | none => pure none
  let format ← match c.text? "output.format" with
    | some text =>
      match OutputFormat.parse text with
      | .ok format => pure (some format)
      | .error name => throw (.unknownFormat name)
    | none => pure none
  return ⟨memoize, maxInputLength, format⟩

/-- What the environment says about the settings. -/
def Environment.overlay (r : Reader) (env : Environment) : Except ConfigError Overlay :=
  match r.build env with
  | .built c => c.overlay
  | .refused reason => .error (.refused reason)
  | .panicked => .error .panicked

end ArithTree
