import ArithTree.Environment

/-!
# Coloured output

Labels are coloured for a terminal. `CLICOLOR_FORCE` set to anything but a lone zero asks for colour
in any case; otherwise `NO_COLOR` forbids it, and so does `CLICOLOR` set to a lone zero.
-/

namespace ArithTree.Command

/-- Whether to colour at all. -/
def isColoured (env : Environment) (terminal : Bool) : Bool :=
  match env.text? "CLICOLOR_FORCE", env.text? "NO_COLOR" with
  | some force, noColour => force ≠ "0" || (noColour.isNone && byDefault)
  | none, some _ => false
  | none, none => byDefault
where
  byDefault : Bool := terminal && env.text? "CLICOLOR" ≠ some "0"

inductive Style where
  | label
  | header
  | fault
  deriving DecidableEq, Repr

/-- Green, bold cyan and bold red. -/
def Style.code : Style → String
  | .label => "32"
  | .header => "1;36"
  | .fault => "1;31"

/-- The text between the signs that switch a style on and off. -/
def Style.paint (style : Style) (coloured : Bool) (text : String) : String :=
  if coloured then "\x1b[" ++ style.code ++ "m" ++ text ++ "\x1b[0m" else text

end ArithTree.Command
