/-!
# TOML values

The values of a TOML document, as far as a reader of settings can tell them apart: floating-point
numbers and dates keep their kind only. The keys of a table keep their order.
-/

namespace ArithTree.Toml

inductive Value where
  | text (s : String)
  | integer (n : Int)
  | decimal
  | boolean (b : Bool)
  | moment
  | array (items : List Value)
  | table (entries : List (String × Value))

/-- A table of values, which is what a document is. -/
abbrev Document := List (String × Value)

end ArithTree.Toml
