import ArithTree.Text.Unprintable

/-!
# Quoted texts

Messages show a text that was given in double quotes on one line. The quote, the backslash, four
controls and every unprintable character are written as escapes, all else as it is.
-/

namespace ArithTree.Text

/-- The escape by code point: lower-case hexadecimal digits between braces, without padding. -/
def codePointEscape (c : Char) : String :=
  "\\u\x7b" ++ String.ofList (Nat.toDigits 16 c.toNat) ++ "\x7d"

def quoteChar (c : Char) : String :=
  if c = '\x00' then "\\0"
  else if c = '\t' then "\\t"
  else if c = '\r' then "\\r"
  else if c = '\n' then "\\n"
  else if c = '"' then "\\\""
  else if c = '\\' then "\\\\"
  else if isUnprintable c then codePointEscape c
  else c.toString

/-- The text in double quotes. -/
def quote (s : String) : String := "\"" ++ String.join (s.toList.map quoteChar) ++ "\""

end ArithTree.Text
