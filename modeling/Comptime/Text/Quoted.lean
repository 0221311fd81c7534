import Comptime.Text.Printable

/-!
# Quoted text

Text in code listings stands between double quotes. A quote and a backslash are written with a
backslash before them, tab, newline, carriage return and the null character by their letters, and
every other character that is not printable by its number in braces.
-/

namespace Comptime.Text

/-- A character inside quotes. -/
def escape (c : Char) : String :=
  if c = '"' then "\\\""
  else if c = '\\' then "\\\\"
  else if c = '\n' then "\\n"
  else if c = '\t' then "\\t"
  else if c = '\r' then "\\r"
  else if c.toNat = 0 then "\\0"
  else if isPrintable c then c.toString
  else "\\u\x7b" ++ String.ofList (Nat.toDigits 16 c.toNat) ++ "\x7d"

/-- A text between quotes. -/
def quote (s : String) : String :=
  "\"" ++ s.toList.foldl (fun acc c => acc ++ escape c) "" ++ "\""

end Comptime.Text
