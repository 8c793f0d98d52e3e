import QueryPipeline.Text.Combining
import QueryPipeline.Text.Invisible

/-!
Text between double quotes. A quote, a backslash and the common controls are
written with a backslash and a letter. Any other character that would not be seen
in its place, for want of a shape or because it is drawn over the character before
it, is written by its number in hexadecimal digits between braces.
-/

namespace QueryPipeline.Text

/-- One character of a quoted text. -/
def escapeChar (c : Char) : List Char :=
  if c = '"' then ['\\', '"']
  else if c = '\\' then ['\\', '\\']
  else if c = '\t' then ['\\', 't']
  else if c = '\n' then ['\\', 'n']
  else if c = '\r' then ['\\', 'r']
  else if c.toNat = 0 then ['\\', '0']
  else if isInvisible c || isCombining c then
    ['\\', 'u', '\x7b'] ++ Nat.toDigits 16 c.toNat ++ ['\x7d']
  else [c]

/-- The text between double quotes, escaped so that its end can be seen. -/
def quoted (s : String) : String :=
  "\"" ++ String.ofList (s.toList.flatMap escapeChar) ++ "\""

end QueryPipeline.Text
