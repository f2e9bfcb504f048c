/-!
# Escaped literals

How a string literal is shown on one line of plain ASCII: tab, carriage return, line feed, both
quotes and the backslash get a backslash escape, the other printable ASCII characters stand for
themselves, and everything else is written as its code point in hexadecimal between braces.
-/

namespace MmixBackend.Text

def escapeChar (c : Char) : List Char :=
  if c = '\t' then ['\\', 't']
  else if c = '\r' then ['\\', 'r']
  else if c = '\n' then ['\\', 'n']
  else if c = '\'' ∨ c = '"' ∨ c = '\\' then ['\\', c]
  else if ' ' ≤ c ∧ c ≤ '~' then [c]
  else ['\\', 'u', '\x7b'] ++ Nat.toDigits 16 c.toNat ++ ['\x7d']

def escape (s : String) : String := String.ofList (s.toList.flatMap escapeChar)

end MmixBackend.Text
