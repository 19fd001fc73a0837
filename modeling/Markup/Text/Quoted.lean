import Markup.Text.Printable

/-!
# Quoted text in messages

A text that stands in a message is put between double quotes. Quotes, backslashes, line ends, tabs
and the null character are escaped with a backslash, and what is not printable is written as its
code point in hexadecimal digits.
-/

namespace Markup.Text

/-- How a character is written between double quotes. -/
def escape (c : Char) : List Char :=
  if c = '"' then ['\\', '"']
  else if c = '\\' then ['\\', '\\']
  else if c = '\n' then ['\\', 'n']
  else if c = '\r' then ['\\', 'r']
  else if c = '\t' then ['\\', 't']
  else if c = '\x00' then ['\\', '0']
  else if isPrintable c then [c]
  else ['\\', 'u', '\x7b'] ++ Nat.toDigits 16 c.toNat ++ ['\x7d']

/-- A text between double quotes. -/
def quoted (text : String) : String :=
  String.ofList ('"' :: text.toList.flatMap escape ++ ['"'])

end Markup.Text
