/-!
# Numbers on a command line

A number is given in decimal digits, perhaps with a plus sign in front, and has to fit into 64
bits. A range is two numbers with two dots between them, and blanks of any kind around each number.
-/

namespace Markup.Text

/-- The number that decimal digits write. -/
def digitsValue? (digits : List Char) : Option Nat :=
  if digits.isEmpty || !digits.all Char.isDigit then none
  else
    let value := digits.foldl (fun value c => value * 10 + (c.toNat - '0'.toNat)) 0
    if value < UInt64.size then some value else none

/-- Reads a number. -/
def natural? : List Char → Option Nat
  | '+' :: digits => digitsValue? digits
  | digits => digitsValue? digits

/-- The characters that Unicode counts as white space. -/
def isSpace (c : Char) : Bool :=
  let code := c.toNat
  decide (0x09 ≤ code ∧ code ≤ 0x0d) || code == 0x20 || code == 0x85 || code == 0xa0 ||
    code == 0x1680 || decide (0x2000 ≤ code ∧ code ≤ 0x200a) || code == 0x2028 ||
    code == 0x2029 || code == 0x202f || code == 0x205f || code == 0x3000

/-- A text without the white space at its ends. -/
def trim (text : List Char) : List Char :=
  ((text.dropWhile isSpace).reverse.dropWhile isSpace).reverse

end Markup.Text
