import Markup.Text.Blank

/-!
# JSON tokens

A JSON text is cut into tokens; cutting fails at the first character that begins none. Numbers and
strings are checked in full here, so that the grammar over tokens has no text to look at.
-/

namespace Markup.Json

open Markup.Text

/-- A token. Of a number and a string it holds what `Json` does. -/
inductive Token where
  | openArray
  | closeArray
  | openObject
  | closeObject
  | comma
  | colon
  | null
  | bool (value : Bool)
  | number (natural : Option Nat)
  | string (text : Option String)
  deriving DecidableEq, Repr, Inhabited

/-- JSON has four blank characters, one fewer than HTML. -/
def isBlank (c : Char) : Bool :=
  c == ' ' || c == '\t' || c == '\n' || c == '\r'

/-! ## Strings -/

/-- The value of a hexadecimal digit. -/
def hexDigit? (c : Char) : Option Nat :=
  if c.isDigit then some (c.toNat - '0'.toNat)
  else if 'a' ≤ c ∧ c ≤ 'f' then some (c.toNat - 'a'.toNat + 10)
  else if 'A' ≤ c ∧ c ≤ 'F' then some (c.toNat - 'A'.toNat + 10)
  else none

/-- The sixteen-bit unit that four hexadecimal digits write. -/
def unit? (a b c d : Char) : Option Nat := do
  let a ← hexDigit? a
  let b ← hexDigit? b
  let c ← hexDigit? c
  let d ← hexDigit? d
  return ((a * 16 + b) * 16 + c) * 16 + d

/-- The character that a backslash and another character stand for. -/
def escaped? (c : Char) : Option Char :=
  match c with
  | '"' => some '"'
  | '\\' => some '\\'
  | '/' => some '/'
  | 'b' => some '\x08'
  | 'f' => some '\x0c'
  | 'n' => some '\n'
  | 'r' => some '\r'
  | 't' => some '\t'
  | _ => none

/-- A piece of a string: a character, or an escaped sixteen-bit unit. -/
inductive Piece where
  | char (c : Char)
  | unit (code : Nat)
  deriving DecidableEq, Repr, Inhabited

/-- Reads the rest of a string, whose opening quote has been read. Control characters have to be
escaped. -/
def pieces? : List Char → Option (List Piece × List Char)
  | '"' :: rest => some ([], rest)
  | '\\' :: 'u' :: a :: b :: c :: d :: rest => do
      let code ← unit? a b c d
      let (others, after) ← pieces? rest
      return (.unit code :: others, after)
  | '\\' :: c :: rest => do
      let meant ← escaped? c
      let (others, after) ← pieces? rest
      return (.char meant :: others, after)
  | c :: rest =>
      if c.toNat < 0x20 then none
      else do
        let (others, after) ← pieces? rest
        return (.char c :: others, after)
  | [] => none

def isHighSurrogate (code : Nat) : Bool :=
  decide (0xd800 ≤ code ∧ code < 0xdc00)

def isLowSurrogate (code : Nat) : Bool :=
  decide (0xdc00 ≤ code ∧ code < 0xe000)

/-- The text of the pieces, if every surrogate is half of a pair. -/
def textOf? : List Piece → Option (List Char)
  | [] => some []
  | .char c :: rest => (textOf? rest).map (c :: ·)
  | .unit high :: .unit low :: rest =>
      if isHighSurrogate high then
        if isLowSurrogate low then
          (textOf? rest).map
            (Char.ofNat (0x10000 + (high - 0xd800) * 0x400 + (low - 0xdc00)) :: ·)
        else none
      else if isLowSurrogate high then none
      else (textOf? (.unit low :: rest)).map (Char.ofNat high :: ·)
  | .unit code :: rest =>
      if isHighSurrogate code || isLowSurrogate code then none
      else (textOf? rest).map (Char.ofNat code :: ·)

/-! ## Numbers -/

/-- Splits off decimal digits, of which there has to be one. -/
def digits? (text : List Char) : Option (List Char × List Char) :=
  match text.takeWhile Char.isDigit with
  | [] => none
  | c :: rest => some (c :: rest, text.dropWhile Char.isDigit)

/-- The number that decimal digits write. -/
def valueOf (digits : List Char) : Nat :=
  digits.foldl (fun value c => value * 10 + (c.toNat - '0'.toNat)) 0

/-- Splits off the fraction of a number, telling whether there is one. -/
def fraction? : List Char → Option (Bool × List Char)
  | '.' :: rest => (digits? rest).map fun (_, after) => (true, after)
  | text => some (false, text)

/-- Splits off the exponent of a number, telling whether there is one. -/
def exponent? (text : List Char) : Option (Bool × List Char) :=
  let unsigned : List Char → List Char
    | '+' :: rest => rest
    | '-' :: rest => rest
    | rest => rest
  match text with
  | 'e' :: rest => (digits? (unsigned rest)).map fun (_, after) => (true, after)
  | 'E' :: rest => (digits? (unsigned rest)).map fun (_, after) => (true, after)
  | _ => some (false, text)

/-- Reads a number without a sign. A zero in front of other digits is refused. -/
def unsignedNumber? (text : List Char) : Option (Option Nat × List Char) := do
  let (whole, afterWhole) ← digits? text
  if whole.head? = some '0' ∧ whole.length ≠ 1 then none
  else
    let (hasFraction, afterFraction) ← fraction? afterWhole
    let (hasExponent, after) ← exponent? afterFraction
    return (if hasFraction || hasExponent then none else some (valueOf whole), after)

/-- Reads a number. One with a sign is never natural. -/
def number? : List Char → Option (Option Nat × List Char)
  | '-' :: rest => (unsignedNumber? rest).map fun (_, after) => (none, after)
  | text => unsignedNumber? text

/-! ## Tokens -/

/-- The tokens that are written in one way only. -/
def fixedTokens : List (List Char × Token) :=
  [(['['], .openArray), ([']'], .closeArray), (['\x7b'], .openObject), (['\x7d'], .closeObject),
    ([','], .comma), ([':'], .colon), (['n', 'u', 'l', 'l'], .null),
    (['t', 'r', 'u', 'e'], .bool true), (['f', 'a', 'l', 's', 'e'], .bool false)]

/-- Reads one token. -/
def token? (text : List Char) : Option (Token × List Char) :=
  let fixed := fixedTokens.findSome? fun (spelling, token) =>
    (dropStart? spelling text).map fun after => (token, after)
  match fixed with
  | some found => some found
  | none =>
      match text with
      | '"' :: rest =>
          (pieces? rest).map fun (pieces, after) =>
            (.string ((textOf? pieces).map String.ofList), after)
      | _ => (number? text).map fun (natural, after) => (.number natural, after)

/-- Cuts a text into at most so many tokens. -/
def tokensUpTo? : Nat → List Char → Option (List Token)
  | 0, text => if text.all isBlank then some [] else none
  | fuel + 1, text =>
      match text.dropWhile isBlank with
      | [] => some []
      | c :: rest => do
          let (token, after) ← token? (c :: rest)
          let others ← tokensUpTo? fuel after
          return token :: others

/-- Cuts a text into tokens, of which it has no more than characters. -/
def tokens? (text : List Char) : Option (List Token) :=
  tokensUpTo? text.length text

end Markup.Json
