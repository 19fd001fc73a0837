import Markup.Output.Fragment

/-!
# Colours

The codes that make a terminal show text in colour, bold or italic. Each code is an escape
character, an opening bracket, numbers, and the letter m.
-/

namespace Markup

/-- A control sequence with the given parameters. -/
def escapeCode (parameters : String) : List Char :=
  '\x1b' :: '[' :: parameters.toList ++ ['m']

/-- A text between two control sequences. -/
def between (opening closing : String) (text : List Char) : List Char :=
  escapeCode opening ++ text ++ escapeCode closing

/-- A text in a colour given by the parts of red, green and blue. -/
def coloured (red green blue : Nat) (text : List Char) : List Char :=
  between s!"38;2;{red};{green};{blue}" "39" text

def bold (text : List Char) : List Char :=
  between "1" "0" text

def italic (text : List Char) : List Char :=
  between "3" "0" text

/-- How pieces of output are shown. -/
inductive Palette where
  | plain
  | terminal
  deriving DecidableEq, Repr, Inhabited

/-- A text as a palette shows it in a role. -/
def Palette.style (palette : Palette) (role : Role) (text : List Char) : List Char :=
  match palette with
  | plain => text
  | terminal =>
      match role with
      | .neutral | .indent | .newline | .text => text
      | .tag => bold (coloured 52 101 164 text)
      | .bracket => coloured 153 153 153 text
      | .attributeName => coloured 143 89 2 text
      | .attributeValue => coloured 78 154 6 text
      | .quote => bold (coloured 78 154 6 text)
      | .entity => bold (coloured 173 127 168 text)
      | .comment => italic (coloured 153 153 153 text)
      | .doctype => coloured 204 0 0 text
      | .verbatim => coloured 114 159 207 text

/-- Output as a palette shows it. -/
def Palette.render (palette : Palette) (pieces : List OutputPiece) : List Char :=
  pieces.flatMap fun piece => palette.style piece.role piece.text

/-- Without colours, output is the text of its pieces. -/
theorem Palette.render_plain (pieces : List OutputPiece) :
    Palette.plain.render pieces = joinPieces pieces := rfl

end Markup
