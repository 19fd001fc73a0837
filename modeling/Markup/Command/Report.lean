import Markup.Text.Blank
import Markup.Text.Utf8
import Markup.Text.Quoted
import Markup.Format
import Markup.Command.File

/-!
# Messages of the command line

A failure is told in one line, or in full: with the line of source that it is about and an
explanation. Parts of a message are in colour wherever it goes.
-/

namespace Markup.Command

open Markup.Text

/-- The word that every message begins with. -/
def errorWord : List Char :=
  between "91" "39" "error".toList

/-- The headline of a message. -/
def headline (problem : String) : List Char :=
  bold problem.toList

/-- A text in the colour of line numbers. -/
def margin (text : List Char) : List Char :=
  between "94" "39" text

/-- A text with blanks in front of it, up to a width. -/
def padLeft (width : Nat) (text : List Char) : List Char :=
  List.replicate (width - text.length) ' ' ++ text

/-- The headline and the explanation of what is wrong with settings. -/
def explainSettings (palette : Palette) : SettingsError → String × String
  | .zeroMargin =>
      ("Right margin of zero", "The right-margin setting must be at least one column.")
  | .indentTooWide option width =>
      (s!"Indent too wide in {option}",
        s!"An indent of {width} columns is not something any document can be laid out with.")
  | .invalidTagName option name =>
      let shown := String.ofList (palette.style .tag name.toList)
      (s!"Invalid tag name in {option}",
        s!"The name {shown} is not a valid tag name; names start with an ASCII letter.")
  | .unreadable details => ("Unable to read settings", details)

/-- The headline and the explanation of why formatting failed. -/
def explain (palette : Palette) : FormatError → String × String
  | .settings problem => explainSettings palette problem
  | .tooDeep _ =>
      ("Elements nested too deeply",
        s!"Elements here are nested more than {maximumDepth} levels deep. Documents like this are\n"
          ++
        "almost certainly generated or damaged, and are left for something other\n" ++
        "than a formatter to deal with.")
  | .misfit failure =>
      ("Internal formatter error",
        s!"The formatter's layout disagreed with the document ({failure.misfit.message}). " ++
        "This should not have happened! Sorry.")

/-- The lines of a text, without what ends them. Behind the last line feed there is no line. -/
def linesOf (text : List Char) : List (List Char) :=
  match text with
  | [] => []
  | c :: rest =>
      firstLine (c :: rest) :: linesOf (((c :: rest).dropWhile (· != '\n')).drop 1)
termination_by text.length
decreasing_by
  have hwhole :=
    congrArg List.length (List.takeWhile_append_dropWhile (p := (· != '\n')) (l := c :: rest))
  simp only [List.length_append, List.length_cons, List.length_drop] at hwhole ⊢
  omega

/-- The line that an offset lies on and the column there, both counted from zero. -/
def position (source : List Char) (offset : Nat) : Nat × Nat :=
  let before := takeBytes offset source
  (newlines before, (lastLine before).length)

/-- The position of an error in a file, for its first line. -/
def location (file : String) (line column : Nat) : List Char :=
  (file ++ s!":{line + 1}:{column + 1}").toList

/-- A message without blank characters at its end. -/
def trimMessage (message : List Char) : List Char :=
  (splitTail message).1

/-- A failure that is about no place in the source, in full. -/
def fullMessage (file : String) (problem details : String) : List Char :=
  trimMessage (errorWord ++ [':', ' '] ++ file.toList ++ [' '] ++ headline problem ++
    ['\n', '\n'] ++ details.toList)

/-- A failure of formatting, in full. -/
def fullFormatMessage (palette : Palette) (file : String) (source : List Char)
    (failure : FormatError) : List Char :=
  let (problem, details) := explain palette failure
  match failure.offset? with
  | none => fullMessage file problem details
  | some offset =>
      let (line, column) := position source offset
      let number := (toString (line + 1)).toList
      let width := max 3 number.length
      let empty := List.replicate width ' '
      let bar := margin ['|']
      let code := (linesOf source)[line]?.getD []
      let caret := between "91" "39" (padLeft (column + 1) ['^'])
      trimMessage (errorWord ++ [':', ' '] ++ location file line column ++ [' '] ++
        headline problem ++ ['\n', '\n'] ++
        empty ++ [' '] ++ bar ++ ['\n'] ++
        margin (padLeft width number) ++ [' '] ++ bar ++ [' '] ++ code ++ ['\n'] ++
        empty ++ [' '] ++ bar ++ [' '] ++ caret ++ ['\n', '\n'] ++
        details.toList)

/-- A failure of formatting, in one line. -/
def conciseFormatMessage (palette : Palette) (file : String) (source : List Char)
    (failure : FormatError) : List Char :=
  let (problem, _) := explain palette failure
  let place :=
    match failure.offset? with
    | none => file.toList
    | some offset =>
        let (line, column) := position source offset
        location file line column
  errorWord ++ [':', ' '] ++ place ++ [' '] ++ headline problem

/-- A file that could not be loaded. -/
def loadMessage (file : String) (failure : LoadError) : List Char :=
  errorWord ++ [':', ' '] ++ file.toList ++ [':', ' '] ++ headline failure.problem

/-- A settings file that could not be used. -/
def settingsMessage (file : String) (failure : SettingsError) : List Char :=
  let (problem, details) := explainSettings .plain failure
  fullMessage file problem details

/-- A range that could not be read. -/
def rangeMessage (text : String) : List Char :=
  errorWord ++ s!": invalid range {quoted text}; expected <start>..<end>".toList

/-- The line and the column, counted from zero, behind the longest common beginning of two
texts. -/
def firstDifference : List Char → List Char → Nat × Nat → Nat × Nat
  | a :: first, b :: second, (line, column) =>
      if a ≠ b then (line, column)
      else firstDifference first second (if a = '\n' then (line + 1, 0) else (line, column + 1))
  | _, _, place => place

/-- A file that is not formatted, with the first place where formatting it makes a difference. -/
def differenceMessage (file : String) (content formatted : List Char) : List Char :=
  let (line, column) := firstDifference content formatted (0, 0)
  errorWord ++ [':', ' '] ++ location file line column ++ [' '] ++
    headline "File is not formatted"

end Markup.Command
