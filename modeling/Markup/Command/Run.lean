import Markup.Text.Decimal
import Markup.Format
import Markup.Command.File
import Markup.Command.Arguments
import Markup.Command.Report

/-!
# Running a command

The program as a function of its arguments and the files there are. It changes at most one file,
and only when it succeeds.
-/

namespace Markup.Command

open Markup.Text

/-- What a run of the program does: its exit code, what it prints, and the file that it writes, if
it writes one, by name and content. -/
structure Outcome where
  code : Nat := 0
  output : String := ""
  errors : String := ""
  written : Option (String × String) := none
  deriving DecidableEq, Repr, Inhabited

/-- The name and version that the program gives itself. -/
def versionLine (verb : Option Verb) : String :=
  match verb with
  | none => "htmlfmt v0.1.0\n"
  | some verb => s!"htmlfmt-{verb.name} v0.1.0\n"

def usageLines : String :=
  "usage: htmlfmt [COMMAND] ...\nTry '--help' for more information.\n"

def helpLines (verb : Option Verb) : String :=
  match verb with
  | none => "A code formatter for HTML and XHTML documents.\n\nUsage: htmlfmt [OPTIONS] [COMMAND]\n"
  | some verb => s!"Usage: htmlfmt {verb.name} [OPTIONS] <filename>\n"

/-- A run that fails with a message. -/
def failWith (code : Nat) (message : List Char) : Outcome :=
  { code := code, errors := String.ofList message ++ "\n" }

/-- Two numbers with two dots between them. -/
def readRange (text : String) : Option Span := do
  let (start, stop) ← splitAround ['.', '.'] text.toList
  return ⟨← natural? (trim start), ← natural? (trim stop)⟩

/-- The settings that a command works with, before the options change them. -/
def loadSettings (files : String → FileContent) (options : Options) :
    Except Outcome Settings :=
  match options.settings with
  | none => .ok {}
  | some name =>
      (Settings.load name (files name)).mapError fun failure =>
        failWith 1 (settingsMessage name failure)

/-- The text that a command works on. -/
def loadText (files : String → FileContent) (file : String) : Except Outcome String :=
  (files file).load.mapError fun failure => failWith 1 (loadMessage file failure)

/-- Formats a text, telling a failure in full or in one line. -/
def formatOr (palette : Palette) (full : Bool) (settings : Settings) (file content : String)
    (range : Option Span) : Except Outcome String :=
  (Markup.format palette settings content range).mapError fun failure =>
    let tell := if full then fullFormatMessage else conciseFormatMessage
    failWith 1 (tell palette file content.toList failure)

/-- Tells whether a file is formatted already. -/
def runCheck (files : String → FileContent) (file : String) (options : Options) :
    Except Outcome Outcome := do
  let settings ← loadSettings files options
  let content ← loadText files file
  let result ← formatOr .plain true settings file content none
  if result = content then return {}
  else return failWith 1 (differenceMessage file content.toList result.toList)

/-- The settings, with those changed that options give. -/
def overrideSettings (settings : Settings) (options : Options) : Settings :=
  { settings with
    rightMargin := options.width.getD settings.rightMargin
    indentSize := options.indent.getD settings.indentSize }

/-- The range that an option gives. -/
def loadRange (options : Options) : Except Outcome (Option Span) :=
  match options.range with
  | none => .ok none
  | some text =>
      match readRange text with
      | some range => .ok (some range)
      | none => .error (failWith 2 (rangeMessage text))

/-- Formats a file, in place or to the output. -/
def runFormat (files : String → FileContent) (file : String) (options : Options) :
    Except Outcome Outcome := do
  let loaded ← loadSettings files options
  let settings := overrideSettings loaded options
  let range ← loadRange options
  let content ← loadText files file
  if options.inPlace then
    let result ← formatOr .plain true settings file content range
    if result = content then return {}
    else return { written := some (file, result) }
  else
    let palette : Palette := if options.colour then .terminal else .plain
    let result ← formatOr palette options.colour settings file content range
    return { output := result }

/-- Does what is asked for. -/
def perform (files : String → FileContent) : Request → Outcome
  | .nothing => { output := usageLines }
  | .stopped .usage _ => { code := 2, errors := usageLines }
  | .stopped .help verb => { output := helpLines verb }
  | .stopped .version verb => { output := versionLine verb }
  | .run .check file options =>
      match runCheck files file options with
      | .ok outcome => outcome
      | .error outcome => outcome
  | .run .format file options =>
      match runFormat files file options with
      | .ok outcome => outcome
      | .error outcome => outcome

/-- Runs the program. -/
def run (files : String → FileContent) (arguments : List String) : Outcome :=
  perform files (request arguments)

/-- The names of the files that a run may read. -/
def reads (arguments : List String) : List String :=
  match request arguments with
  | .run _ file options => file :: options.settings.toList
  | _ => []

end Markup.Command
