import Markup.Settings.Basic
import Markup.Tree.Building
import Markup.Plan.Selection
import Markup.Output.Colour
import Markup.Output.Rendering

/-!
# Formatting

A formatting pass checks the settings, reads the text, plans its tree and writes the planned
document. It gives the whole result or an error, never a part of the result.
-/

namespace Markup

/-- Why a formatting pass fails. -/
inductive FormatError where
  | settings (problem : SettingsError)
  | tooDeep (failure : TooDeep)
  | misfit (failure : RenderError)
  deriving DecidableEq, Repr, Inhabited

namespace FormatError

/-- The offset into the source that an error is about, if it is about one. -/
def offset? : FormatError → Option Nat
  | settings _ => none
  | tooDeep failure => some failure.offset
  | misfit failure => some failure.offset

def message : FormatError → String
  | settings problem => problem.message
  | tooDeep failure => failure.message
  | misfit failure => s!"internal error at offset {failure.offset}: {failure.misfit.message}"

end FormatError

/-- Formats a text, or the part of it that a range selects, into pieces of output. -/
def formatPieces (settings : Settings) (text : List Char) (range : Option Span) :
    Except FormatError (List OutputPiece) := do
  settings.check.mapError .settings
  let document ← (parse text).mapError .tooDeep
  let plan ← (settings.plan document range).mapError .settings
  (plan.renderDocument document).mapError .misfit

/-- Formats a text, or the part of it that a range selects. -/
def format (palette : Palette) (settings : Settings) (text : String) (range : Option Span) :
    Except FormatError String := do
  let pieces ← formatPieces settings text.toList range
  return String.ofList (palette.render pieces)

/-- A palette has a say in how pieces are shown only. -/
theorem format_eq_map (palette : Palette) (settings : Settings) (text : String)
    (range : Option Span) :
    format palette settings text range =
      (formatPieces settings text.toList range).map fun pieces =>
        String.ofList (palette.render pieces) := by
  unfold format
  cases formatPieces settings text.toList range <;> rfl

end Markup
