import Markup.Tree.Reader
import Markup.Main
import Markup.Proofs.Output.Content
import Markup.Proofs.Plan.Agreement
import Markup.Proofs.Plan.Sketch
import Markup.Proofs.Reading.Acceptance
import Markup.Proofs.Tree.Closing
import Markup.Proofs.Output.Preservation
import Markup.Proofs.Plan.Stability
import Markup.Proofs.Output.Idempotence
import Markup.Proofs.Plan.Splicing
import Markup.Proofs.Output.Frame
import Markup.Proofs.Plan.Landing
import Markup.Proofs.Plan.Descent
import Markup.Proofs.Output.Reformat
import Markup.Proofs.Output.Whole
import Markup.Proofs.Output.Course
import Markup.Proofs.Output.Joints
import Markup.Proofs.Offsets.Rendering
import Markup.Proofs.Output.Respacing
import Markup.Proofs.Output.Keeping
import Markup.Proofs.Output.NormalForm
import Markup.Proofs.Output.Indentation
import Markup.Proofs.Command.Writing
import Markup.Proofs.LetterCase.Output
import Markup.Proofs.Output.Height
import Markup.Proofs.Output.Margin
import Markup.Proofs.Tree.Recovery
import Markup.Proofs.Tree.Rereading
import Markup.Proofs.Command.Checking
import Markup.Proofs.Plan.Wrapping
import Markup.Proofs.Plan.OnePass
import Markup.Proofs.Tag.Lossless
import Markup.Proofs.Tag.Requoting
import Markup.Proofs.Tree.RawText
import Markup.Proofs.Plan.Locating
import Markup.Proofs.Output.Attributes
import Markup.Proofs.Output.EndTags
import Markup.Proofs.Text.Cutting
import Markup.Proofs.Output.Fitting
import Markup.Proofs.Plan.Coverage
import Markup.Proofs.Output.Colour
import Markup.Proofs.Plan.Trials
