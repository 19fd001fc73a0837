import Markup.Command.Run

/-!
# The program

Reads the files that its arguments name, runs, and does what the run says.
-/

namespace Markup.Command

/-- What kept a file from being read, in a few words. -/
def failureReason : IO.Error → String
  | .inappropriateType _ _ details => details.decapitalize
  | .invalidArgument .. => "invalid filename"
  | .permissionDenied .. => "permission denied"
  | other => toString other

/-- What there is under a name. -/
def readContent (name : String) : IO FileContent :=
  tryCatch (do return .bytes (← IO.FS.readBinFile name)) fun failure =>
    match failure with
    | .noFileOrDirectory .. => return .missing
    | other => return .unreadable (failureReason other)

end Markup.Command

open Markup.Command in
/-- Runs the program with the given arguments. -/
def main (arguments : List String) : IO UInt32 := do
  let contents ← (reads arguments).mapM fun name => do return (name, ← readContent name)
  let outcome := run (fun name => (contents.lookup name).getD .missing) arguments
  IO.print outcome.output
  IO.eprint outcome.errors
  match outcome.written with
  | none => pure ()
  | some (name, text) => IO.FS.writeFile name text
  return UInt32.ofNat outcome.code
