import Markup.Settings.File

/-!
# Files

A file is what reading it gives: nothing, a failure, or bytes, which ought to be text in UTF-8.
-/

namespace Markup

/-- What there is under the name of a file. -/
inductive FileContent where
  | missing
  | unreadable (reason : String)
  | bytes (content : ByteArray)
  deriving Inhabited

/-- Why a file cannot be loaded. -/
inductive LoadError where
  | missing
  | notText
  | unreadable (reason : String)
  deriving DecidableEq, Repr, Inhabited

namespace LoadError

def problem : LoadError → String
  | missing => "File not found"
  | notText => "Not UTF-8 text"
  | unreadable _ => "Failed reading"

def details : LoadError → String
  | missing => ""
  | notText => "the file could not be decoded as UTF-8"
  | unreadable reason => reason

def message (failure : LoadError) : String :=
  s!"{failure.problem}: {failure.details}"

/-- What kind of failure it is, in a few words. -/
def kind : LoadError → String
  | missing => "entity not found"
  | notText => "invalid data"
  | unreadable reason => reason

end LoadError

/-- The text in a file. -/
def FileContent.load : FileContent → Except LoadError String
  | missing => .error .missing
  | unreadable reason => .error (.unreadable reason)
  | bytes content =>
      match String.fromUTF8? content with
      | some text => .ok text
      | none => .error .notText

/-- The settings in a file with the given name. They are checked before they are given. -/
def Settings.load (name : String) (content : FileContent) : Except SettingsError Settings :=
  match content.load with
  | .error failure => .error (.unreadable s!"{name}: {failure.kind}")
  | .ok text =>
      match ofText? text.toList with
      | none => .error (.unreadable s!"{name}: not a valid settings file")
      | some settings => settings.check.map fun _ => settings

end Markup
