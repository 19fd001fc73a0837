import Markup.Settings.Basic
import Markup.Json.Reading

/-!
# Settings files

A settings file is a JSON object that gives options by name, or an array that gives them by
position. Options that are not given keep their defaults. An option given twice and an option of
the wrong type are refused; names that are not options are passed over.
-/

namespace Markup.Settings

/-- An option as a settings file knows it: its name, and how a value is put into settings. -/
structure Field where
  key : String
  set? : Settings → Json → Option Settings

/-- The option whose values a reading function takes. -/
def Field.of {α : Type} (key : String) (read? : Json → Option α) (put : Settings → α → Settings) :
    Field :=
  ⟨key, fun settings value => (read? value).map (put settings)⟩

/-- The wrapping mode with the given name. -/
def wrapMode? (value : Json) : Option WrapMode := do
  match ← value.asChoice? with
  | "do-not-wrap" => return .never
  | "wrap-always" => return .always
  | "wrap-as-needed" => return .asNeeded
  | _ => none

/-- The quote style with the given name. -/
def quoteStyle? (value : Json) : Option QuoteStyle := do
  match ← value.asChoice? with
  | "single" => return .single
  | "double" => return .double
  | "as-is" => return .asIs
  | _ => none

/-- Every option, in the order in which an array gives them. -/
def fields : List Field :=
  [.of "right-margin" Json.asNatural? fun settings value =>
      { settings with rightMargin := value },
    .of "indent-size" Json.asNatural? fun settings value =>
      { settings with indentSize := value },
    .of "continuation-indent-size" Json.asNatural? fun settings value =>
      { settings with continuationIndentSize := value },
    .of "keep-blank-lines" Json.asNatural? fun settings value =>
      { settings with keepBlankLines := value },
    .of "keep-line-breaks" Json.asBool? fun settings value =>
      { settings with keepLineBreaks := value },
    .of "keep-line-breaks-in-text" Json.asBool? fun settings value =>
      { settings with keepLineBreaksInText := value },
    .of "keep-whitespaces" Json.asBool? fun settings value =>
      { settings with keepWhitespaces := value },
    .of "align-attributes" Json.asBool? fun settings value =>
      { settings with alignAttributes := value },
    .of "align-text" Json.asBool? fun settings value =>
      { settings with alignText := value },
    .of "attribute-wrap" wrapMode? fun settings value =>
      { settings with attributeWrap := value },
    .of "text-wrap" wrapMode? fun settings value =>
      { settings with textWrap := value },
    .of "quote-style" quoteStyle? fun settings value =>
      { settings with quoteStyle := value },
    .of "enforce-quotes" Json.asBool? fun settings value =>
      { settings with enforceQuotes := value },
    .of "do-not-align-children-of-min-lines" Json.asNatural? fun settings value =>
      { settings with heightLimit := value },
    .of "do-not-indent-children-of" Json.asStrings? fun settings value =>
      { settings with doNotIndentChildrenOf := value },
    .of "inline-elements" Json.asStrings? fun settings value =>
      { settings with inlineElements := value },
    .of "keep-whitespaces-inside" Json.asStrings? fun settings value =>
      { settings with keepWhitespacesInside := value },
    .of "space-inside-empty-tag" Json.asBool? fun settings value =>
      { settings with spaceInsideEmptyTag := value }]

/-- Puts values into settings by position; there may be fewer values than fields, not more. -/
def putItems? (settings : Settings) : List Field → List Json → Option Settings
  | _, [] => some settings
  | [], _ :: _ => none
  | field :: fields, item :: items => do
      let changed ← field.set? settings item
      putItems? changed fields items

/-- Puts values into settings by name, given the names that were seen before. -/
def putMembers? (settings : Settings) (seen : List String) :
    List (Option String × Json) → Option Settings
  | [] => some settings
  | (name, value) :: rest => do
      let name ← name
      match fields.find? (·.key == name) with
      | none => putMembers? settings seen rest
      | some field =>
          if seen.contains name then none
          else
            let changed ← field.set? settings value
            putMembers? changed (name :: seen) rest

/-- The settings that a JSON value gives. -/
def ofJson? : Json → Option Settings
  | .object members => putMembers? {} [] members
  | .array items => putItems? {} fields items
  | _ => none

/-- The settings in a text, not checked yet. -/
def ofText? (text : List Char) : Option Settings := do
  ofJson? (← Json.ofText? text)

end Markup.Settings
