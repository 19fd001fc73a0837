import Markup.Proofs.Command.Writing
import Markup.Proofs.Text.Splitting

/-!
# Checking agrees with formatting

Checking a file formats it and compares, with the settings that formatting to the output has if no
option changes them. Both load the same things in the same way and fail together, though they tell
of a failure differently. Where the result is not the file, checking tells the line and the column
behind the longest text that both begin with. Main statement: `check_agrees_with_format`.
-/

namespace Markup

/-! ## Where two texts begin to differ -/

namespace Text

/-- The longest text that both texts begin with. -/
structure LongestShared (shared first second : List Char) : Prop where
  left : shared <+: first
  right : shared <+: second
  longest : ∀ other, other <+: first → other <+: second → other <+: shared

/-- Texts that begin with different characters, or of which one is empty, share nothing. -/
theorem longestShared_nil {first second : List Char}
    (hdiffer : ∀ c ∈ first.head?, c ∉ second.head?) : LongestShared [] first second where
  left := List.nil_prefix
  right := List.nil_prefix
  longest := by
    intro other hfirst hsecond
    cases other with
    | nil => exact List.nil_prefix
    | cons c rest =>
        obtain ⟨_, rfl⟩ := hfirst
        obtain ⟨_, rfl⟩ := hsecond
        exact absurd rfl (hdiffer c rfl)

theorem LongestShared.cons {shared first second : List Char}
    (hshared : LongestShared shared first second) (c : Char) :
    LongestShared (c :: shared) (c :: first) (c :: second) where
  left := List.cons_prefix_cons.mpr ⟨rfl, hshared.left⟩
  right := List.cons_prefix_cons.mpr ⟨rfl, hshared.right⟩
  longest := by
    intro other hfirst hsecond
    cases other with
    | nil => exact List.nil_prefix
    | cons d rest =>
        obtain ⟨rfl, hrest⟩ := List.cons_prefix_cons.mp hfirst
        obtain ⟨-, hother⟩ := List.cons_prefix_cons.mp hsecond
        exact List.cons_prefix_cons.mpr ⟨rfl, hshared.longest rest hrest hother⟩

end Text

namespace Command

open Markup.Text

/-- The line and the column behind a text, counted from zero. -/
def placeBehind (text : List Char) : Nat × Nat :=
  (newlines text, (lastLine text).length)

/-- What a character does to the line and the column. -/
theorem placeBehind_concat (text : List Char) (c : Char) :
    placeBehind (text ++ [c]) =
      if c = '\n' then ((placeBehind text).1 + 1, 0)
      else ((placeBehind text).1, (placeBehind text).2 + 1) := by
  split
  next hc =>
    subst hc
    have hnone : '\n' ∉ ([] : List Char) := by simp
    have hlast := (lastLine_append_cons hnone text).1
    simp [placeBehind, newlines, hlast]
  next hc =>
    have hnot : '\n' ∉ [c] := by simpa using Ne.symm hc
    have hlast := lastLine_append_of_not_mem hnot text
    simp [placeBehind, newlines, hlast, hc]

/-- Going through two texts at once ends behind the longest text that both begin with, even where
one of them ends there. -/
theorem exists_firstDifference (before first second : List Char) :
    ∃ shared, LongestShared shared first second ∧
      firstDifference first second (placeBehind before) = placeBehind (before ++ shared) := by
  induction first generalizing before second with
  | nil => exact ⟨[], longestShared_nil (by simp), by simp [firstDifference]⟩
  | cons a first ih =>
      cases second with
      | nil => exact ⟨[], longestShared_nil (by simp), by simp [firstDifference]⟩
      | cons b second =>
          by_cases hsame : a = b
          · subst hsame
            obtain ⟨shared, hshared, hplace⟩ := ih (before ++ [a]) second
            refine ⟨a :: shared, hshared.cons a, ?_⟩
            rw [placeBehind_concat, List.append_assoc] at hplace
            simpa [firstDifference, placeBehind] using hplace
          · refine ⟨[], longestShared_nil (by simpa using Ne.symm hsame), ?_⟩
            simp [firstDifference, placeBehind, hsame]

/-! ## Command lines -/

/-- Options that let a file be formatted to the output, with the settings as they are. -/
structure Options.Plain (options : Options) : Prop where
  width : options.width = none
  indent : options.indent = none
  range : options.range = none
  inPlace : options.inPlace = false
  colour : options.colour = false

/-- A command line for a command on a file, with a choice of settings. -/
def commandLine (verb : Verb) (settings : Option String) (file : String) : List String :=
  verb.name :: (settings.toList.map ("--settings=" ++ ·) ++ ["--", file])

/-- An option with an attached value. -/
theorem shape_settings (value : String) :
    shape ("--settings=" ++ value) = .long "settings" (some value) := by
  simp [shape, String.toList_append]

/-- Every file can be named, and every choice of settings made. -/
theorem request_commandLine (verb : Verb) (settings : Option String) (file : String) :
    request (commandLine verb settings file) =
      .run verb file { settings := settings, file := some file } := by
  have hnamed : ∀ options : Options, options.file = none →
      readOptions verb options ["--", file] = .ok { options with file := some file } := by
    intro options hnone
    have hshape : shape "--" = .separator := rfl
    simp [readOptions, hshape, Options.name, hnone, bind, Except.bind, pure, Except.pure]
  have hread : readOptions verb {} (settings.toList.map ("--settings=" ++ ·) ++ ["--", file]) =
      .ok { settings := settings, file := some file } := by
    cases settings with
    | none => exact hnamed {} rfl
    | some value =>
        have hknown : (switches (some verb)).lookup "settings" = none ∧
            (valueOptions (some verb)).lookup "settings" = some .settings := by
          cases verb <;> exact ⟨rfl, rfl⟩
        rw [Option.toList_some, List.map_singleton, List.singleton_append, readOptions.eq_def]
        simp only [shape_settings, hknown.1, hknown.2]
        exact hnamed { settings := some value } rfl
  have hverb : shape verb.name = .plain verb.name ∧ verb? verb.name = some verb := by
    cases verb <;> exact ⟨rfl, rfl⟩
  rw [request, commandLine, readArguments.eq_def]
  simp only [hverb.1, hverb.2, readCommand, hread]

/-! ## Both commands -/

/-- A file with a text that has a formatted result, with the settings that the options choose. -/
def Formats (files : String → FileContent) (file : String) (options : Options)
    (content result : String) : Prop :=
  ∃ settings, loadSettings files options = .ok settings ∧ (files file).load = .ok content ∧
    format .plain settings content none = .ok result

section

variable {files : String → FileContent} {file : String} {given plain : Options}

theorem Formats.congr {content result : String} (hsame : given.settings = plain.settings)
    (hformats : Formats files file given content result) :
    Formats files file plain content result := by
  obtain ⟨settings, hsettings, hrest⟩ := hformats
  refine ⟨settings, ?_, hrest⟩
  rwa [loadSettings, ← hsame, ← loadSettings]

theorem Formats.load {content result : String}
    (hformats : Formats files file given content result) : (files file).load = .ok content := by
  obtain ⟨settings, -, hload, -⟩ := hformats
  exact hload

/-- What checking does, if it does not fail: it compares. -/
theorem perform_check_of_formats {content result : String}
    (hformats : Formats files file given content result) :
    perform files (.run .check file given) =
      if result = content then {}
      else failWith 1 (differenceMessage file content.toList result.toList) := by
  obtain ⟨settings, hsettings, hload, hformat⟩ := hformats
  by_cases hsame : result = content <;>
    simp [perform, runCheck, hsettings, loadText, hload, formatOr, hformat, hsame, bind,
      Except.bind, pure, Except.pure]

/-- What formatting to the output does, if it does not fail: it prints the result. -/
theorem perform_format_of_formats {content result : String} (hplain : plain.Plain)
    (hformats : Formats files file plain content result) :
    perform files (.run .format file plain) = { output := result } := by
  obtain ⟨settings, hsettings, hload, hformat⟩ := hformats
  have hover : overrideSettings settings plain = settings := by
    simp [overrideSettings, hplain.width, hplain.indent]
  have hrange : loadRange plain = .ok none := by rw [loadRange, hplain.range]
  simp [perform, runFormat, hsettings, hover, hrange, loadText, hload, formatOr, hformat,
    hplain.inPlace, hplain.colour, bind, Except.bind, pure, Except.pure]

theorem formats_of_runCheck {outcome : Outcome} (hrun : runCheck files file given = .ok outcome) :
    ∃ content result, Formats files file given content result := by
  obtain ⟨settings, hsettings, hrun⟩ := bind_eq_ok_iff.mp hrun
  obtain ⟨content, hcontent, hrun⟩ := bind_eq_ok_iff.mp hrun
  obtain ⟨result, hresult, -⟩ := bind_eq_ok_iff.mp hrun
  exact ⟨content, result, settings, hsettings, mapError_eq_ok_iff.mp hcontent,
    mapError_eq_ok_iff.mp hresult⟩

theorem formats_of_runFormat (hplain : plain.Plain) {outcome : Outcome}
    (hrun : runFormat files file plain = .ok outcome) :
    ∃ content result, Formats files file plain content result := by
  obtain ⟨settings, hsettings, hrun⟩ := bind_eq_ok_iff.mp hrun
  obtain ⟨range, hrange, hrun⟩ := bind_eq_ok_iff.mp hrun
  obtain ⟨content, hcontent, hrun⟩ := bind_eq_ok_iff.mp hrun
  rw [loadRange, hplain.range] at hrange
  cases hrange
  rw [hplain.inPlace, hplain.colour, if_neg (by simp)] at hrun
  obtain ⟨result, hresult, -⟩ := bind_eq_ok_iff.mp hrun
  have hover : overrideSettings settings plain = settings := by
    simp [overrideSettings, hplain.width, hplain.indent]
  rw [hover] at hresult
  exact ⟨content, result, settings, hsettings, mapError_eq_ok_iff.mp hcontent,
    mapError_eq_ok_iff.mp hresult⟩

/-- Checking that succeeds has compared a file with what formatting it gives. -/
theorem formats_of_check (hcode : (perform files (.run .check file given)).code = 0) :
    ∃ content result, Formats files file given content result := by
  rw [perform] at hcode
  split at hcode
  next outcome hrun => exact formats_of_runCheck hrun
  next outcome hrun => exact absurd hcode (failsSafely_runCheck files file given outcome hrun).code

theorem formats_of_format (hplain : plain.Plain)
    (hcode : (perform files (.run .format file plain)).code = 0) :
    ∃ content result, Formats files file plain content result := by
  rw [perform] at hcode
  split at hcode
  next outcome hrun => exact formats_of_runFormat hplain hrun
  next outcome hrun => exact absurd hcode (failsSafely_runFormat files file plain outcome hrun).code

end

/-- The message that a file differs from what formatting it gives tells the line and the column
behind the longest text that both begin with. -/
theorem exists_differenceMessage (file : String) (content result : List Char) :
    ∃ shared, LongestShared shared content result ∧
      String.ofList (differenceMessage file content result) =
        String.ofList errorWord ++
          s!": {file}:{1 + newlines shared}:{1 + (lastLine shared).length} " ++
            String.ofList (headline "File is not formatted") := by
  obtain ⟨shared, hshared, hplace⟩ := exists_firstDifference [] content result
  refine ⟨shared, hshared, ?_⟩
  have hstart : placeBehind [] = (0, 0) := rfl
  rw [hstart, List.nil_append] at hplace
  have htext : ∀ text : String, toString text = text := fun _ => rfl
  rw [← String.toList_inj]
  simp [differenceMessage, hplace, placeBehind, location, htext, Nat.add_comm]

/-- For every file and every choice of settings there are command lines for checking and for
formatting the file. Whatever command lines they are, checking exits with 0 exactly if formatting
does and prints what is in the file. If formatting exits with 0 and prints something else, checking
exits with 1 and tells the line and the column behind the longest text that both begin with, counted
from one. -/
theorem check_agrees_with_format (files : String → FileContent) (file : String)
    (settings : Option String) :
    (∀ verb, request (commandLine verb settings file) =
      .run verb file { settings := settings, file := some file }) ∧
    ∀ checking formatting given plain, request checking = .run .check file given →
      given.settings = settings → request formatting = .run .format file plain →
      plain.settings = settings → plain.Plain →
      let checked := run files checking
      let formatted := run files formatting
      (checked.code = 0 ↔ formatted.code = 0 ∧ files file = .bytes formatted.output.toUTF8) ∧
        (formatted.code = 0 → files file ≠ .bytes formatted.output.toUTF8 →
          checked.code = 1 ∧ ∃ (content : String) (shared : List Char),
            files file = .bytes content.toUTF8 ∧
            LongestShared shared content.toList formatted.output.toList ∧
            checked.errors = String.ofList errorWord ++
              s!": {file}:{1 + newlines shared}:{1 + (lastLine shared).length} " ++
                String.ofList (headline "File is not formatted") ++ "\n") := by
  refine ⟨fun verb => request_commandLine verb settings file, ?_⟩
  rintro checking formatting given plain hcheck rfl hformat hsame hplain checked formatted
  have hchecked : checked = perform files (.run .check file given) := by rw [← hcheck, ← run]
  have hformatted : formatted = perform files (.run .format file plain) := by
    rw [← hformat, ← run]
  have hprinted : formatted.code = 0 →
      ∃ content, Formats files file given content formatted.output := by
    intro hcode
    obtain ⟨content, result, hformats⟩ := formats_of_format hplain (hformatted ▸ hcode)
    rw [hformatted, perform_format_of_formats hplain hformats]
    exact ⟨content, hformats.congr hsame⟩
  refine ⟨⟨fun hcode => ?_, fun hprints => ?_⟩, fun hcode hdiffers => ?_⟩
  · obtain ⟨content, result, hformats⟩ := formats_of_check (hchecked ▸ hcode)
    rw [hchecked, perform_check_of_formats hformats] at hcode
    split at hcode
    next hequal =>
      rw [hformatted, perform_format_of_formats hplain (hformats.congr hsame.symm), hequal]
      exact ⟨rfl, load_eq_ok_iff.mp hformats.load⟩
    next => cases hcode
  · obtain ⟨hcode, hfile⟩ := hprints
    obtain ⟨content, hformats⟩ := hprinted hcode
    have hequal := Except.ok.inj ((load_eq_ok_iff.mpr hfile).symm.trans hformats.load)
    rw [hchecked, perform_check_of_formats hformats, if_pos hequal]
  · obtain ⟨content, hformats⟩ := hprinted hcode
    have hfile := load_eq_ok_iff.mp hformats.load
    have hother : formatted.output ≠ content := fun hequal => hdiffers (hequal ▸ hfile)
    obtain ⟨shared, hshared, hmessage⟩ :=
      exists_differenceMessage file content.toList formatted.output.toList
    rw [hchecked, perform_check_of_formats hformats, if_neg hother]
    exact ⟨rfl, content, shared, hfile, hshared, by rw [failWith, hmessage]⟩

/-- A page that is formatted up to a blank in its second line. -/
theorem check_agrees_with_format_page :
    let files : String → FileContent := fun _ => .bytes "é\n<p>a  b</p>".toUTF8
    let checked := run files ["check", "page"]
    let formatted := run files ["format", "-v", "page"]
    formatted.code = 0 ∧ formatted.output = "é\n<p>a b</p>" ∧ checked.code = 1 ∧
      ∃ (content : String) (shared : List Char), files "page" = .bytes content.toUTF8 ∧
        LongestShared shared content.toList formatted.output.toList ∧
        checked.errors = String.ofList errorWord ++
          s!": page:{1 + newlines shared}:{1 + (lastLine shared).length} " ++
            String.ofList (headline "File is not formatted") ++ "\n" := by
  intro files checked formatted
  let given : Options := { file := some "page" }
  let plain : Options := { verbose := true, file := some "page" }
  have hcheck : request ["check", "page"] = .run .check "page" given := by rfl
  have hformat : request ["format", "-v", "page"] = .run .format "page" plain := by rfl
  have hplain : plain.Plain := ⟨rfl, rfl, rfl, rfl, rfl⟩
  have hresult : format .plain {} "é\n<p>a  b</p>" none = .ok "é\n<p>a b</p>" := by
    rw [← toOption_eq_some_iff]
    decide +kernel
  have hformatted : formatted = { output := "é\n<p>a b</p>" } := by
    simp only [formatted, run, hformat]
    exact perform_format_of_formats hplain
      ⟨{}, rfl, load_eq_ok_iff.mpr (rfl : files "page" = _), hresult⟩
  obtain ⟨-, hagrees⟩ := check_agrees_with_format files "page" none
  obtain ⟨-, hdiffers⟩ := hagrees _ _ given plain hcheck rfl hformat rfl hplain
  have hcode : formatted.code = 0 := by rw [hformatted]
  have houtput : formatted.output = "é\n<p>a b</p>" := by rw [hformatted]
  refine ⟨hcode, houtput, hdiffers hcode fun hsame => ?_⟩
  -- the result would be what is in the file
  have hload : (files "page").load = .ok "é\n<p>a  b</p>" := load_eq_ok_iff.mpr rfl
  have hequal := Except.ok.inj (hload.symm.trans (load_eq_ok_iff.mpr (houtput ▸ hsame)))
  exact absurd hequal (by decide)

end Command

end Markup
