import Markup.Proofs.Output.Preservation
import Markup.Proofs.Plan.Stability

/-!
# Formatting twice

What formatting writes is formatted to itself, where the height of elements is not limited and no
start tag fuses: its outline is made of the items that were arranged, and those are arranged again
as they were. A limit spoils this. The height of an element is measured once, and may be measured in
a layout of the element around it that is given up afterwards: then what is written has another
height than what was measured. Main statement: `format_again`.
-/

namespace Markup

open Markup.Text

namespace Settings

theorem finalGap_again (settings : Settings) (blanks : List Char) :
    settings.finalGap (settings.finalGap blanks).text = settings.finalGap blanks := by
  unfold finalGap
  split
  next => rw [Gap.keep_text_keep]
  next =>
    split
    next => rfl
    next => rfl

/-- What is written for a document is written again for the document that it is read as. -/
theorem writtenFor_again {settings : Settings} {document again : Document}
    (hlimit : settings.heightLimit = 0)
    (hitems : Item.unnotedAll (settings.outlineOf again).1 =
      Item.unnotedAll (settings.arrangedItems document))
    (hleft : (settings.outlineOf again).2 =
      (settings.finalGap (settings.outlineOf document).2).text) :
    settings.writtenFor (settings.outlineOf again) =
      settings.writtenFor (settings.outlineOf document) := by
  let origin : Stage := ⟨.origin, Flow.start 0 (.start false)⟩
  have htext : ∀ items, Item.textOfAll (settings.arrangeAll items origin).1 =
      Item.textOfAll (settings.arrangeAll (Item.unnotedAll items) origin).1 := by
    intro items
    rw [arrangeAll_unnotedAll hlimit, Item.textOfAll_unnotedAll]
  have hwritten : Item.textOfAll (settings.arrangeAll (settings.outlineOf again).1 origin).1 =
      Item.textOfAll (settings.arrangedItems document) := by
    calc
      Item.textOfAll (settings.arrangeAll (settings.outlineOf again).1 origin).1
      _ = Item.textOfAll (settings.arrangeAll (Item.unnotedAll (settings.outlineOf again).1)
            origin).1 := htext _
      _ = Item.textOfAll (settings.arrangeAll (Item.unnotedAll (settings.arrangedItems document))
            origin).1 := by rw [hitems]
      _ = Item.textOfAll (settings.arrangeAll (settings.arrangedItems document) origin).1 :=
            (htext _).symm
      _ = Item.textOfAll (settings.arrangedItems document) := by
            rw [arrangedItems, (arrangeAll_again _ (.refl origin)).1]
  rw [writtenFor, hwritten, hleft, finalGap_again]
  rfl

end Settings

/-- Where the height of elements is not limited, and no start tag that is laid out fuses, formatting
what was formatted changes nothing. -/
theorem format_again {settings : Settings} {text : String} {document : Document}
    (hcheck : settings.check = .ok ()) (hparse : parse text.toList = .ok document)
    (hlimit : settings.heightLimit = 0)
    (hfree : ∀ tag ∈ settings.laidTagsAll document.children, settings.fuses tag = false) :
    ∃ output, format .plain settings text none = .ok output ∧
      format .plain settings output none = .ok output := by
  obtain ⟨again, hagain, hitems, hleft⟩ := Settings.exists_parse_written hparse hfree
  refine ⟨_, Settings.format_eq_written hcheck hparse, ?_⟩
  rw [Settings.format_eq_written hcheck (by rwa [String.toList_ofList]),
    Settings.writtenFor_again hlimit hitems hleft]

/-- A text in which lines are broken anew, blank lines dropped, and children indented. -/
theorem format_again_wrapped :
    let settings : Settings := { rightMargin := 12, keepLineBreaks := false }
    let text := "<div a='1'\nb=2 ><!-- c -->\n\n\n\n<p>one two three <i> four</i></p></div >\n"
    settings.check = .ok () ∧ settings.heightLimit = 0 ∧ ∃ document output,
      parse text.toList = .ok document ∧
        (∀ tag ∈ settings.laidTagsAll document.children, settings.fuses tag = false) ∧
          format .plain settings text none = .ok output ∧ output ≠ text ∧
            format .plain settings output none = .ok output := by
  intro settings text
  have hcheck : settings.check = .ok () := by with_unfolding_all rfl
  have hread : ((parse text.toList).toOption.map fun document =>
      (settings.laidTagsAll document.children).any settings.fuses) = some false := by
    decide +kernel
  have hchanges : (format .plain settings text none).toOption ≠ some text := by decide +kernel
  obtain ⟨document, hdocument, hfuses⟩ := Option.map_eq_some_iff.mp hread
  have hparse := toOption_eq_some_iff.mp hdocument
  have hfree : ∀ tag ∈ settings.laidTagsAll document.children, settings.fuses tag = false :=
    fun tag hmem => by simpa using List.any_eq_false.mp hfuses tag hmem
  obtain ⟨output, hformat, hagain⟩ := format_again hcheck hparse rfl hfree
  refine ⟨hcheck, rfl, document, output, hparse, hfree, hformat, ?_, hagain⟩
  rintro rfl
  exact hchanges (toOption_eq_some_iff.mpr hformat)

/-- Both times the outer element is too high and its children are not indented, but the inner
element is measured in the layout that is given up, where they are: at first it is low there, and
with the line breaks of what was written it is too high. -/
theorem format_again_measured :
    let settings : Settings := { rightMargin := 12, heightLimit := 3 }
    let first := "<p>\n<i>three of\n    a\n</i>\n</p>"
    let second := "<p>\n<i>three of\na\n</i>\n</p>"
    settings.check = .ok () ∧
      format .plain settings "<p>\n<i>three of a</i></p>" none = .ok first ∧
        format .plain settings first none = .ok second ∧ first ≠ second := by
  intro settings first second
  have hfirst : format .plain settings "<p>\n<i>three of a</i></p>" none = .ok first := by
    rw [← toOption_eq_some_iff]
    decide +kernel
  have hsecond : format .plain settings first none = .ok second := by
    rw [← toOption_eq_some_iff]
    decide +kernel
  exact ⟨by with_unfolding_all rfl, hfirst, hsecond, by decide⟩

end Markup
