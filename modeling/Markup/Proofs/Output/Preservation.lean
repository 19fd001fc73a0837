import Markup.Proofs.Output.Content
import Markup.Proofs.Plan.Agreement
import Markup.Proofs.Plan.Sketch
import Markup.Proofs.Reading.Acceptance

/-!
# Formatting preserves the document

What a text is formatted to can be read again, and gives a tree with the same sketch, unless a start
tag fuses with its last attribute on the way: the blank in front of the end of a tag is dropped even
where the slash behind it then joins a value without quotes, or where a slash in front of it then
joins the end of the tag. Main statement: `sketch_format_iff`.
-/

namespace Markup

open Markup.Text

/-- A tag that is read as another one is not read as it is. -/
theorem StartTag.Twin.not_fits {tag : StartTag} (htwin : tag.Twin) : ¬tag.Fits := by
  intro hfits
  obtain ⟨other, hother, htext, hending⟩ := htwin
  obtain ⟨rfl, -⟩ := StartTag.text_append_inj hother hfits (congrArg (· ++ []) htext)
  exact hending rfl

namespace Settings

variable {settings : Settings} {text : List Char} {document : Document}

/-- The outline of a document, with the notes that fit the settings. -/
def outlineOf (settings : Settings) (document : Document) : List Item × List Char :=
  Node.outlineAll (settings.judge document) document.children []

/-- The items of a document as they are written. -/
def arrangedItems (settings : Settings) (document : Document) : List Item :=
  (settings.arrangeAll (settings.outlineOf document).1
    ⟨.origin, Flow.start 0 (.start false)⟩).1

theorem proper_outlineOf (settings : Settings) (hparse : parse text = .ok document) :
    Item.ProperAll StartTag.Fits (settings.outlineOf document).1 ∧
      allBlank (settings.outlineOf document).2 = true :=
  Node.proper_outlineAll _ _ (Document.legible_of_parse hparse) (Document.sound_of_parse hparse)
    allBlank_nil

theorem textOfAll_outlineOf (settings : Settings) (hparse : parse text = .ok document) :
    Item.textOfAll (settings.outlineOf document).1 ++ (settings.outlineOf document).2 = text := by
  have htext := Node.textOfAll_outlineAll (settings.judge document) document.children []
  rwa [List.nil_append, Document.textOfAll_of_parse hparse] at htext

/-- Formatting writes the arranged items of a document. -/
theorem format_eq_written {text : String} {document : Document}
    (hcheck : settings.check = .ok ()) (hparse : parse text.toList = .ok document) :
    format .plain settings text none =
      .ok (String.ofList (settings.writtenFor (settings.outlineOf document))) := by
  obtain ⟨pieces, hpieces, hwritten⟩ := settings.renderDocument_layoutDocument hparse
  have hplan : settings.plan document none = .ok (settings.layoutDocument document) := by
    simp only [plan, hcheck]
    rfl
  rw [format_eq_ok hcheck hparse hplan hpieces, Palette.render_plain, hwritten]
  rfl

theorem writtenFor_outlineOf (settings : Settings) (document : Document) :
    settings.writtenFor (settings.outlineOf document) =
      Item.textOfAll (settings.arrangedItems document) ++
        (settings.finalGap (settings.outlineOf document).2).text :=
  rfl

/-- Without a tag that fuses, what is written can be read back piece by piece. -/
theorem proper_arrangedItems (hparse : parse text = .ok document)
    (hfree : ∀ tag ∈ settings.laidTagsAll document.children, settings.fuses tag = false) :
    Item.ProperAll StartTag.Fits (settings.arrangedItems document) := by
  refine properAll_arrangeAll (fun _ hfits => hfits) (settings.proper_outlineOf hparse).1 ?_ _
  intro tag hmem hfits indent cursor
  rw [outlineOf, settings.tagsAll_outlineAll _ _ (Document.legible_of_parse hparse)] at hmem
  exact settings.fits_layTag hfits (hfree tag hmem) indent cursor

/-- Whether or not a tag fuses, every tag that is written is read back as some tag. -/
theorem readable_arrangeAll (settings : Settings) {items : List Item}
    (hproper : Item.ProperAll StartTag.Fits items) (stage : Stage) :
    Item.ProperAll StartTag.Readable (settings.arrangeAll items stage).1 := by
  refine properAll_arrangeAll (fun _ => .inl) hproper ?_ stage
  intro tag _ hfits indent cursor
  cases hfuses : settings.fuses tag with
  | false => exact .inl (settings.fits_layTag hfits hfuses indent cursor)
  | true => exact .inr (settings.exists_twin hfits hfuses indent cursor)

theorem readable_arrangedItems (hparse : parse text = .ok document) :
    Item.ProperAll StartTag.Readable (settings.arrangedItems document) :=
  settings.readable_arrangeAll (settings.proper_outlineOf hparse).1 _

theorem sketch_outlineOf (settings : Settings) (hparse : parse text = .ok document) :
    Item.sketchAll (Item.sealedAll settings.seals (settings.outlineOf document).1) =
      settings.sketchAll document.children :=
  settings.sketchAll_outlineAll _ _ (Document.legible_of_parse hparse)
    (Document.sound_of_parse hparse) []

theorem sketch_arrangedItems (settings : Settings) (hparse : parse text = .ok document) :
    Item.sketchAll (Item.sealedAll settings.seals (settings.arrangedItems document)) =
      settings.sketchAll document.children := by
  rw [← settings.sketch_outlineOf hparse]
  exact settings.sketchAll_arrangeAll _ (settings.proper_outlineOf hparse).1 _

/-- What is written without a tag that fuses has an outline of the very items that are written. -/
theorem exists_parse_written (hparse : parse text = .ok document)
    (hfree : ∀ tag ∈ settings.laidTagsAll document.children, settings.fuses tag = false) :
    ∃ again, parse (settings.writtenFor (settings.outlineOf document)) = .ok again ∧
      Item.unnotedAll (settings.outlineOf again).1 =
        Item.unnotedAll (settings.arrangedItems document) ∧
      (settings.outlineOf again).2 = (settings.finalGap (settings.outlineOf document).2).text := by
  have hproper := settings.proper_outlineOf hparse
  have hwritten := proper_arrangedItems hparse hfree
  have hshape : Item.bareAll (settings.arrangedItems document) =
      Node.shapeOfAll document.children :=
    (settings.bareAll_arrangeAll _ hproper.1 _).trans (Node.bareAll_outlineAll _ _ _)
  obtain ⟨again, hagain, hsame⟩ := exists_parse_of_shape hparse hwritten hshape
    (settings.blank_finalGap hproper.2)
  have halike : Item.outerAll (settings.outlineOf again).1 =
      Item.outerAll (settings.arrangedItems document) := by
    rw [← Item.outerAll_bareAll, outlineOf, Node.bareAll_outlineAll, hsame, ← hshape,
      Item.outerAll_bareAll]
  have hreadable : Item.ProperAll StartTag.Readable (settings.arrangedItems document) :=
    hwritten.mono fun _ => .inl
  obtain ⟨hitems, hleft⟩ := Item.textOfAll_append_inj EndTag.raw_append_inj _ _
    (settings.proper_outlineOf hagain).1.apart hreadable.apart halike
    (settings.textOfAll_outlineOf hagain)
  exact ⟨again, hagain, hitems, hleft⟩

theorem exists_laid_of_mem {tags laid : List StartTag}
    (hlaid : List.Forall₂ settings.LaysTag tags laid) {tag : StartTag} (hmem : tag ∈ tags) :
    ∃ other ∈ laid, settings.LaysTag tag other := by
  induction hlaid with
  | nil => cases hmem
  | cons hlays _ ih =>
      rcases List.mem_cons.mp hmem with rfl | hrest
      · exact ⟨_, List.mem_cons_self, hlays⟩
      · obtain ⟨other, hother, hlays⟩ := ih hrest
        exact ⟨other, List.mem_cons_of_mem _ hother, hlays⟩

/-- A tree that has the sketch of the document and the text that is written for it shows that no tag
fuses. -/
theorem not_fuses_of_sketch (hparse : parse text = .ok document) {again : Document}
    (hagain : parse (settings.writtenFor (settings.outlineOf document)) = .ok again)
    (hsketch : settings.sketchAll again.children = settings.sketchAll document.children)
    {tag : StartTag} (hmem : tag ∈ settings.laidTagsAll document.children) :
    settings.fuses tag = false := by
  have hproper := settings.proper_outlineOf hparse
  let read := Item.sealedAll settings.seals (settings.outlineOf again).1
  let written := Item.sealedAll settings.seals (settings.arrangedItems document)
  have halike : Item.outerAll read = Item.outerAll written := by
    rw [← Item.outerAll_sketchAll, ← Item.outerAll_sketchAll, settings.sketch_outlineOf hagain,
      settings.sketch_arrangedItems hparse, hsketch]
  have hread : Item.ApartAll StartTag.Fits (· = .unknown) read :=
    (settings.proper_outlineOf hagain).1.apart.sealed
  have htext : Item.textOfAll read ++ (settings.outlineOf again).2 =
      Item.textOfAll written ++ (settings.finalGap (settings.outlineOf document).2).text := by
    rw [Item.textOfAll_sealedAll, Item.textOfAll_sealedAll, settings.textOfAll_outlineOf hagain]
    rfl
  have htells : Item.Tells (· = EndTag.unknown) := by
    rintro _ _ rfl rfl left right htail
    exact ⟨rfl, by simpa [EndTag.unknown] using htail⟩
  obtain ⟨hitems, -⟩ := Item.textOfAll_append_inj htells _ _ hread
    (readable_arrangedItems hparse).apart.sealed halike htext
  -- so the tags that are written are the tags that are read
  have htags : Item.tagsAll settings.seals (settings.outlineOf again).1 =
      Item.tagsAll settings.seals (settings.arrangedItems document) := by
    have hsame := congrArg (Item.tagsAll settings.seals) hitems
    simpa only [Item.tagsAll_unnotedAll, Item.tagsAll_sealedAll, read, written] using hsame
  have hlaid := settings.tagsAll_arrangeAll _ hproper.1 ⟨.origin, Flow.start 0 (.start false)⟩
  rw [outlineOf, settings.tagsAll_outlineAll _ _ (Document.legible_of_parse hparse)] at hlaid
  obtain ⟨laid, hlaidMem, indent, cursor, rfl⟩ := exists_laid_of_mem hlaid hmem
  have hfits : (settings.layTag tag indent cursor).Fits :=
    (settings.proper_outlineOf hagain).1.apart.of_mem_tagsAll (htags ▸ hlaidMem)
  cases hfuses : settings.fuses tag with
  | false => rfl
  | true =>
      have htagFits : tag.Fits := by
        rw [← settings.tagsAll_outlineAll (settings.judge document) _
          (Document.legible_of_parse hparse) []] at hmem
        exact hproper.1.apart.of_mem_tagsAll hmem
      exact absurd hfits (settings.exists_twin htagFits hfuses indent cursor).not_fits

end Settings

/-! ## Reading again -/

/-- For settings that are accepted and a text that can be read, formatting gives a result. It can be
read again and gives a tree with the same sketch exactly if no start tag that is laid out fuses. -/
theorem sketch_format_iff {settings : Settings} {text : String} {document : Document}
    (hcheck : settings.check = .ok ()) (hparse : parse text.toList = .ok document) :
    ∃ output, format .plain settings text none = .ok output ∧
      ((∃ again, parse output.toList = .ok again ∧
          settings.sketchAll again.children = settings.sketchAll document.children) ↔
        ∀ tag ∈ settings.laidTagsAll document.children, settings.fuses tag = false) := by
  refine ⟨_, Settings.format_eq_written hcheck hparse, ?_⟩
  rw [String.toList_ofList]
  constructor
  · rintro ⟨again, hagain, hsketch⟩ tag hmem
    exact Settings.not_fuses_of_sketch hparse hagain hsketch hmem
  · intro hfree
    obtain ⟨again, hagain, hitems, -⟩ := Settings.exists_parse_written hparse hfree
    refine ⟨again, hagain, ?_⟩
    rw [← settings.sketch_outlineOf hagain, ← settings.sketch_arrangedItems hparse,
      ← Item.sketchAll_sealedAll_unnotedAll, hitems, Item.sketchAll_sealedAll_unnotedAll]

/-- A text whose tags do not fuse: one with a slash that is a value, quoted, and one with a slash
behind a name. -/
theorem sketch_format_slash :
    let settings : Settings := {}
    let text := "<p a='/' >x  y\n<br b/ /></p >"
    settings.check = .ok () ∧ ∃ document output again, parse text.toList = .ok document ∧
      format .plain settings text none = .ok output ∧ parse output.toList = .ok again ∧
        settings.sketchAll again.children = settings.sketchAll document.children := by
  intro settings text
  have hcheck : settings.check = .ok () := by with_unfolding_all rfl
  have hread : ((parse text.toList).toOption.map fun document =>
      (settings.laidTagsAll document.children).any settings.fuses) = some false := by
    decide +kernel
  obtain ⟨document, hdocument, hfree⟩ := Option.map_eq_some_iff.mp hread
  have hparse := toOption_eq_some_iff.mp hdocument
  obtain ⟨output, hformat, hiff⟩ := sketch_format_iff hcheck hparse
  obtain ⟨again, hagain, hsketch⟩ := hiff.mpr fun tag hmem => by
    simpa using List.any_eq_false.mp hfree tag hmem
  exact ⟨hcheck, document, output, again, hparse, hformat, hagain, hsketch⟩

/-- The blank between a value without quotes and the end of a tag that closes itself is dropped, and
the slash is read as part of the value: the element is not the same, and is left open. -/
theorem sketch_format_fused :
    let settings : Settings := {}
    let document : Document := ⟨"<a b=c />".toList, [.element
      ⟨0, ⟨['a'], [⟨[' '], ['b'], some ⟨['='], ['c'], none⟩⟩], [' '], .selfClosing⟩, none, ⟨0, 9⟩,
        ⟨9, 9⟩⟩ []], 1, []⟩
    let again : Document := ⟨"<a b=c/>".toList, [.element
      ⟨0, ⟨['a'], [⟨[' '], ['b'], some ⟨['='], ['c', '/'], none⟩⟩], [], .plain⟩, none, ⟨0, 8⟩,
        ⟨8, 8⟩⟩ []], 1, []⟩
    settings.check = .ok () ∧ parse "<a b=c />".toList = .ok document ∧
      format .plain settings "<a b=c />" none = .ok "<a b=c/>" ∧
        parse "<a b=c/>".toList = .ok again ∧
          settings.sketchAll again.children ≠ settings.sketchAll document.children := by
  intro settings document again
  have hformat : format .plain settings "<a b=c />" none = .ok "<a b=c/>" := by
    rw [← toOption_eq_some_iff]
    decide +kernel
  have hkept : settings.sketchAll document.children =
      [.element ⟨['a'], [(['b'], some ['c'])], .selfClosing⟩ [] false] := by
    with_unfolding_all rfl
  have hfound : settings.sketchAll again.children =
      [.element ⟨['a'], [(['b'], some ['c', '/'])], .plain⟩ [] false] := by
    with_unfolding_all rfl
  refine ⟨by with_unfolding_all rfl, by with_unfolding_all rfl, hformat,
    by with_unfolding_all rfl, ?_⟩
  rw [hfound, hkept]
  simp

end Markup
