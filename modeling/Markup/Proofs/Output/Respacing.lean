import Markup.Proofs.Output.Course
import Markup.Proofs.Plan.Respacing

/-!
# Existing indentation does not matter

Documents that are the same but for their blanks, as far as planning tells blanks apart, get the
same plan; and a node of which everything is decided is written without its blanks, so that the plan
writes them the same. Main statement: `format_of_respaced`.
-/

namespace Markup

open Markup.Text

theorem Attribute.pieces_tight (attr : Attribute) (quote : Option Quote) :
    attr.tight.pieces quote = attr.pieces quote := by
  obtain ⟨gap, name, value⟩ := attr
  cases value <;> rfl

namespace Settings

variable {settings : Settings} {plan : Plan}

theorem flatMap_pieces_congr {attributes others : List Attribute}
    (hall : List.Forall₂ (Attribute.Respaced settings) attributes others)
    (layouts : List AttributeLayout) :
    ((attributes.zip layouts).flatMap fun (attr, layout) =>
        layout.gap.pieces ++ attr.pieces layout.quote) =
      (others.zip layouts).flatMap fun (attr, layout) =>
        layout.gap.pieces ++ attr.pieces layout.quote := by
  induction hall generalizing layouts with
  | nil => rfl
  | @cons attr other _ _ hattr _ ih =>
      cases layouts with
      | nil => rfl
      | cons layout more =>
          have hpieces : attr.pieces layout.quote = other.pieces layout.quote := by
            rw [← attr.pieces_tight, hattr.tight, other.pieces_tight]
          simp only [List.zip_cons_cons, List.flatMap_cons, ih, hpieces]

/-- A start tag is written without its blanks. -/
theorem pieces_congr {tag twin : StartTag} (hrespaced : tag.Respaced settings twin)
    (layouts : List AttributeLayout) (tagEnd : Gap) :
    tag.pieces layouts tagEnd = twin.pieces layouts tagEnd := by
  rw [StartTag.pieces, StartTag.pieces, hrespaced.name, hrespaced.ending,
    flatMap_pieces_congr hrespaced.attributes]

/-- A leaf that is laid out is written without the blanks of running text. -/
theorem renderWith_congr {leaf other : Leaf} (hrespaced : leaf.Respaced settings other)
    {layout : Layout} {pieces : List OutputPiece} (hrender : leaf.renderWith layout = .ok pieces) :
    other.renderWith layout = .ok pieces := by
  have hkind := hrespaced.kind
  unfold Leaf.renderWith at hrender ⊢
  rw [← hkind]
  cases hleaf : leaf.kind with
  | text =>
      rw [hleaf] at hrender
      rw [← Run.wordList_eq_of_units (hrespaced.words hleaf).units]
      cases layout with
      | text gaps =>
          simp only at hrender ⊢
          split at hrender
          next => exact hrender
          next => cases hrender
      | element attributes tagEnd content endTag => cases hrender
      | atom => cases hrender
  | _ =>
      rw [hleaf] at hrender
      have hpieces : leaf.pieces = other.pieces := by
        rw [Leaf.pieces, Leaf.pieces, ← hkind, hleaf, hrespaced.raw (by simp [hleaf])]
      cases layout with
      | text gaps => cases hrender
      | element attributes tagEnd content endTag => cases hrender
      | atom => exact hpieces ▸ hrender

/-- An end tag is written by its name alone. -/
theorem endPieces_congr {endTag other : Option EndTag}
    (hname : endTag.map EndTag.name = other.map EndTag.name) (gap : Gap) :
    endPieces endTag gap = endPieces other gap := by
  cases endTag with
  | none =>
      cases other with
      | none => rfl
      | some twin => cases hname
  | some tag =>
      cases other with
      | none => cases hname
      | some twin =>
          have hsame : tag.name = twin.name := Option.some.inj hname
          rw [endPieces, endPieces, EndTag.pieces, EndTag.pieces, hsame]

mutual

theorem render_congr {node other : Node} (hrespaced : Node.Respaced settings node other)
    {rest : List Node} {progress : Progress}
    (hcourse : settings.Course plan (node :: rest) progress) {pieces : List OutputPiece}
    (hrender : plan.render node = .ok pieces) :
    plan.render other = .ok pieces := by
  obtain ⟨decision, hdecision, -⟩ := hcourse.exists_decidedAt
  rw [Plan.render_of_decision hdecision] at hrender
  obtain ⟨written, hwritten, rfl⟩ := map_eq_ok_iff.mp hrender
  cases node with
  | leaf leaf =>
      cases other with
      | leaf other =>
          have hsame : plan.get? (Node.leaf other).id = some decision := by
            rw [Node.id, ← hrespaced.id]
            exact hdecision
          rw [Plan.render_of_decision hsame]
          exact map_eq_ok_iff.mpr ⟨written, renderWith_congr hrespaced hwritten, rfl⟩
      | element twin others => exact absurd hrespaced id
  | element elem children =>
      cases other with
      | leaf other => exact absurd hrespaced id
      | element twin others =>
          obtain ⟨hid, htag, hinside⟩ := id hrespaced
          have hsame : plan.get? (Node.element twin others).id = some decision := by
            rw [Node.id, ← hid]
            exact hdecision
          rw [Plan.render_of_decision hsame]
          refine map_eq_ok_iff.mpr ⟨written, ?_, rfl⟩
          obtain ⟨endTag, rfl, -⟩ := hcourse.decision_element hdecision
          simp only [Plan.inside, ← htag.attributes.length_eq, ← pieces_congr htag] at hwritten ⊢
          split at hwritten
          next => cases hwritten
          next hlength =>
            obtain ⟨content, hcontent, rfl⟩ := map_eq_ok_iff.mp hwritten
            rw [if_neg hlength]
            refine map_eq_ok_iff.mpr ⟨content, ?_, rfl⟩
            cases hkind : settings.contentOf elem.tag with
            | empty => rwa [hkind] at hcontent
            | verbatim =>
                rw [if_pos hkind] at hinside
                rw [hkind] at hcontent
                rwa [Plan.content, hinside.1] at hcontent
            | formatted =>
                obtain ⟨hended, hchildren⟩ := respacedAll_children hrespaced (by simp [hkind])
                rw [hkind] at hcontent
                obtain ⟨inner, hinner, rfl⟩ := map_eq_ok_iff.mp hcontent
                have hsameInner := renderAll_congr hchildren (hcourse.content hkind) hinner
                refine map_eq_ok_iff.mpr ⟨inner, hsameInner, ?_⟩
                rw [endPieces_congr hended]

/-- Nodes that are the same but for their blanks are written the same by what is decided about the
first of them. -/
theorem renderAll_congr {nodes others : List Node}
    (hrespaced : Node.RespacedAll settings nodes others) {progress : Progress}
    (hcourse : settings.Course plan nodes progress) {pieces : List OutputPiece}
    (hrender : plan.renderAll nodes = .ok pieces) : plan.renderAll others = .ok pieces := by
  cases nodes with
  | nil =>
      cases others with
      | nil => exact hrender
      | cons other more => exact absurd hrespaced id
  | cons node rest =>
      cases others with
      | nil => exact absurd hrespaced id
      | cons other more =>
          obtain ⟨first, behind, hfirst, hbehind, rfl⟩ := Plan.renderAll_cons_eq_ok_iff.mp hrender
          exact Plan.renderAll_cons_eq_ok (render_congr hrespaced.1 hcourse hfirst)
            (renderAll_congr hrespaced.2 hcourse.tail hbehind)

end

end Settings

/-- Where blanks are not kept, two texts that can be read as documents that are the same but for
their blanks, as far as planning tells blanks apart, are formatted to the same result. -/
theorem format_of_respaced {palette : Palette} {settings : Settings} {first second : String}
    {document other : Document} (hcheck : settings.check = .ok ())
    (hkeep : settings.keepWhitespaces = false) (hfirst : parse first.toList = .ok document)
    (hsecond : parse second.toList = .ok other) (hrespaced : document.Respaced settings other) :
    ∃ output, format palette settings first none = .ok output ∧
      format palette settings second none = .ok output := by
  have hcourse := settings.course_document hfirst
  have hplan := settings.plan_none hcheck
  obtain ⟨pieces, hpieces, -⟩ :=
    @Settings.Course.ends _ _ _ _ hcourse [] ⟨rfl, rfl, .inl ⟨rfl, rfl⟩⟩
  have hsame := Settings.renderAll_congr hrespaced.children hcourse hpieces
  have hrender : ∀ {document : Document},
      (settings.layoutDocument document).renderAll document.children = .ok pieces →
        (settings.layoutDocument document).renderDocument document =
          .ok (pieces ++ (settings.layoutDocument document).ending.pieces) := by
    intro document hpieces
    rw [Plan.renderDocument, hpieces]
    rfl
  have hfound := Settings.layoutDocument_congr hkeep hrespaced
  refine ⟨_, format_eq_ok hcheck hfirst (hplan _) (hrender hpieces), ?_⟩
  rw [hfound]
  exact format_eq_ok hcheck hsecond (hplan _) (hrender (hfound ▸ hsame))

/-- Wide and narrow spacing of one document: an element over several lines with a paragraph indented
by a tab in the one, and with five line feeds where the other has three; a preserved element that
the end of the text ends, with blanks at its end. -/
theorem format_of_respaced_pre :
    let settings : Settings := {}
    let first := "<div id = a\n  title='b c' >\n\t\t<p>x \t y</p >\n\n\n\n\n<pre> q\t\n"
    let second := "<div id=a\n\ttitle= 'b c' > \n<p>x y</p>\n\n\n<pre> q\n"
    settings.check = .ok () ∧ settings.keepWhitespaces = false ∧ ∃ document other,
      parse first.toList = .ok document ∧ parse second.toList = .ok other ∧
        document.Respaced settings other ∧ first ≠ second ∧ ∃ output,
          format .plain settings first none = .ok output ∧
            format .plain settings second none = .ok output := by
  intro settings first second
  have hcheck : settings.check = .ok () := by with_unfolding_all rfl
  have hread : ((parse first.toList).toOption.bind fun document =>
      (parse second.toList).toOption.map fun other =>
        decide (document.Respaced settings other)) = some true := by
    decide +kernel
  obtain ⟨document, hdocument, hrest⟩ := Option.bind_eq_some_iff.mp hread
  obtain ⟨other, hother, hdecide⟩ := Option.map_eq_some_iff.mp hrest
  have hrespaced := of_decide_eq_true hdecide
  have hfirst := toOption_eq_some_iff.mp hdocument
  have hsecond := toOption_eq_some_iff.mp hother
  exact ⟨hcheck, rfl, document, other, hfirst, hsecond, hrespaced, by decide,
    format_of_respaced hcheck rfl hfirst hsecond hrespaced⟩

end Markup
