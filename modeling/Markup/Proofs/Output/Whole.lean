import Markup.Proofs.Output.Frame

/-!
# A range over the whole text

The run that such a range selects is the whole document, laid out from an anchored position behind
an inline item where a full pass begins a fresh output. A text that does not begin with blanks
leaves nothing to these differences: nothing goes in front of its first node either way, and behind
that node both ways of planning are in the same state. What differs is the end, where blanks are
kept behind a run and a document gets its final line feed. Main statement: `format_range_whole`.
-/

namespace Markup

open Markup.Text

/-! ## What is selected -/

theorem Text.ceilBoundary_byteSize (text : List Char) :
    ceilBoundary text (byteSize text) = byteSize text := by
  induction text with
  | nil => rfl
  | cons c rest ih =>
      have hpos : ¬c.utf8Size + byteSize rest = 0 := by
        have hsize := c.utf8Size_pos
        omega
      rw [byteSize_cons, ceilBoundary, if_neg hpos, Nat.add_sub_cancel_left, ih]

theorem Span.normalize_whole (text : List Char) :
    Span.normalize ⟨0, byteSize text⟩ text = ⟨0, byteSize text⟩ := by
  have hstart : floorBoundary text 0 = 0 :=
    congrArg byteSize (takeBytes_byteSize_append [] text).1
  simp [Span.normalize, hstart, ceilBoundary_byteSize]

/-- A range up to the end of a row of nodes touches all of them, if it does not begin behind
them. -/
theorem upToLast_of_tile {range : Span} {nodes : List Node} {start : Nat}
    (htile : Span.Tile (nodes.map Node.span) start range.stop) (hstart : range.start ≤ start) :
    upToLast range nodes = nodes := by
  induction nodes generalizing start with
  | nil => rfl
  | cons node rest ih =>
      have hoverlaps := htile.overlaps hstart
      obtain ⟨hbegin, hlt, hrest⟩ := htile
      rw [upToLast, ih hrest (by omega)]
      cases rest with
      | nil => exact if_pos hoverlaps
      | cons next others => rfl

namespace Settings

variable (settings : Settings)

/-- A range over the whole text selects all of it: no element has content that begins with the
text. -/
theorem select_whole {text : List Char} {document : Document} (hparse : parse text = .ok document)
    {first : Node} {rest : List Node} (hchildren : document.children = first :: rest) :
    settings.select document ⟨0, byteSize text⟩ = some ⟨none, none, first, rest⟩ := by
  obtain ⟨htile, -, -, -, helements, -⟩ := Document.tiles_of_parse hparse
  have hlie := Document.lieFrom_of_parse hparse
  rw [hchildren] at htile hlie
  have hrest : upToLast ⟨0, byteSize text⟩ rest = rest := upToLast_of_tile htile.2.2 (Nat.zero_le _)
  have hoverlaps : first.span.overlaps ⟨0, byteSize text⟩ = true :=
    @Span.Tile.overlaps _ ⟨0, byteSize text⟩ _ _ htile (Nat.zero_le _)
  rw [select, hchildren, selectAmong, if_pos hoverlaps, hrest]
  cases rest with
  | cons next others => rfl
  | nil =>
      cases first with
      | leaf piece => rfl
      | element elem children =>
          have hopened := hlie.1.1
          have houtside : elem.content.contains ⟨0, byteSize text⟩ = false := by
            have hpos := byteSize_pos (show elem.tag.text ≠ [] by simp [StartTag.text])
            simp only [Span.contains, Element.content, hopened, decide_eq_false_iff_not]
            omega
          simp only [selectWithin, houtside, Bool.false_eq_true, if_false]

end Settings

/-! ## The first node -/

/-- The start of the output, where the source is still to be reproduced. -/
def Cursor.anchor : Cursor :=
  ⟨0, true, false, true, 0⟩

namespace Settings

variable (settings : Settings)

/-- A run at the start of a text begins at the anchored start of the output. -/
theorem runStage_whole (document : Document) (first : Node) (rest : List Node)
    (hstart : first.span.start = 0) :
    settings.runStage document ⟨none, none, first, rest⟩ =
      ⟨.anchor, Flow.start 0 .inline⟩ := by
  have htake : takeBytes 0 document.source = [] := (takeBytes_byteSize_append [] document.source).1
  have hline : Selection.line ⟨none, none, first, rest⟩ document.source = [] := by
    simp [Selection.line, Selection.start, hstart, htake, lastLine]
  simp [runStage, runIndent, leadOf, leadText?, hline, Cursor.anchor]

/-- The first word of a text that does not begin with a blank has nothing in front of it. -/
theorem exists_words_of_solid {text : List Char} (hne : text ≠ [])
    (hsolid : ∀ c ∈ text.head?, isBlank c = false) :
    ∃ first others trailing, Run.ofText text = .words [] first others trailing := by
  have hsource := Run.source_ofText text
  have hproper := Run.proper_ofText text
  cases hrun : Run.ofText text with
  | blank leading =>
      rw [hrun] at hsource hproper
      obtain ⟨c, rest, rfl⟩ := List.exists_cons_of_ne_nil hne
      obtain rfl : leading = c :: rest := hsource
      have hblank : isBlank c = true := List.all_eq_true.mp hproper c List.mem_cons_self
      simp [hblank] at hsolid
  | words leading first others trailing =>
      rw [hrun] at hsource hproper
      cases leading with
      | nil => exact ⟨first, others, trailing, rfl⟩
      | cons c blanks =>
          have hblank : isBlank c = true := List.all_eq_true.mp hproper.1 c List.mem_cons_self
          rw [← hsource] at hsolid
          simp [Run.source, hblank] at hsolid

/-- Nothing goes in front of a leaf at either start, and writing it leaves both behind. -/
theorem layoutLeaf_whole (leaf : Leaf) (hne : leaf.raw ≠ [])
    (hsolid : ∀ c ∈ leaf.raw.head?, isBlank c = false) (draft : Draft) :
    settings.layoutLeaf leaf ⟨draft.moveTo .anchor, Flow.start 0 .inline, []⟩ =
      settings.layoutLeaf leaf ⟨draft.moveTo .origin, Flow.start 0 (.start false), []⟩ := by
  have hatom : ∀ kind, settings.layoutAtom leaf kind
        ⟨draft.moveTo .anchor, Flow.start 0 .inline, []⟩ =
      settings.layoutAtom leaf kind
        ⟨draft.moveTo .origin, Flow.start 0 (.start false), []⟩ := by
    intro kind
    obtain ⟨c, rest, hraw⟩ := List.exists_cons_of_ne_nil hne
    simp only [layoutAtom, hraw]
    cases kind <;> rfl
  unfold layoutLeaf
  cases leaf.kind with
  | text =>
      obtain ⟨first, others, trailing, hrun⟩ := exists_words_of_solid hne hsolid
      simp only [layoutText, hrun]
      simp only [layoutWords_eq_fill]
      rfl
  | comment => exact hatom .comment
  | verbatim => exact hatom .inline
  | doctype => exact hatom .block

/-- What preceded an element is forgotten behind it. -/
theorem finishElement_congr (id : Nat) (heading : Heading) (flow : Flow) (content : Content)
    (body : Body) (hindent : flow.indent = heading.flow.indent)
    (hbroken : flow.broken = heading.flow.broken) (hblocks : flow.blocks = heading.flow.blocks) :
    finishElement id { heading with flow := flow } content body =
      finishElement id heading content body := by
  obtain ⟨indent, preceding, broken, blocks⟩ := flow
  dsimp only at hindent hbroken hblocks
  subst hindent hbroken hblocks
  unfold finishElement Flow.follow
  cases heading.block <;> rfl

/-- Both ways to begin are in the same state behind the first node. -/
theorem layoutNode_whole (node : Node) (htidy : node.Tidy)
    (hsolid : ∀ c ∈ node.text.head?, isBlank c = false) (draft : Draft) :
    settings.layoutNode node ⟨draft.moveTo .anchor, Flow.start 0 .inline, []⟩ =
      settings.layoutNode node ⟨draft.moveTo .origin, Flow.start 0 (.start false), []⟩ := by
  cases node with
  | leaf piece =>
      rw [Node.text_leaf] at hsolid
      exact settings.layoutLeaf_whole piece htidy hsolid draft
  | element elem children =>
      have hheading : settings.layoutHeading elem.tag children
            ⟨draft.moveTo .anchor, Flow.start 0 .inline, []⟩ =
          { settings.layoutHeading elem.tag children
            ⟨draft.moveTo .origin, Flow.start 0 (.start false), []⟩ with
              flow := Flow.start 0 .inline } := rfl
      rw [layoutNode, layoutNode, hheading]
      cases settings.contentOf elem.tag <;>
        exact finishElement_congr _ _ _ _ _ rfl rfl rfl

/-- A run over the whole text is laid out as the document is. -/
theorem laidRun_whole {text : List Char} {document : Document} (hparse : parse text = .ok document)
    (hsolid : ∀ c ∈ text.head?, isBlank c = false) {first : Node} {rest : List Node}
    (hchildren : document.children = first :: rest) :
    settings.laidRun document ⟨none, none, first, rest⟩ = settings.laidOut document := by
  have hlie := Document.lieFrom_of_parse hparse
  have htidy := (Document.tidy_of_parse hparse).2
  have htext := Document.textOfAll_of_parse hparse
  rw [hchildren] at hlie htidy htext
  have hstart : first.span.start = 0 := by rw [Node.span_of_lies hlie.1]
  have hhead : ∀ c ∈ first.text.head?, isBlank c = false := by
    intro c hc
    refine hsolid c ?_
    rw [← htext, Node.textOfAll_cons, List.head?_append, Option.mem_def.mp hc]
    rfl
  have hfirst := settings.layoutNode_whole first htidy.1 hhead (Draft.start .origin document.count)
  rw [laidRun, laidOut, hchildren, settings.runStage_whole document first rest hstart]
  exact congrArg (settings.layoutNodes rest) hfirst

theorem text_finalGap (blanks : List Char) :
    (settings.finalGap blanks).text =
      if settings.keepWhitespaces then blanks else if '\n' ∈ blanks then ['\n'] else [] := by
  unfold finalGap
  split
  next => exact Gap.text_keep blanks
  next => by_cases hmem : '\n' ∈ blanks <;> simp [hmem, Gap.text]

/-- A document is written as the run over all of it, with other blanks at the end. -/
theorem exists_render_whole {text : List Char} {document : Document}
    (hparse : parse text = .ok document) (hsolid : ∀ c ∈ text.head?, isBlank c = false)
    {first : Node} {rest : List Node} (hchildren : document.children = first :: rest)
    (hstands : Selection.Stands ⟨none, none, first, rest⟩ document) :
    ∃ pieces, (settings.layoutDocument document).renderDocument document = .ok pieces ∧
      joinPieces pieces = Item.textOfAll (settings.runItems document ⟨none, none, first, rest⟩) ++
        (settings.finalGap (settings.runOutline document ⟨none, none, first, rest⟩).2).text := by
  obtain ⟨hblanks, pieces, hpieces, hwritten⟩ := settings.agrees_laidRun hstands
  rw [settings.laidRun_whole hparse hsolid hchildren] at hblanks hpieces
  have hsame : (settings.layoutDocument document).renderAll document.children = .ok pieces := by
    rw [hchildren, ← hpieces]
    exact Plan.renderAll_congr _ fun _ _ => rfl
  refine ⟨pieces ++ (settings.finalGap (settings.laidOut document).blanks).pieces, ?_, ?_⟩
  · rw [Plan.renderDocument, hsame]
    rfl
  · rw [joinPieces_append, hwritten, Gap.joinPieces_pieces, hblanks]

end Settings

/-- A run that is all of a text fills it. -/
theorem Selection.Fills.eq_nil {selection : Selection} {text front back : List Char}
    (hfills : selection.Fills text front back) (hwhole : Node.textOfAll selection.siblings = text) :
    front = [] ∧ back = [] := by
  have hlength := congrArg List.length hfills.source
  rw [hwhole] at hlength
  simp only [List.length_append] at hlength
  exact ⟨List.length_eq_zero_iff.mp (by omega), List.length_eq_zero_iff.mp (by omega)⟩

/-! ## Formatting all of a text -/

/-- Formatting the range over a whole text that does not begin with blanks gives what formatting the
text gives, but for the blanks at its end: a range keeps them, a full pass keeps them where the
settings do and otherwise leaves a single line feed if there is one among them. -/
theorem format_range_whole {settings : Settings} {text : String} {document : Document}
    (hcheck : settings.check = .ok ()) (hparse : parse text.toList = .ok document)
    (hsolid : ∀ c ∈ text.toList.head?, isBlank c = false) :
    let blanks := (splitTail text.toList).2
    ∃ body : List Char,
      format .plain settings text (some ⟨0, byteSize text.toList⟩) =
        .ok (String.ofList (body ++ blanks)) ∧
      format .plain settings text none =
        .ok (String.ofList (body ++
          if settings.keepWhitespaces then blanks
          else if '\n' ∈ blanks then ['\n'] else [])) := by
  intro blanks
  have hsource := Document.source_of_parse hparse
  have hwhole := Document.textOfAll_of_parse hparse
  cases hchildren : document.children with
  | nil =>
      -- only the empty text has no nodes, and a range selects nothing in it
      have hempty : text.toList = [] := by rw [← hwhole, hchildren]; rfl
      have hblanks : blanks = [] := by
        change (splitTail text.toList).2 = []
        rw [hempty]
        rfl
      obtain ⟨pieces, hpieces, hwritten⟩ := settings.renderDocument_layoutDocument hparse
      have hplan : settings.plan document none = .ok (settings.layoutDocument document) := by
        simp only [Settings.plan, hcheck]
        rfl
      refine ⟨[], ?_, ?_⟩
      · have hnone : settings.select document (Span.normalize ⟨0, byteSize text.toList⟩
            text.toList) = none := by rw [Settings.select, hchildren, Settings.selectAmong]
        rw [(format_range_frame hcheck hparse _).1 hnone, hblanks, List.append_nil, ← hempty,
          String.ofList_toList]
      · rw [format_eq_ok hcheck hparse hplan hpieces, Palette.render_plain, hwritten, hchildren,
          hblanks, ← settings.text_finalGap []]
        rfl
  | cons first rest =>
      have hselect := settings.select_whole hparse hchildren
      have hstands := Settings.stands_of_select hparse hselect
      rw [hchildren] at hwhole
      -- what an outline leaves over at its end are the blanks that the text ends with
      have htail : (settings.runOutline document ⟨none, none, first, rest⟩).2 = blanks := by
        have hsplit := settings.splitTail_run hstands
        rw [show Selection.nodes ⟨none, none, first, rest⟩ = first :: rest from rfl,
          hwhole] at hsplit
        exact (congrArg Prod.snd hsplit).symm
      refine ⟨Item.textOfAll (settings.runItems document ⟨none, none, first, rest⟩), ?_, ?_⟩
      · obtain ⟨front, back, pieces, hfills, hpieces, hwritten⟩ :=
          settings.exists_render_selection hparse hselect
        obtain ⟨rfl, rfl⟩ := hfills.eq_nil hwhole
        have hplan : settings.plan document (some ⟨0, byteSize text.toList⟩) =
            .ok (settings.layoutSelection document ⟨none, none, first, rest⟩) := by
          simp only [Settings.plan, hcheck, bind, Except.bind, hsource,
            Span.normalize_whole, hselect]
          rfl
        have hnothing : settings.leadIn document ⟨none, none, first, rest⟩
            (Selection.upTo ⟨none, none, first, rest⟩ []) = [] := rfl
        rw [format_eq_ok hcheck hparse hplan hpieces, Palette.render_plain, hwritten, hnothing,
          htail, List.nil_append, List.append_nil]
      · obtain ⟨pieces, hpieces, hwritten⟩ :=
          settings.exists_render_whole hparse hsolid hchildren hstands
        have hplan : settings.plan document none = .ok (settings.layoutDocument document) := by
          simp only [Settings.plan, hcheck]
          rfl
        rw [format_eq_ok hcheck hparse hplan hpieces, Palette.render_plain, hwritten, htail,
          settings.text_finalGap]

/-- Blanks at the end of an element that is not ended. -/
theorem format_range_whole_unclosed :
    let settings : Settings := {}
    let text := "<p>one  two\n<b>three\n  "
    settings.check = .ok () ∧ ∃ document, parse text.toList = .ok document ∧
      ∃ body : List Char,
        format .plain settings text (some ⟨0, 23⟩) =
          .ok (String.ofList (body ++ ['\n', ' ', ' '])) ∧
            format .plain settings text none = .ok (String.ofList (body ++ ['\n'])) := by
  intro settings text
  have hcheck : settings.check = .ok () := by with_unfolding_all rfl
  have hread : (parse text.toList).toOption.isSome = true := by decide +kernel
  obtain ⟨document, hdocument⟩ := Option.isSome_iff_exists.mp hread
  have hparse := toOption_eq_some_iff.mp hdocument
  have hsize : byteSize text.toList = 23 := by decide
  have hblanks : (splitTail text.toList).2 = ['\n', ' ', ' '] := by decide
  obtain ⟨body, hrange, hfull⟩ := format_range_whole hcheck hparse (by simp [text, isBlank])
  rw [hsize, hblanks] at hrange
  rw [hblanks] at hfull
  exact ⟨hcheck, document, hparse, body, hrange, hfull⟩

end Markup
