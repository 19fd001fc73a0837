import Markup.Proofs.Output.Frame
import Markup.Proofs.Output.Preservation
import Markup.Proofs.Plan.Descent

/-!
# Formatting part of a formatted document

A run that a range selects in a formatted document comes out as it is, if its indent is evident from
the source: its container begins its line, or it has no container and either begins its line or
stands on one that is not indented. Behind something else on its line, an inline element does not
indent its children when the whole document is formatted, and does when they are formatted alone.
Main statement: `format_range_again`.
-/

namespace Markup

open Markup.Text

/-! ## Items that begin elsewhere -/

theorem Stage.bare_land {first second : Gap × Cursor × Flow}
    (hcolumn : first.2.1.column = second.2.1.column) (hblank : first.2.1.blank = second.2.1.blank)
    (hindent : first.2.2.indent = second.2.2.indent) :
    (Stage.land first).bare = (Stage.land second).bare := by
  simp [land, bare, hcolumn, hblank, hindent]

namespace Settings

variable {settings : Settings} {stage : Stage} {written : List Char}

/-- The gap in front of an item that is arranged as it is leads behind the blanks in front of it. -/
theorem skips_lead (hkeep : settings.keepWhitespaces = false) (hat : stage.At written) {item : Item}
    (hproper : item.Proper StartTag.Fits) (hsame : (settings.arrange item stage).1 = item) :
    stage.Skips written item.before (settings.lead item stage) ∧
      (settings.lead item stage).1.text = item.before := by
  have hskips : stage.Skips written (settings.lead item stage).1.text (settings.lead item stage) :=
    settings.skips_separate hkeep hat _ _ _
  have hgap : (settings.lead item stage).1.text = item.before := by
    rw [settings.arrange_eq_land hproper stage hskips.anchored] at hsame
    rw [← Item.before_apart _ (settings.lead item stage).1.text]
    exact congrArg Item.before hsame
  exact ⟨hgap ▸ hskips, hgap⟩

/-- Behind an anchor, the blanks in front of an item are kept. -/
theorem lead_anchored (settings : Settings) (item : Item) (hfresh : stage.cursor.fresh = false)
    (hanchored : stage.cursor.anchored = true) :
    settings.lead item stage = (.keep item.before,
      Cursor.skip { stage.cursor with anchored := false } (.keep item.before), stage.flow) := by
  simp [lead, separate, hfresh, hanchored]

theorem blank_skip_keep (cursor : Cursor) (blanks : List Char) :
    (cursor.skip (.keep blanks)).blank = (cursor.blank || blanks.contains '\n') := by
  cases blanks with
  | nil => simp [Gap.keep, Cursor.skip]
  | cons c rest => rfl

/-- Items that are arranged as they are behind more blanks are so wherever the first of them begins
in the same column, in lines of the same indent. -/
theorem arrangeAll_elsewhere {item : Item} {rest : List Item} {first second : Stage}
    {before : List Char} (hproper : item.Proper StartTag.Fits)
    (hproperBehind : (item.apart before).Proper StartTag.Fits)
    (hsame : (settings.arrangeAll (item.apart before :: rest) first).1 = item.apart before :: rest)
    (hfirst : (settings.lead (item.apart before) first).2.1.anchored = false)
    (hsecond : (settings.lead item second).2.1.anchored = false)
    (hgap : (settings.lead item second).1.text = item.before)
    (hland : (Stage.land (settings.lead item second)).bare =
      (Stage.land (settings.lead (item.apart before) first)).bare) :
    (settings.arrangeAll (item :: rest) second).1 = item :: rest := by
  obtain ⟨hitem, hrest⟩ := List.cons.inj hsame
  have hfirstArranged := settings.arrange_eq_land hproperBehind first hfirst
  have hsecondArranged := settings.arrange_eq_land hproper second hsecond
  rw [Item.apart_apart] at hfirstArranged
  obtain ⟨hlanded, hbehind⟩ := settings.arrange_congr (item.apart []) hland
  have hagain : (settings.arrange item second).1 = item := by
    rw [hsecondArranged, hgap, hlanded]
    rw [hfirstArranged] at hitem
    have happart := congrArg (Item.apart item.before) hitem
    simpa only [Item.apart_apart, Item.apart_before] using happart
  have hthere : (settings.arrange item second).2.bare =
      (settings.arrange (item.apart before) first).2.bare := by
    rw [hsecondArranged, hfirstArranged]
    exact hbehind
  rw [arrangeAll, hagain, settings.arrangeAll_congr rest hthere, hrest]

end Settings

/-! ## A run in a formatted document -/

/-- The indent of the run is evident from the source. -/
def Selection.Evident (selection : Selection) (source : List Char) : Prop :=
  selection.Begins source ∧ (selection.container = none →
    allBlank (selection.line source) = true ∨ Settings.lineIndent source selection.start = 0)

instance (selection : Selection) (source : List Char) : Decidable (selection.Evident source) :=
  inferInstanceAs (Decidable (_ ∧ (selection.container = none → _)))

namespace Settings

variable {settings : Settings} {document : Document} {selection : Selection}
  {front back : List Char}

/-- A document that is formatted to itself is arranged as it is. -/
theorem steady_of_format {text : String} (hcheck : settings.check = .ok ())
    (hparse : parse text.toList = .ok document) (hlimit : settings.heightLimit = 0)
    (hsame : format .plain settings text none = .ok text) :
    settings.Steady document.children [] ⟨.origin, Flow.start 0 (.start false)⟩ := by
  have hjudge : settings.judge document = fun _ => true := by
    funext id
    simp [judge, hlimit]
  have houtline : settings.outlineOf document =
      Node.outlineAll (fun _ => true) document.children [] := by rw [outlineOf, hjudge]
  rw [format_eq_written hcheck hparse] at hsame
  have hwritten : settings.writtenFor (settings.outlineOf document) = text.toList := by
    have hlist := congrArg String.toList (Except.ok.inj hsame)
    rwa [String.toList_ofList] at hlist
  have hagain : parse (settings.writtenFor (settings.outlineOf document)) = .ok document := by
    rw [hwritten, hparse]
  obtain ⟨again, hread, hitems, -⟩ := exists_parse_written hparse fun tag =>
    not_fuses_of_sketch hparse hagain rfl
  obtain rfl := Except.ok.inj (hagain.symm.trans hread)
  rw [arrangedItems, houtline, Node.unnotedAll_outlineAll] at hitems
  have hunnoted := settings.arrangeAll_unnotedAll hlimit
    (Node.outlineAll (fun _ => true) document.children []).1 ⟨.origin, Flow.start 0 (.start false)⟩
  rw [Node.unnotedAll_outlineAll] at hunnoted
  unfold Steady
  rw [hunnoted]
  exact hitems.symm

section Run

variable {source written pending : List Char} {stage : Stage} {item : Item} {rest : List Item}

/-- Where nothing but blanks precedes the run on its line, the line begins in the blanks in front of
the run, or else the document does. -/
theorem newline_mem_of_blank (hplace : settings.Place selection source written pending stage)
    (hblank : allBlank (lastLine (written ++ pending)) = true) : written = [] ∨ '\n' ∈ pending := by
  rcases hplace.stands.begun with ⟨hnil, -⟩ | ⟨hne, htrimmed, -⟩
  · exact .inl hnil
  · by_contra hnot
    have hsolid := htrimmed.not_blank_lastLine hne pending fun hmem => hnot (.inr hmem)
    rw [hsolid] at hblank
    cases hblank

/-- A run that begins behind a line feed begins with markup. -/
theorem isText_first_of_feed (hplace : settings.Place selection source written pending stage)
    (hfeed : '\n' ∈ pending) : selection.first.isText = false := by
  apply Bool.eq_false_iff.mpr
  intro htext
  rw [hplace.text htext] at hfeed
  cases hfeed

theorem exists_outline_of_feed (hplace : settings.Place selection source written pending stage)
    (hfeed : '\n' ∈ pending) :
    ∃ item rest, (Node.outlineAll (fun _ => true) selection.nodes []).1 = item :: rest ∧
      item.before = [] := by
  obtain ⟨item, hfirst, hbefore⟩ :=
    Node.exists_outline_of_not_isText (fun _ => true) (isText_first_of_feed hplace hfeed)
  have hcons : (Node.outlineAll (fun _ => true) selection.nodes []).1 =
      (Node.outline (fun _ => true) selection.first []).1 ++
        (Node.outlineAll (fun _ => true) selection.rest
          (Node.outline (fun _ => true) selection.first []).2).1 := rfl
  rw [hfirst] at hcons
  exact ⟨item, _, hcons, hbefore⟩

/-- Behind a line feed, the run has the indent of its lines. -/
theorem lastLine_of_feed (hplace : settings.Place selection source written pending stage)
    (houtline : (Node.outlineAll (fun _ => true) selection.nodes []).1 = item :: rest)
    {found : Gap × Cursor × Flow} (hskips : stage.Skips written (pending ++ item.before) found)
    (hfeed : '\n' ∈ pending) : lastLine pending = List.replicate stage.flow.indent ' ' := by
  obtain ⟨first, others, hfirst, hbefore⟩ := exists_outline_of_feed hplace hfeed
  obtain ⟨rfl, -⟩ := List.cons.inj (houtline.symm.trans hfirst)
  rw [hbefore, List.append_nil] at hskips
  exact hskips.feed hfeed

/-- The lines of the run have the indent that they have in the whole document. -/
theorem runIndent_eq (hplace : settings.Place selection document.source written pending stage)
    (hevident : selection.Evident document.source)
    (hline : selection.line document.source = lastLine (written ++ pending))
    (hstart : written = [] → pending = [])
    (hfeed : '\n' ∈ pending → lastLine pending = List.replicate stage.flow.indent ' ') :
    settings.runIndent document selection = stage.flow.indent := by
  have hnested := hplace.indent hevident.1
  unfold runIndent
  dsimp only
  split
  next hblank =>
    split
    next => exact hnested.symm
    next =>
      rw [hline] at hblank ⊢
      rcases newline_mem_of_blank hplace hblank with hnil | hmem
      · -- at the very start of the document, lines are not indented
        rw [hnested, hplace.top hnil, hnil, hstart hnil]
        rfl
      · rw [(lastLine_append hmem written).1, hfeed hmem, List.length_replicate]
  next hsolid =>
    split
    next => exact hnested.symm
    next hnone =>
      have htop : selection.container = none := by simpa using hnone
      rw [hnested, htop, (hevident.2 htop).resolve_left hsolid]
      rfl

/-- A run stands where its items begin in the whole document. -/
theorem bare_land_runStage (hline : selection.line document.source = lastLine (written ++ pending))
    (hitem : allBlank item.before = true)
    (hskips : stage.Skips written (pending ++ item.before)
      (settings.lead (item.apart (pending ++ item.before)) stage))
    (hindent : settings.runIndent document selection = stage.flow.indent)
    (hlead : (leadOf document selection).isSome = true →
      selection.line document.source = List.replicate stage.flow.indent ' ') :
    (Stage.land (settings.lead item (settings.runStage document selection))).bare =
      (Stage.land (settings.lead (item.apart (pending ++ item.before)) stage)).bare := by
  have hcolumn : (settings.runStage document selection).cursor.column =
      columnAfter 0 (written ++ pending) := by
    rw [columnAfter_zero, ← hline]
    unfold runStage
    dsimp only
    split
    next hsome => rw [hindent, hlead hsome, List.length_replicate]
    next => rfl
  have hblank : (settings.runStage document selection).cursor.blank =
      allBlank (lastLine (written ++ pending)) := by
    rw [← hline]
    rfl
  rw [settings.lead_anchored item rfl rfl]
  apply Stage.bare_land
  · have hkept := (Cursor.passes_skip { (settings.runStage document selection).cursor with
      anchored := false } (Gap.feeds_keep item.before)).column
    rw [Gap.text_keep] at hkept
    rw [hkept, hskips.column, hcolumn, ← columnAfter_append, List.append_assoc]
  · rw [hskips.blank, blank_skip_keep, hblank, ← List.append_assoc]
    by_cases hmem : '\n' ∈ item.before
    · have hlast : allBlank (lastLine item.before) = true := by
        have hwhole := beforeLastLine_append_lastLine hmem
        rw [← hwhole] at hitem
        simp only [allBlank_append, allBlank_cons, Bool.and_eq_true] at hitem
        exact hitem.2.2
      rw [(lastLine_append hmem _).1, hlast]
      simp [hmem]
    · rw [lastLine_append_of_not_mem hmem, allBlank_append, hitem]
      simp [hmem]
  · rw [hskips.indent, ← hindent]
    rfl

/-- The run is arranged as it is, and its line is indented as the line that is written for it. -/
theorem runItems_eq (hkeep : settings.keepWhitespaces = false) (hlimit : settings.heightLimit = 0)
    (hstands : selection.Stands document)
    (hplace : settings.Place selection document.source written pending stage)
    (hevident : selection.Evident document.source)
    (hline : selection.line document.source = lastLine (written ++ pending))
    (hlead : (leadOf document selection).isSome = true → '\n' ∈ pending) :
    settings.runItems document selection = (settings.runOutline document selection).1 ∧
      ((leadOf document selection).isSome = true →
        selection.line document.source =
          List.replicate (settings.runIndent document selection) ' ') := by
  have hjudge : settings.judgeRun document selection = fun _ => true := by
    funext id
    simp [judgeRun, hlimit]
  have hproper := (settings.proper_runOutline hstands).1
  rw [runItems]
  unfold runOutline at hproper ⊢
  rw [hjudge] at hproper ⊢
  generalize houtline : Node.outlineAll (fun _ => true) selection.nodes [] = outlined at hproper
  obtain ⟨items, left⟩ := outlined
  cases items with
  | nil =>
      refine ⟨rfl, fun hsome => ?_⟩
      obtain ⟨item, rest, hfirst, -⟩ := exists_outline_of_feed hplace (hlead hsome)
      rw [houtline] at hfirst
      cases hfirst
  | cons item rest =>
      have hdelayed : (Node.outlineAll (fun _ => true) selection.nodes pending).1 =
          item.apart (pending ++ item.before) :: rest := by
        have hdelay := Node.outlineAll_delay (fun _ => true) selection.nodes pending []
        rw [List.append_nil, houtline] at hdelay
        rw [hdelay]
        rfl
      have hbehind := @Item.Proper.behind _ _ hproper.1 (pending ++ item.before)
        (by simp [hplace.blank, hproper.1.blank_before])
      have hsteady := hplace.steady
      unfold Steady at hsteady
      rw [hdelayed] at hsteady
      obtain ⟨hskips, -⟩ := skips_lead hkeep hplace.stands hbehind (List.cons.inj hsteady).1
      rw [Item.before_apart] at hskips
      have hfeeds := lastLine_of_feed hplace (congrArg Prod.fst houtline) hskips
      have hindent := runIndent_eq hplace hevident hline
        (fun hnil => (List.append_eq_nil_iff.mp (hskips.start hnil)).1) hfeeds
      have hspaces : (leadOf document selection).isSome = true →
          selection.line document.source = List.replicate stage.flow.indent ' ' := by
        intro hsome
        rw [hline, (lastLine_append (hlead hsome) written).1, hfeeds (hlead hsome)]
      refine ⟨?_, fun hsome => by rw [hindent, hspaces hsome]⟩
      have hanchor := @lead_anchored (settings.runStage document selection) settings item rfl rfl
      apply arrangeAll_elsewhere hproper.1 hbehind hsteady hskips.anchored
      · rw [hanchor]
        cases item.before <;> rfl
      · rw [hanchor, Gap.text_keep]
      · exact bare_land_runStage hline hproper.1.blank_before hskips hindent hspaces

/-- The place of a run is behind what is in front of it. -/
theorem upTo_eq (hfills : selection.Fills source front back)
    (hplace : settings.Place selection source written pending stage) :
    selection.upTo front = written ++ pending := by
  obtain ⟨behind, hwhole⟩ := hplace.whole
  have htake := hfills.takeBytes_start
  rw [Selection.start, hplace.start, hwhole, (takeBytes_byteSize_append _ _).1] at htake
  exact htake.symm

/-- A run in a formatted document is written as it is, and so is what is in front of it. -/
theorem leadIn_append_run (hkeep : settings.keepWhitespaces = false)
    (hlimit : settings.heightLimit = 0) (hstands : selection.Stands document)
    (hfills : selection.Fills document.source front back)
    (hplace : settings.Place selection document.source written pending stage)
    (hevident : selection.Evident document.source) :
    settings.leadIn document selection (selection.upTo front) = selection.upTo front ∧
      settings.runItems document selection = (settings.runOutline document selection).1 := by
  have hup := upTo_eq hfills hplace
  have hline : selection.line document.source = lastLine (written ++ pending) := by
    rw [hfills.line_eq, hup]
  have hleads : ∀ leaf, leadOf document selection = some leaf →
      '\n' ∈ written ++ pending ∧ '\n' ∈ pending := by
    intro leaf hlead
    obtain ⟨hblank, hbefore, -, hmem⟩ := leadOf_eq_some_iff.mp hlead
    have hwhole : '\n' ∈ written ++ pending := by
      rw [← hup]
      simp [Selection.upTo, hbefore, hmem]
    refine ⟨hwhole, ?_⟩
    rw [hline] at hblank
    rcases newline_mem_of_blank hplace hblank with hnil | hfeed
    · simpa [hnil] using hwhole
    · exact hfeed
  obtain ⟨hitems, hspaces⟩ := runItems_eq hkeep hlimit hstands hplace hevident hline
    fun hsome => (hleads _ (Option.some_get hsome).symm).2
  refine ⟨?_, hitems⟩
  unfold leadIn
  split
  next => rfl
  next leaf hlead =>
    have hindented := hspaces (by rw [hlead]; rfl)
    rw [← hindented, hline, hup]
    exact beforeLastLine_append_lastLine (hleads leaf hlead).1

end Run

end Settings

/-! ## Formatting part of a document again -/

/-- For settings without a limit to the height of elements and that do not keep whitespace,
formatting any part of a text that is formatted to itself gives the text back, if the indent of the
run that is selected is evident from the text. -/
theorem format_range_again {settings : Settings} {text : String} {document : Document}
    (hcheck : settings.check = .ok ()) (hparse : parse text.toList = .ok document)
    (hkeep : settings.keepWhitespaces = false) (hlimit : settings.heightLimit = 0)
    (hsame : format .plain settings text none = .ok text) (range : Span)
    (hevident : ∀ selection, settings.select document (range.normalize text.toList) =
      some selection → selection.Evident text.toList) :
    format .plain settings text (some range) = .ok text := by
  have hsource := Document.source_of_parse hparse
  cases hselect : settings.select document (range.normalize text.toList) with
  | none =>
      have hplan : settings.plan document (some range) = .ok (Plan.empty document.count) := by
        simp only [Settings.plan, hcheck, bind, Except.bind, hsource, hselect]
        rfl
      obtain ⟨pieces, hpieces, hwritten⟩ := (Plan.renderDocument_undecided hparse).2 document.count
      rw [format_eq_ok hcheck hparse hplan hpieces, Palette.render_plain, hwritten,
        String.ofList_toList]
  | some selection =>
      have hplan : settings.plan document (some range) =
          .ok (settings.layoutSelection document selection) := by
        simp only [Settings.plan, hcheck, bind, Except.bind, hsource, hselect]
        rfl
      have hstands := Settings.stands_of_select hparse hselect
      obtain ⟨front, back, pieces, hfills, hpieces, hwritten⟩ :=
        Settings.exists_render_selection hparse hselect
      have hpicks : settings.Picks selection none document.children :=
        Settings.picks_selectAmong hselect
      obtain ⟨hparted, htidy⟩ := Document.tidy_of_parse hparse
      have hwhole : text.toList = [] ++ (Node.textOfAll document.children ++ []) := by
        rw [Document.textOfAll_of_parse hparse]
        simp
      obtain ⟨written, pending, stage, hplace⟩ := hpicks.exists_place hkeep hlimit
        (Document.legible_of_parse hparse) (Document.sound_of_parse hparse) hparted htidy hwhole
        (Document.lieFrom_of_parse hparse) ⟨rfl, rfl, .inl ⟨rfl, rfl, rfl⟩⟩
        (Settings.steady_of_format hcheck hparse hlimit hsame) (fun _ => rfl) fun _ => rfl
      have hplaceSource : settings.Place selection document.source written pending stage :=
        hsource ▸ hplace
      obtain ⟨hlead, hitems⟩ := Settings.leadIn_append_run hkeep hlimit hstands (hsource ▸ hfills)
        hplaceSource (hsource ▸ hevident selection hselect)
      have hrun := splitTail_append (Node.textOfAll selection.nodes)
      rw [settings.splitTail_run hstands] at hrun
      rw [format_eq_ok hcheck hparse hplan hpieces, Palette.render_plain, hwritten, hlead, hitems,
        ← List.append_assoc (Item.textOfAll _), hrun, ← hfills.eq_append, String.ofList_toList]

/-- An element on a line of its own, in a paragraph that begins the line in front of it. -/
theorem format_range_again_nested :
    let settings : Settings := {}
    let text := "<p>one\n    <b\n            c=d>two</b>\n</p>"
    let range : Span := ⟨30, 33⟩
    settings.check = .ok () ∧ settings.keepWhitespaces = false ∧ settings.heightLimit = 0 ∧
      format .plain settings text none = .ok text ∧
        ∃ document selection, parse text.toList = .ok document ∧
          settings.select document (range.normalize text.toList) = some selection ∧
            selection.Evident text.toList ∧
              format .plain settings text (some range) = .ok text := by
  intro settings text range
  have hcheck : settings.check = .ok () := by with_unfolding_all rfl
  have hsame : format .plain settings text none = .ok text := by
    rw [← toOption_eq_some_iff]
    decide +kernel
  have hread : ((parse text.toList).toOption.bind fun document =>
      (settings.select document (range.normalize text.toList)).map fun selection =>
        decide (selection.Evident text.toList)) = some true := by
    decide +kernel
  obtain ⟨document, hdocument, hselected⟩ := Option.bind_eq_some_iff.mp hread
  obtain ⟨selection, hselect, hevident⟩ := Option.map_eq_some_iff.mp hselected
  have hparse := toOption_eq_some_iff.mp hdocument
  have hformat := format_range_again hcheck hparse rfl rfl hsame range fun other hother => by
    obtain rfl := Option.some.inj (hselect.symm.trans hother)
    exact of_decide_eq_true hevident
  exact ⟨hcheck, rfl, rfl, hsame, document, selection, hparse, hselect, of_decide_eq_true hevident,
    hformat⟩

/-- The element begins behind a word on its line. Its child is not indented when the document is
formatted, and is when it is formatted alone. -/
theorem format_range_again_inline :
    let settings : Settings := {}
    let text := "x<b>\n<br></b>"
    let range : Span := ⟨5, 6⟩
    let output := "x<b>\n    <br></b>"
    settings.check = .ok () ∧ format .plain settings text none = .ok text ∧
      format .plain settings text (some range) = .ok output ∧ text ≠ output := by
  intro settings text range output
  have hsame : format .plain settings text none = .ok text := by
    rw [← toOption_eq_some_iff]
    decide +kernel
  have hrange : format .plain settings text (some range) = .ok output := by
    rw [← toOption_eq_some_iff]
    decide +kernel
  exact ⟨by with_unfolding_all rfl, hsame, hrange, by decide⟩

end Markup
