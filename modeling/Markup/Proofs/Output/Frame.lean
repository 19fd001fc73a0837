import Markup.Proofs.Output.Content
import Markup.Proofs.Plan.Splicing
import Markup.Proofs.Text.Splitting

/-!
# Formatting part of a document

A run that a range selects is written where it stands: the source in front of it and the source
behind its content come through as they are. The one exception is the indent of a run that begins
its line, if the line feed in front of that line lies in the text right in front of the run: this
indent is written anew. Main statements: `Settings.exists_render_selection` and
`format_range_frame`.
-/

namespace Markup

open Markup.Text

/-! ## The place of a run -/

namespace Selection

/-- The offset at which the run begins. -/
def start (selection : Selection) : Nat :=
  selection.first.span.start

/-- What is in front of the run on its line. -/
def line (selection : Selection) (source : List Char) : List Char :=
  lastLine (takeBytes selection.start source)

/-- The offset at which the line begins that the run begins on. -/
def lineStart (selection : Selection) (source : List Char) : Nat :=
  selection.start - byteSize (selection.line source)

/-- The source of the run. -/
def source (selection : Selection) (source : List Char) : List Char :=
  takeBytes (selection.last.span.stop - selection.start) (dropBytes selection.start source)

/-- The offset at which the content of the run ends. The blanks behind the content are left out, all
of them where the run is blank. -/
def stop (selection : Selection) (source : List Char) : Nat :=
  selection.last.span.stop - byteSize (splitTail (selection.source source)).2

/-- Only blanks precede the run on its line, and the line feed in front of this line lies in a text
right in front of the run. -/
def Leads (selection : Selection) (source : List Char) : Prop :=
  allBlank (selection.line source) = true ∧ ∃ leaf, selection.before = some (.leaf leaf) ∧
    leaf.kind = .text ∧ leaf.span.stop = selection.start ∧
      leaf.span.start < selection.lineStart source

instance (selection : Selection) (source : List Char) : Decidable (selection.Leads source) :=
  match hbefore : selection.before with
  | some (.leaf leaf) =>
      decidable_of_iff (allBlank (selection.line source) = true ∧ leaf.kind = .text ∧
        leaf.span.stop = selection.start ∧ leaf.span.start < selection.lineStart source)
          (by simp [Leads, hbefore])
  | some (.element _ _) => isFalse (by simp [Leads, hbefore])
  | none => isFalse (by simp [Leads, hbefore])

theorem exists_nodes_eq (selection : Selection) :
    ∃ front, selection.nodes = front ++ [selection.last] := by
  obtain ⟨container, before, first, rest⟩ := selection
  cases hlast : rest.getLast? with
  | none =>
      obtain rfl := List.getLast?_eq_none_iff.mp hlast
      exact ⟨[], rfl⟩
  | some last =>
      obtain ⟨front, rfl⟩ := List.getLast?_eq_some_iff.mp hlast
      exact ⟨first :: front, by simp [nodes, Selection.last]⟩

/-- The siblings that are planned: the run, and the node in front of it. -/
def siblings (selection : Selection) : List Node :=
  selection.before.toList ++ selection.nodes

/-- The run, with the node in front of it, has its place in a document. -/
structure Stands (selection : Selection) (document : Document) : Prop where
  nodup : (Node.idsOfAll selection.siblings).Nodup
  room : ∀ id ∈ Node.idsOfAll selection.siblings, id < document.count
  legible : Node.LegibleAll selection.siblings
  sound : Node.SoundAll selection.siblings
  parted : Node.Parted selection.siblings

end Selection

theorem Settings.stands_of_select {settings : Settings} {text : List Char} {document : Document}
    {range : Span} {selection : Selection} (hparse : parse text = .ok document)
    (hselect : settings.select document range = some selection) : selection.Stands document := by
  have hreaches : settings.Reaches selection.siblings document.children :=
    reaches_selectAmong hselect
  obtain ⟨hparted, htidy⟩ := Document.tidy_of_parse hparse
  refine ⟨(Document.nodup_ids_of_parse hparse).sublist hreaches.infix.sublist, fun id hmem => ?_,
    hreaches.legible (Document.legible_of_parse hparse),
    hreaches.sound (Document.sound_of_parse hparse), hreaches.parted hparted htidy⟩
  have hin := hreaches.infix.subset hmem
  rwa [Document.ids_of_parse hparse, List.mem_range] at hin

/-! ## Planning a run where it stands -/

namespace Settings

variable (settings : Settings) (document : Document) (selection : Selection)

/-- The text that holds the line feed in front of the run. -/
def leadOf : Option Leaf :=
  leadText? (allBlank (selection.line document.source)) selection.before

/-- The indent of the lines of the run. -/
def runIndent : Nat :=
  let line := selection.line document.source
  let nested := settings.nestedIndent document.source selection.container
  if allBlank line then if (leadOf document selection).isSome then nested else line.length
  else if selection.container.isSome then nested
  else lineIndent document.source selection.start

/-- The stage at which the run begins. -/
def runStage : Stage :=
  let line := selection.line document.source
  let indent := settings.runIndent document selection
  ⟨{ column := if (leadOf document selection).isSome then indent else line.length
     blank := allBlank line
     fresh := false
     anchored := true
     lines := 0 }, Flow.start indent .inline⟩

/-- How far the run has been laid out once all of it is. -/
def laidRun : Progress :=
  settings.layoutNodes selection.nodes
    ⟨Draft.start (settings.runStage document selection).cursor document.count,
      (settings.runStage document selection).flow, []⟩

/-- The plan of the run with the blanks behind it, which are kept. -/
def planBehind : Plan :=
  match (settings.laidRun document selection).blanks with
  | [] => (settings.laidRun document selection).draft.plan
  | c :: rest => (settings.laidRun document selection).draft.plan.modify selection.last.id
      fun decision => { decision with after := .kept (c :: rest) }

theorem layoutSelection_eq : settings.layoutSelection document selection =
    match leadOf document selection with
    | none => settings.planBehind document selection
    | some leaf =>
        ((settings.planBehind document selection).decide leaf.id (keepLines leaf)).modify
          selection.first.id fun decision =>
            { decision with before := .lineBreak 1 (settings.runIndent document selection) } :=
  rfl

/-- Whether the run is laid out as if an element in it were short. -/
def judgeRun (id : Nat) : Bool :=
  settings.heightLimit == 0 || (settings.laidRun document selection).draft.short? id != some false

/-- The outline of the run, and the blanks behind it. -/
def runOutline : List Item × List Char :=
  Node.outlineAll (settings.judgeRun document selection) selection.nodes []

/-- The items of the run as they are written. -/
def runItems : List Item :=
  (settings.arrangeAll (settings.runOutline document selection).1
    (settings.runStage document selection)).1

variable {document selection}

theorem proper_runOutline (hstands : selection.Stands document) :
    Item.ProperAll StartTag.Fits (settings.runOutline document selection).1 ∧
      allBlank (settings.runOutline document selection).2 = true :=
  Node.proper_outlineAll _ _ (Node.legibleAll_append.mp hstands.legible).2
    (Node.soundAll_append.mp hstands.sound).2 allBlank_nil

/-- The outline parts the source of the run into its content and the blanks behind it. -/
theorem splitTail_run (hstands : selection.Stands document) :
    splitTail (Node.textOfAll selection.nodes) =
      (Item.textOfAll (settings.runOutline document selection).1,
        (settings.runOutline document selection).2) := by
  obtain ⟨hproper, hblank⟩ := settings.proper_runOutline hstands
  have htext := Node.textOfAll_outlineAll (settings.judgeRun document selection) selection.nodes []
  rw [List.nil_append] at htext
  rw [← htext]
  exact (Item.trimmed_textOfAll _ hproper).splitTail_append hblank

/-! ## Writing the run -/

theorem room_run (hstands : selection.Stands document) {ids : List Nat}
    (hids : ids ⊆ Node.idsOfAll selection.siblings) (cursor : Cursor) :
    Room ids (Draft.start cursor document.count) := by
  intro id hmem
  have hlt := hstands.room id (hids hmem)
  simpa [Draft.start, Plan.empty] using hlt

theorem ids_nodes_subset (selection : Selection) :
    Node.idsOfAll selection.nodes ⊆ Node.idsOfAll selection.siblings := by
  rw [Selection.siblings, idsOfAll_append]
  exact List.subset_append_right _ _

theorem nodup_run (hstands : selection.Stands document) :
    (Node.idsOfAll selection.nodes).Nodup := by
  have hnodup := hstands.nodup
  rw [Selection.siblings, idsOfAll_append] at hnodup
  exact (List.nodup_append.mp hnodup).2.1

/-- The run is written as its outline is arranged. -/
theorem agrees_laidRun (hstands : selection.Stands document) :
    (settings.runOutline document selection).2 = (settings.laidRun document selection).blanks ∧
      ∃ pieces, (settings.laidRun document selection).draft.plan.renderAll selection.nodes =
        .ok pieces ∧ joinPieces pieces = Item.textOfAll (settings.runItems document selection) := by
  have hknows : settings.Knows (settings.judgeRun document selection)
      (Node.idsOfAll selection.nodes) (settings.laidRun document selection).draft := by
    intro hlimit id _ fits hfits
    rw [judgeRun, hfits]
    cases fits <;> simp [hlimit]
  obtain ⟨-, hleft, hwritten⟩ := agrees_layoutNodes selection.nodes
    (Node.legibleAll_append.mp hstands.legible).2 (Node.soundAll_append.mp hstands.sound).2
    (nodup_run hstands) _ (room_run hstands (ids_nodes_subset selection) _) hknows
  exact ⟨hleft, hwritten _ fun _ _ => rfl⟩

/-- The run is written with the blanks behind it as they are. -/
theorem exists_render_behind (hstands : selection.Stands document) :
    ∃ pieces, (settings.planBehind document selection).renderAll selection.nodes = .ok pieces ∧
      joinPieces pieces = Item.textOfAll (settings.runItems document selection) ++
        (settings.runOutline document selection).2 := by
  obtain ⟨hleft, pieces, hpieces, htext⟩ := settings.agrees_laidRun hstands
  rw [hleft]
  unfold planBehind
  split
  next hnil => exact ⟨pieces, hpieces, by rw [htext, hnil, List.append_nil]⟩
  next c rest hblanks =>
    obtain ⟨front, hnodes⟩ := selection.exists_nodes_eq
    have hnodup := nodup_run hstands
    have hroom := room_run hstands (ids_nodes_subset selection)
      (settings.runStage document selection).cursor
    have hlast : ∃ decision, (settings.laidRun document selection).draft.plan.get?
        selection.last.id = some decision ∧ decision.after = .nothing := by
      rw [hnodes] at hroom
      rw [laidRun, hnodes]
      exact settings.exists_last_decision hroom
    obtain ⟨decision, hdecision, hnothing⟩ := hlast
    rw [hnodes] at hnodup hpieces
    refine ⟨_, hnodes ▸ Plan.renderAll_modify_last hnodup hdecision hnothing hpieces, ?_⟩
    rw [joinPieces_append, htext, hblanks, Gap.joinPieces_pieces]
    rfl

/-! ## The text in front of a run -/

/-- A text whose last line is blank has its last line feed behind its last word. -/
theorem mem_of_blank_lastLine {body trailing : List Char} (hne : body ≠ [])
    (htrimmed : Trimmed body) (hmem : '\n' ∈ body ++ trailing)
    (hblank : allBlank (lastLine (body ++ trailing)) = true) :
    '\n' ∈ trailing := by
  by_contra hnot
  obtain ⟨c, hlast, hsolid⟩ := htrimmed.exists_getLast? hne
  obtain ⟨front, rfl⟩ := List.getLast?_eq_some_iff.mp hlast
  have hfeed : '\n' ≠ c := by
    rintro rfl
    simp [isBlank] at hsolid
  obtain ⟨before, line, rfl, hline⟩ : ∃ before line, front = before ++ '\n' :: line ∧ '\n' ∉ line :=
    exists_lastLine (by simpa [hnot, hfeed] using hmem)
  have hwhole : before ++ '\n' :: line ++ [c] ++ trailing =
      before ++ '\n' :: (line ++ c :: trailing) := by
    simp
  rw [hwhole, (lastLine_append_cons (by simp [hline, hfeed, hnot]) before).1] at hblank
  simp [hsolid] at hblank

/-- A text whose last line is blank is written up to its last line feed. -/
theorem exists_render_keepLines {plan : Plan} {leaf : Leaf} (hkind : leaf.kind = .text)
    (hmem : '\n' ∈ leaf.raw) (hblank : allBlank (lastLine leaf.raw) = true)
    (hdecision : plan.get? leaf.id = some (keepLines leaf)) :
    ∃ pieces, plan.render (.leaf leaf) = .ok pieces ∧
      joinPieces pieces = beforeLastLine leaf.raw := by
  have hsource := Run.source_ofText leaf.raw
  have hproper := Run.proper_ofText leaf.raw
  unfold keepLines at hdecision
  cases hrun : Run.ofText leaf.raw with
  | blank leading =>
      rw [hrun] at hsource hdecision
      have hinside : leaf.renderWith (.text []) = .ok [] := by
        simp [Leaf.renderWith, hkind, hrun, Run.wordList, wordPieces?]
      obtain ⟨pieces, hpieces, htext⟩ := render_leaf hdecision hinside
      refine ⟨pieces, hpieces, ?_⟩
      dsimp only at htext
      rw [htext, Gap.text_keep, ← hsource]
      simp [Gap.text, joinPieces, Run.source]
  | words leading first rest trailing =>
      rw [hrun] at hsource hproper hdecision
      have hlength : (rest.map fun parted => Gap.kept parted.1).length = rest.length :=
        List.length_map _
      obtain ⟨inside, hinside, hwords⟩ := @wordPieces?_of_gaps first rest _ hlength
      have hrendered : leaf.renderWith (.text (rest.map fun parted => Gap.kept parted.1)) =
          .ok inside := by
        simp [Leaf.renderWith, hkind, hrun, Run.wordList, hinside]
      obtain ⟨pieces, hpieces, htext⟩ := render_leaf hdecision hrendered
      obtain ⟨hne, htrimmed⟩ := trimmed_wordsText hproper.2.1 hproper.parted
      refine ⟨pieces, hpieces, ?_⟩
      rw [Run.source_words, ← List.append_assoc] at hsource
      rw [← hsource] at hmem hblank ⊢
      have hfeed :=
        mem_of_blank_lastLine (by simp [hne]) (htrimmed.append_left hne leading) hmem hblank
      have hgaps : ((rest.map fun parted => Gap.kept parted.1).zipWith
          (fun gap parted => (gap.text, parted.2))
            (rest.map fun parted => (parted.1, Word.raw parted.2))) =
              rest.map fun parted => (parted.1, Word.raw parted.2) := by
        simp [List.zipWith_map, Gap.text]
      rw [htext, hwords, hgaps, (lastLine_append hfeed _).2, Gap.text_keep, Gap.text_keep]
      simp

theorem leadOf_eq_some_iff {leaf : Leaf} : leadOf document selection = some leaf ↔
    allBlank (selection.line document.source) = true ∧ selection.before = some (.leaf leaf) ∧
      leaf.kind = .text ∧ '\n' ∈ leaf.raw := by
  unfold leadOf leadText?
  split
  next other hbefore =>
    rw [hbefore]
    by_cases hleads : (other.kind = .text ∧ allBlank (selection.line document.source) = true) ∧
        '\n' ∈ other.raw
    · simp only [hleads, decide_true, Bool.and_self, List.contains_eq_mem, if_true,
        Option.some.injEq, Node.leaf.injEq, true_and]
      constructor
      · rintro rfl
        exact ⟨rfl, hleads.1.1, hleads.2⟩
      · exact fun hall => hall.1
    · simp only [Bool.and_eq_true, decide_eq_true_eq, List.contains_eq_mem, hleads, if_false,
        reduceCtorEq, Option.some.injEq, Node.leaf.injEq, false_iff]
      rintro ⟨hblank, rfl, hkind, hmem⟩
      exact hleads ⟨⟨hkind, hblank⟩, hmem⟩
  next hnone =>
    simp only [reduceCtorEq, false_iff]
    rintro ⟨-, hbefore, -⟩
    exact hnone leaf hbefore

/-! ## Writing a run where it stands -/

end Settings

/-- The run, with the node in front of it, stands in the source between these texts. -/
structure Selection.Fills (selection : Selection) (source front back : List Char) : Prop where
  source : source = front ++ (Node.textOfAll selection.siblings ++ back)
  lie : Node.LieFrom selection.siblings (byteSize front)

namespace Selection

/-- What is in front of the run, given what is in front of the node in front of it. -/
def upTo (selection : Selection) (front : List Char) : List Char :=
  front ++ Node.textOfAll selection.before.toList

namespace Fills

variable {selection : Selection} {source front back : List Char}

theorem eq_append (hfills : selection.Fills source front back) :
    source = selection.upTo front ++ (Node.textOfAll selection.nodes ++ back) := by
  rw [hfills.source, siblings, Node.textOfAll_append, upTo]
  simp

theorem lieFrom (hfills : selection.Fills source front back) :
    Node.LieFrom selection.nodes (byteSize (selection.upTo front)) := by
  have hnodes := (Node.lieFrom_append.mp hfills.lie).2
  rwa [← byteSize_append] at hnodes

theorem start_eq (hfills : selection.Fills source front back) :
    selection.start = byteSize (selection.upTo front) := by
  rw [start, Node.span_of_lies hfills.lieFrom.1]

theorem takeBytes_start (hfills : selection.Fills source front back) :
    takeBytes selection.start source = selection.upTo front := by
  rw [hfills.start_eq, hfills.eq_append]
  exact (takeBytes_byteSize_append _ _).1

theorem line_eq (hfills : selection.Fills source front back) :
    selection.line source = lastLine (selection.upTo front) := by
  rw [line, hfills.takeBytes_start]

theorem last_stop_eq (hfills : selection.Fills source front back) : selection.last.span.stop =
    byteSize (selection.upTo front ++ Node.textOfAll selection.nodes) := by
  obtain ⟨init, hnodes⟩ := selection.exists_nodes_eq
  have hlie := hfills.lieFrom
  rw [hnodes, Node.lieFrom_append] at hlie
  rw [Node.span_of_lies hlie.2.1, hnodes]
  simp [Node.textOfAll_append, Nat.add_assoc]

theorem source_eq (hfills : selection.Fills source front back) :
    selection.source source = Node.textOfAll selection.nodes := by
  have hsize : selection.last.span.stop - selection.start =
      byteSize (Node.textOfAll selection.nodes) := by
    rw [hfills.last_stop_eq, hfills.start_eq, byteSize_append]
    omega
  rw [Selection.source, hsize, hfills.start_eq, hfills.eq_append,
    (takeBytes_byteSize_append _ _).2]
  exact (takeBytes_byteSize_append _ _).1

theorem dropBytes_stop (hfills : selection.Fills source front back) :
    dropBytes (selection.stop source) source =
      (splitTail (Node.textOfAll selection.nodes)).2 ++ back := by
  generalize hsplit : splitTail (Node.textOfAll selection.nodes) = split
  have hwhole := splitTail_append (Node.textOfAll selection.nodes)
  rw [hsplit] at hwhole
  have hstop : selection.stop source = byteSize (selection.upTo front ++ split.1) := by
    rw [stop, hfills.source_eq, hsplit, hfills.last_stop_eq, ← hwhole]
    simp only [byteSize_append]
    omega
  rw [hstop, hfills.eq_append, ← hwhole]
  have hparts : selection.upTo front ++ (split.1 ++ split.2 ++ back) =
      (selection.upTo front ++ split.1) ++ (split.2 ++ back) := by simp
  rw [hparts]
  exact (takeBytes_byteSize_append _ _).2

/-- The line of the run begins behind the last line feed in front of it. -/
theorem takeBytes_lineStart (hfills : selection.Fills source front back)
    (hmem : '\n' ∈ selection.upTo front) :
    takeBytes (selection.lineStart source) source =
      beforeLastLine (selection.upTo front) ++ ['\n'] := by
  have hwhole := beforeLastLine_append_lastLine hmem
  have hsize := congrArg byteSize hwhole
  have hstart : selection.lineStart source =
      byteSize (beforeLastLine (selection.upTo front) ++ ['\n']) := by
    rw [lineStart, hfills.line_eq, hfills.start_eq]
    simp only [byteSize_append, byteSize_cons, byteSize_nil] at hsize ⊢
    omega
  have hparts : selection.upTo front ++ (Node.textOfAll selection.nodes ++ back) =
      (beforeLastLine (selection.upTo front) ++ ['\n']) ++
        (lastLine (selection.upTo front) ++ (Node.textOfAll selection.nodes ++ back)) := by
    conv_lhs => rw [← hwhole]
    simp
  rw [hstart, hfills.eq_append, hparts]
  exact (takeBytes_byteSize_append _ _).1

/-- A text in front of the run holds the line feed in front of its line if it holds any. -/
theorem start_lt_lineStart_iff (hfills : selection.Fills source front back) {leaf : Leaf}
    (hbefore : selection.before = some (.leaf leaf)) : leaf.span.stop = selection.start ∧
      (leaf.span.start < selection.lineStart source ↔ '\n' ∈ leaf.raw) := by
  have hlie := hfills.lie
  have hup : selection.upTo front = front ++ leaf.raw := by simp [upTo, hbefore]
  rw [siblings, hbefore] at hlie
  have hspan : leaf.span = ⟨byteSize front, byteSize front + byteSize leaf.raw⟩ := hlie.1
  rw [hspan, lineStart, hfills.line_eq, hfills.start_eq, hup]
  refine ⟨by simp, fun hlt => ?_, fun hmem => ?_⟩
  · by_contra hnot
    rw [lastLine_append_of_not_mem hnot] at hlt
    simp only [byteSize_append] at hlt
    omega
  · have hsize := congrArg byteSize (beforeLastLine_append_lastLine hmem)
    rw [(lastLine_append hmem front).1]
    have hfeed : '\n'.utf8Size = 1 := rfl
    simp only [byteSize_append, byteSize_cons, hfeed] at hsize ⊢
    omega

theorem leads_iff {document : Document} (hfills : selection.Fills document.source front back) :
    selection.Leads document.source ↔ ∃ leaf, Settings.leadOf document selection = some leaf := by
  simp only [Leads, Settings.leadOf_eq_some_iff]
  constructor
  · rintro ⟨hblank, leaf, hbefore, hkind, -, hlt⟩
    exact ⟨leaf, hblank, hbefore, hkind, (hfills.start_lt_lineStart_iff hbefore).2.mp hlt⟩
  · rintro ⟨leaf, hblank, hbefore, hkind, hmem⟩
    obtain ⟨hstop, hlt⟩ := hfills.start_lt_lineStart_iff hbefore
    exact ⟨hblank, leaf, hbefore, hkind, hstop, hlt.mpr hmem⟩

end Fills

end Selection

namespace Settings

variable {settings : Settings} {document : Document} {selection : Selection}
  {front back : List Char}

/-- What is written in front of the run, given what is in front of it. -/
def leadIn (settings : Settings) (document : Document) (selection : Selection)
    (before : List Char) : List Char :=
  match leadOf document selection with
  | none => before
  | some _ => beforeLastLine before ++
      '\n' :: List.replicate (settings.runIndent document selection) ' '

theorem get?_planBehind_eq_none {id : Nat} (hnot : id ∉ Node.idsOfAll selection.nodes) :
    (settings.planBehind document selection).get? id = none := by
  have hnone : (settings.laidRun document selection).draft.plan.get? id = none :=
    ((settings.keeps_layoutNodes selection.nodes _).plan id hnot).trans (Plan.get?_empty _ id)
  unfold planBehind
  split
  next => exact hnone
  next =>
    rw [Plan.get?_modify, hnone]
    simp

theorem size_planBehind :
    (settings.planBehind document selection).decisions.size = document.count := by
  have hsize : (settings.laidRun document selection).draft.plan.decisions.size = document.count :=
    (settings.keeps_layoutNodes selection.nodes _).decided.trans
      (by simp [Draft.start, Plan.empty])
  unfold planBehind
  split
  next => exact hsize
  next => exact (Plan.size_modify _ _ _).trans hsize

/-- Nothing goes in front of a run that begins with markup. -/
theorem exists_first_planBehind (settings : Settings) (hstands : selection.Stands document)
    (hmarkup : selection.first.isText = false) :
    ∃ decision, (settings.planBehind document selection).get? selection.first.id = some decision ∧
      decision.before = .nothing := by
  obtain ⟨decision, hdecision, hnothing⟩ : ∃ decision,
      (settings.laidRun document selection).draft.plan.get? selection.first.id = some decision ∧
        decision.before = .nothing := by
    refine settings.exists_first_decision (nodup_run hstands) (room_run hstands ?_ _) rfl rfl rfl
      hmarkup
    intro id hmem
    refine ids_nodes_subset selection ?_
    rw [Selection.nodes, Node.idsOfAll_cons]
    exact List.mem_append_left _ hmem
  unfold planBehind
  split
  next => exact ⟨decision, hdecision, hnothing⟩
  next =>
    rw [Plan.get?_modify, hdecision]
    split
    next => exact ⟨_, rfl, hnothing⟩
    next => exact ⟨decision, rfl, hnothing⟩

/-- The text in front of the run is written up to its last line feed, and then the run with its new
indent. -/
theorem exists_render_led (settings : Settings) (hstands : selection.Stands document) {leaf : Leaf}
    (hbefore : selection.before = some (.leaf leaf)) (hkind : leaf.kind = .text)
    (hmem : '\n' ∈ leaf.raw) (hblank : allBlank (lastLine leaf.raw) = true) (indent : Nat) :
    ∃ pieces, (((settings.planBehind document selection).decide leaf.id (keepLines leaf)).modify
        selection.first.id fun decision =>
          { decision with before := .lineBreak 1 indent }).renderAll
          selection.siblings = .ok pieces ∧
      joinPieces pieces = beforeLastLine leaf.raw ++ ('\n' :: List.replicate indent ' ' ++
        (Item.textOfAll (settings.runItems document selection) ++
          (settings.runOutline document selection).2)) := by
  obtain ⟨run, hrun, hrunText⟩ := settings.exists_render_behind hstands
  have hsiblings : selection.siblings = .leaf leaf :: selection.nodes := by
    simp [Selection.siblings, hbefore]
  have hnodup := hstands.nodup
  have hparted := hstands.parted
  have hroom := hstands.room
  rw [hsiblings] at hnodup hparted hroom
  have hapart : leaf.id ∉ Node.idsOfAll selection.nodes := by
    rw [Node.idsOfAll_cons, List.nodup_append] at hnodup
    exact fun hin => hnodup.2.2 leaf.id (by simp) leaf.id hin rfl
  have hne : selection.first.id ≠ leaf.id := by
    intro heq
    rw [← heq, Selection.nodes, Node.idsOfAll_cons] at hapart
    exact hapart (List.mem_append_left _ (Plan.id_mem_ids selection.first))
  have hmarkup : selection.first.isText = false := by
    have hpair := (List.isChain_cons_cons.mp hparted).1
    simpa [Node.isText, Node.endsOpen, hkind] using hpair
  obtain ⟨decision, hdecision, hnothing⟩ := settings.exists_first_planBehind hstands hmarkup
  generalize hplan : settings.planBehind document selection = plan at hrun hdecision
  have hsize : plan.decisions.size = document.count := hplan ▸ size_planBehind
  have hsame : plan.renderAll selection.nodes =
      (plan.decide leaf.id (keepLines leaf)).renderAll selection.nodes := by
    refine Plan.renderAll_congr _ fun id hin => (Plan.get?_decide_of_ne ?_ _).symm
    rintro rfl
    exact hapart hin
  have hfirst : (plan.decide leaf.id (keepLines leaf)).get? selection.first.id = some decision :=
    (Plan.get?_decide_of_ne hne.symm _).trans hdecision
  have hindented := @Plan.renderAll_modify_first _ _ (.lineBreak 1 indent) _ _ (nodup_run hstands)
    hfirst hnothing _ (hsame ▸ hrun)
  generalize hchanged : (plan.decide leaf.id (keepLines leaf)).modify selection.first.id
    (fun decision => { decision with before := Gap.lineBreak 1 indent }) = changed at hindented ⊢
  have hlead : changed.get? leaf.id = some (keepLines leaf) := by
    rw [← hchanged, Plan.get?_modify, if_neg hne, Plan.get?_decide, if_pos]
    exact ⟨rfl, hsize ▸ hroom leaf.id (by simp)⟩
  obtain ⟨kept, hkept, hkeptText⟩ := exists_render_keepLines hkind hmem hblank hlead
  rw [hsiblings]
  refine ⟨_, Plan.renderAll_append (Plan.renderAll_singleton_eq_ok_iff.mpr hkept) hindented, ?_⟩
  rw [joinPieces_append, joinPieces_append, hkeptText, hrunText, Gap.joinPieces_pieces]
  simp [Gap.text]

/-- The run is written with the node in front of it, but for the indent of a run that begins its
line. -/
theorem exists_render_siblings (settings : Settings) (hstands : selection.Stands document)
    (hfills : selection.Fills document.source front back) :
    ∃ pieces, (settings.layoutSelection document selection).renderAll selection.siblings =
      .ok pieces ∧ front ++ joinPieces pieces =
        settings.leadIn document selection (selection.upTo front) ++
          (Item.textOfAll (settings.runItems document selection) ++
            (settings.runOutline document selection).2) := by
  obtain ⟨run, hrun, hrunText⟩ := settings.exists_render_behind hstands
  have hnodup := hstands.nodup
  rw [Selection.siblings, idsOfAll_append, List.nodup_append] at hnodup
  rw [layoutSelection_eq, leadIn]
  cases hlead : leadOf document selection with
  | none =>
      obtain ⟨copied, hcopied, hcopiedText⟩ := @exists_copied
        (settings.planBehind document selection) selection.before.toList fun id hmem =>
          get?_planBehind_eq_none fun hin => hnodup.2.2 id hmem id hin rfl
      refine ⟨_, Plan.renderAll_append hcopied hrun, ?_⟩
      rw [joinPieces_append, hcopiedText, hrunText, Selection.upTo]
      simp
  | some leaf =>
      obtain ⟨hblank, hbefore, hkind, hmem⟩ := leadOf_eq_some_iff.mp hlead
      have hup : selection.upTo front = front ++ leaf.raw := by simp [Selection.upTo, hbefore]
      rw [hfills.line_eq, hup, (lastLine_append hmem front).1] at hblank
      obtain ⟨pieces, hpieces, htext⟩ := settings.exists_render_led hstands hbefore hkind hmem
        hblank (settings.runIndent document selection)
      refine ⟨pieces, hpieces, ?_⟩
      rw [htext, hup, (lastLine_append hmem front).2]
      simp

/-- The run that a range selects is written where it stands, with the source around it as it is. -/
theorem exists_render_selection {text : List Char} {range : Span}
    (hparse : parse text = .ok document)
    (hselect : settings.select document range = some selection) :
    ∃ front back pieces, selection.Fills text front back ∧
      (settings.layoutSelection document selection).renderDocument document = .ok pieces ∧
        joinPieces pieces = settings.leadIn document selection (selection.upTo front) ++
          (Item.textOfAll (settings.runItems document selection) ++
            ((settings.runOutline document selection).2 ++ back)) := by
  have hstands := stands_of_select hparse hselect
  have hreaches : settings.Reaches selection.siblings document.children :=
    reaches_selectAmong hselect
  obtain ⟨front, back, hsplices⟩ := hreaches.exists_splice (Document.nodup_ids_of_parse hparse)
  have hfills : selection.Fills text front back := by
    refine ⟨?_, ?_⟩
    · rw [← hsplices.text, Document.textOfAll_of_parse hparse]
    · simpa using hsplices.lie (Document.lieFrom_of_parse hparse)
  have hplans := plans_layoutSelection settings document selection hstands.nodup
  obtain ⟨pieces, hpieces, htext⟩ := exists_render_siblings settings hstands
    (Document.source_of_parse hparse ▸ hfills)
  obtain ⟨written, hwritten, hall⟩ := hsplices.written (fun id _ => hplans.only id) hpieces
  refine ⟨front, back, written ++ (settings.layoutSelection document selection).ending.pieces,
    hfills, ?_, ?_⟩
  · simp only [Plan.renderDocument, hwritten]
    rfl
  · rw [joinPieces_append, hall, hplans.ending, ← List.append_assoc front, htext]
    simp [Gap.pieces, joinPieces]

/-! ## Runs that begin with markup -/

end Settings

theorem Token.exists_bracket_of_fits {kind : LeafKind} {content : List Char} (hkind : kind ≠ .text)
    (hfits : (Token.ofLeaf kind content).Fits) : ∃ rest, content = '<' :: rest := by
  obtain ⟨hmarkup, hlegible⟩ := legible_ofLeaf hkind hfits
  rw [← source_ofLeaf kind content]
  exact hlegible.exists_source hmarkup

theorem Node.exists_bracket_of_legible {node : Node} (hlegible : node.Legible)
    (hmarkup : node.isText = false) : ∃ rest, node.text = '<' :: rest := by
  cases node with
  | leaf piece =>
      rw [text_leaf]
      exact Token.exists_bracket_of_fits (by simpa [isText] using hmarkup) hlegible.2
  | element elem children => exact ⟨_, text_element elem children⟩

namespace Settings

variable (settings : Settings)

theorem front_anchored (tag : StartTag) (width : Nat) {stage : Stage}
    (hfresh : stage.cursor.fresh = false) (hanchored : stage.cursor.anchored = true) :
    (settings.front [] tag width stage).before = .nothing := by
  simp only [front, separate, hfresh, hanchored]
  rfl

/-- Behind an anchor, nothing goes in front of markup. -/
theorem exists_bracket_arranged (judge : Nat → Bool) {node : Node} (hlegible : node.Legible)
    (hmarkup : node.isText = false) {stage : Stage} (hfresh : stage.cursor.fresh = false)
    (hanchored : stage.cursor.anchored = true) :
    ∃ rest, Item.textOfAll (settings.arrangeAll (Node.outline judge node []).1 stage).1 =
      '<' :: rest := by
  cases node with
  | leaf piece =>
      have hkind : piece.kind ≠ .text := by simpa [Node.isText] using hmarkup
      obtain ⟨rest, hraw⟩ := Token.exists_bracket_of_fits hkind hlegible.2
      have houtline : (Leaf.outline piece []).1 = [.leaf [] piece.kind piece.raw] := by
        unfold Leaf.outline
        split
        next htext => exact absurd htext hkind
        next => rfl
      have hgap : ∀ kind width,
          (settings.separate stage.cursor stage.flow [] kind width).1 = .nothing := by
        intro kind width
        simp only [separate, hfresh, hanchored]
        rfl
      refine ⟨rest, ?_⟩
      rw [Node.outline, houtline, arrangeAll_singleton, arrange, arrangeLeaf]
      simp only [Item.textOfAll, Item.text, hgap, Gap.text, hraw, List.nil_append, List.append_nil]
  | element elem children =>
      have hfront := fun width => settings.front_anchored elem.tag width hfresh hanchored
      rw [Node.outline]
      split
      next =>
        unfold Element.outlineRaw
        split <;>
          (rw [arrangeAll_singleton, arrange]
           simp [Item.textOfAll, Item.text, hfront, Gap.text, StartTag.text])
      next =>
        unfold Element.outline
        split <;>
          (rw [arrangeAll_singleton, arrange]
           cases settings.contentOf elem.tag <;>
             simp [Item.textOfAll, Item.text, hfront, Gap.text, StartTag.text])

variable {settings : Settings} {document : Document} {selection : Selection}
  {front back : List Char}

theorem exists_bracket_run (settings : Settings) (hstands : selection.Stands document)
    (hmarkup : selection.first.isText = false) :
    ∃ rest, Item.textOfAll (settings.runItems document selection) = '<' :: rest := by
  have hlegible := (Node.legibleAll_append.mp hstands.legible).2.1
  have harranged := @exists_bracket_arranged settings (settings.judgeRun document selection) _
    hlegible hmarkup (settings.runStage document selection) rfl rfl
  obtain ⟨rest, hrest⟩ := harranged
  have hcons : (settings.runOutline document selection).1 =
      (Node.outline (settings.judgeRun document selection) selection.first []).1 ++
        (Node.outlineAll (settings.judgeRun document selection) selection.rest
          (Node.outline (settings.judgeRun document selection) selection.first []).2).1 := rfl
  rw [runItems, hcons, arrangeAll_append, Item.textOfAll_append, hrest]
  exact ⟨_, rfl⟩

theorem isText_first_of_leads (hstands : selection.Stands document)
    (hleads : selection.Leads document.source) : selection.first.isText = false := by
  obtain ⟨-, leaf, hbefore, hkind, -⟩ := hleads
  have hparted := hstands.parted
  rw [Selection.siblings, hbefore] at hparted
  have hpair := (List.isChain_cons_cons.mp hparted).1
  simpa [Node.isText, Node.endsOpen, hkind] using hpair

end Settings

/-! ## The frame -/

/-- For settings that are accepted and a text that can be read, formatting a range that selects
nothing gives the text back. Otherwise the source comes through up to the start of the run and from
the end of its content on; only where the run begins a line whose line feed lies in the text in
front of it, its indent is written anew, with spaces up to the markup that the run begins with. -/
theorem format_range_frame {settings : Settings} {text : String} {document : Document}
    (hcheck : settings.check = .ok ()) (hparse : parse text.toList = .ok document) (range : Span) :
    (settings.select document (range.normalize text.toList) = none →
      format .plain settings text (some range) = .ok text) ∧
    ∀ selection, settings.select document (range.normalize text.toList) = some selection →
      ∃ output, format .plain settings text (some range) = .ok output ∧
        (¬selection.Leads text.toList → ∃ middle, output.toList =
          takeBytes selection.start text.toList ++
            (middle ++ dropBytes (selection.stop text.toList) text.toList)) ∧
        (selection.Leads text.toList → ∃ indent tail content, selection.first.text = '<' :: tail ∧
          output.toList = takeBytes (selection.lineStart text.toList) text.toList ++
            (List.replicate indent ' ' ++
              ('<' :: content ++ dropBytes (selection.stop text.toList) text.toList))) := by
  have hsource := Document.source_of_parse hparse
  refine ⟨fun hselect => ?_, fun selection hselect => ?_⟩
  · have hplan : settings.plan document (some range) = .ok (Plan.empty document.count) := by
      simp only [Settings.plan, hcheck, bind, Except.bind, hsource, hselect]
      rfl
    obtain ⟨pieces, hpieces, hwritten⟩ :=
      (Plan.renderDocument_undecided hparse).2 document.count
    rw [format_eq_ok hcheck hparse hplan hpieces, Palette.render_plain, hwritten,
      String.ofList_toList]
  · have hplan : settings.plan document (some range) =
        .ok (settings.layoutSelection document selection) := by
      simp only [Settings.plan, hcheck, bind, Except.bind, hsource, hselect]
      rfl
    have hstands := Settings.stands_of_select hparse hselect
    obtain ⟨front, back, pieces, hfills, hpieces, hwritten⟩ :=
      Settings.exists_render_selection hparse hselect
    refine ⟨_, format_eq_ok hcheck hparse hplan hpieces, ?_⟩
    rw [Palette.render_plain, String.toList_ofList, hwritten, hfills.dropBytes_stop,
      settings.splitTail_run hstands, hfills.takeBytes_start]
    have hfillsSource : selection.Fills document.source front back := hsource ▸ hfills
    constructor
    · intro hnot
      have hnone : Settings.leadOf document selection = none := by
        refine Option.eq_none_iff_forall_ne_some.mpr fun leaf hlead => hnot ?_
        rw [← hsource]
        exact hfillsSource.leads_iff.mpr ⟨leaf, hlead⟩
      rw [Settings.leadIn, hnone]
      exact ⟨_, rfl⟩
    · intro hleads
      rw [← hsource] at hleads
      obtain ⟨leaf, hlead⟩ := hfillsSource.leads_iff.mp hleads
      obtain ⟨-, hbefore, -, hmem⟩ := Settings.leadOf_eq_some_iff.mp hlead
      have hfeed : '\n' ∈ selection.upTo front := by
        simp [Selection.upTo, hbefore, hmem]
      have hmarkup := Settings.isText_first_of_leads hstands hleads
      obtain ⟨tail, htail⟩ := Node.exists_bracket_of_legible
        (Node.legibleAll_append.mp hstands.legible).2.1 hmarkup
      obtain ⟨content, hcontent⟩ := settings.exists_bracket_run hstands hmarkup
      refine ⟨settings.runIndent document selection, tail, content, htail, ?_⟩
      rw [hfills.takeBytes_lineStart hfeed, Settings.leadIn, hlead, hcontent]
      simp

/-- An element that begins a line and is not ended: the source comes through up to the line feed in
front of the element, and from the blanks at its end on. -/
theorem format_range_frame_indent :
    let settings : Settings := {}
    let text := "<p>one\n\t <i  >two  \n</p>"
    let range : Span := ⟨16, 10⟩
    settings.check = .ok () ∧ ∃ document selection, parse text.toList = .ok document ∧
      settings.select document (range.normalize text.toList) = some selection ∧
        selection.Leads text.toList ∧ ∃ output indent content,
          format .plain settings text (some range) = .ok output ∧
            output.toList = "<p>one\n".toList ++ (List.replicate indent ' ' ++
              ('<' :: content ++ "  \n</p>".toList)) := by
  intro settings text range
  have hcheck : settings.check = .ok () := by with_unfolding_all rfl
  have hread : ((parse text.toList).toOption.bind fun document =>
      (settings.select document (range.normalize text.toList)).map fun selection =>
        (decide (selection.Leads text.toList),
          takeBytes (selection.lineStart text.toList) text.toList,
            dropBytes (selection.stop text.toList) text.toList)) =
      some (true, "<p>one\n".toList, "  \n</p>".toList) := by
    decide +kernel
  obtain ⟨document, hdocument, hselected⟩ := Option.bind_eq_some_iff.mp hread
  obtain ⟨selection, hselect, hplace⟩ := Option.map_eq_some_iff.mp hselected
  obtain ⟨hleads, hstart, hstop⟩ : selection.Leads text.toList ∧
      takeBytes (selection.lineStart text.toList) text.toList = "<p>one\n".toList ∧
        dropBytes (selection.stop text.toList) text.toList = "  \n</p>".toList := by
    simpa only [Prod.mk.injEq, decide_eq_true_eq] using hplace
  have hparse := toOption_eq_some_iff.mp hdocument
  obtain ⟨output, hformat, -, hled⟩ := (format_range_frame hcheck hparse range).2 selection hselect
  obtain ⟨indent, tail, content, -, houtput⟩ := hled hleads
  refine ⟨hcheck, document, selection, hparse, hselect, hleads, output, indent, content,
    hformat, ?_⟩
  rw [houtput, hstart, hstop]

end Markup
