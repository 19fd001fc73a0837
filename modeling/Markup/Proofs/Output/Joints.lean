import Mathlib.Data.List.Chain
import Markup.Proofs.Output.BrokenLines
import Markup.Proofs.Output.Indentation

/-!
# Words stay together and stay apart

Between two words that are parted by inline tags at most, formatting leaves blanks where the source
has some and puts none where it has none, but for the lines that it ends of its own accord: in front
of an end tag, where its element begins a line and has a block or a broken line in it, and behind a
block that ends without an end tag. To say so, a document is taken as one sequence of pieces, words
and tags, each with the blanks that the source has in front of it and with those that the plan puts
there. Main statement: `format_words_apart`.
-/

namespace Markup

open Markup.Text

/-! ## Pieces and the blanks in front of them -/

/-- A word, a tag, the end of an element that has no end tag, or what is copied as it is. A start
tag comes with the one that is written for it. An end tag comes with the start tag and the children
of its element, and with the text that is written in front of that start tag. -/
inductive Piece where
  | word (letters : List Char)
  | opening (tag laid : StartTag)
  | closing (tag : StartTag) (start : List Char) (children : List Node) (close : EndTag)
  | ended (tag : StartTag)
  | sealed (content : List Char)
  deriving DecidableEq, Repr

namespace Piece

/-- A piece as the source has it. -/
@[simp]
def source : Piece → List Char
  | word letters => letters
  | opening tag _ => tag.text
  | closing _ _ _ close => close.raw
  | ended _ => []
  | sealed content => content

/-- A piece as it is written. -/
@[simp]
def written : Piece → List Char
  | word letters => letters
  | opening _ laid => laid.text
  | closing _ _ _ close => close.plain.raw
  | ended _ => []
  | sealed content => content

def isWord : Piece → Bool
  | word _ => true
  | _ => false

/-- A tag of an inline element whose content, if it has any, is laid out: preserved content is a
piece of its own. An element that ends without an end tag leaves no trace, inline or not. -/
def isInlineTag (settings : Settings) : Piece → Bool
  | opening tag _ => settings.isInline tag.name
  | closing tag _ _ _ => settings.isInline tag.name
  | ended _ => true
  | _ => false

/-- Whether an item of a flow begins with a piece, if the piece is no block: a word or a start
tag. -/
def begins : Piece → Bool
  | word _ => true
  | opening _ _ => true
  | _ => false

/-- Whether a block ends with a piece that is no text of its own. -/
def endsBlock (settings : Settings) : Piece → Bool
  | ended tag => !settings.isInline tag.name
  | _ => false

theorem endsBlock_of_isWord (settings : Settings) {piece : Piece} (hword : piece.isWord = true) :
    piece.endsBlock settings = false := by
  cases piece with
  | word letters => rfl
  | _ => cases hword

/-- A line has to end in front of an end tag: the element begins its line, and it has a block among
its children or a line that is broken in its content. -/
def EndsLine (settings : Settings) (plan : Plan) : Piece → Prop
  | closing _ start children _ => allBlank (lastLine start) = true ∧
      ((∃ child ∈ children, settings.isBlock child = true) ∨
        settings.BreaksText plan children ∨ settings.WrapsItem plan children)
  | _ => False

end Piece

/-- A piece with the blanks that the source has in front of it and those that are written there. -/
structure Joint where
  source : List Char
  written : List Char
  piece : Piece
  deriving DecidableEq, Repr

namespace Joint

def sourceOf (joints : List Joint) : List Char :=
  joints.flatMap fun one => one.source ++ one.piece.source

def writtenOf (joints : List Joint) : List Char :=
  joints.flatMap fun one => one.written ++ one.piece.written

theorem sourceOf_append (first second : List Joint) :
    sourceOf (first ++ second) = sourceOf first ++ sourceOf second :=
  List.flatMap_append

theorem writtenOf_append (first second : List Joint) :
    writtenOf (first ++ second) = writtenOf first ++ writtenOf second :=
  List.flatMap_append

@[simp]
theorem sourceOf_cons (one : Joint) (rest : List Joint) :
    sourceOf (one :: rest) = one.source ++ (one.piece.source ++ sourceOf rest) := by
  simp [sourceOf]

@[simp]
theorem writtenOf_cons (one : Joint) (rest : List Joint) :
    writtenOf (one :: rest) = one.written ++ (one.piece.written ++ writtenOf rest) := by
  simp [writtenOf]

end Joint

namespace Plan

/-- The further words of a text, with the gaps between them. -/
def furtherJoints (rest : List (List Char × Word)) (gaps : List Gap) : List Joint :=
  rest.zipWith (fun parted gap => ⟨parted.1, gap.text, .word (Word.raw parted.2)⟩) gaps

/-- The pieces of a leaf as it is planned, given the blanks of the source that wait in front of it,
and the blanks that wait behind it. -/
def leafJoints (decision : Decision) (blanks : List Char) (leaf : Leaf) : List Joint × List Char :=
  match decision.layout, Run.ofText leaf.raw with
  | .text _, .blank leading => ([], blanks ++ leading)
  | .text gaps, .words leading first rest trailing =>
      (⟨blanks ++ leading, decision.before.text, .word (Word.raw first)⟩ :: furtherJoints rest gaps,
        trailing)
  | _, _ => ([⟨blanks, decision.before.text, .sealed leaf.raw⟩], [])

/-- The end of an element, given the blanks behind its content, and the blanks behind the
element. -/
def endJoint (elem : Element) (children : List Node) (start blanks : List Char) (endTag : Gap) :
    Joint × List Char :=
  match elem.endTag with
  | none => (⟨[], [], .ended elem.tag⟩, blanks)
  | some close => (⟨blanks, endTag.text, .closing elem.tag start children close⟩, [])

mutual

/-- The pieces of a node as it is planned, and the blanks of the source that wait behind it. This
text has been written in front of the node, and these blanks wait there. A node that the plan leaves
out, which is one inside of preserved content, has no pieces. -/
def joints (plan : Plan) (written blanks : List Char) : Node → List Joint × List Char
  | .leaf leaf =>
      match plan.get? leaf.id with
      | some decision => leafJoints decision blanks leaf
      | none => ([], blanks)
  | .element elem children =>
      match plan.get? elem.id with
      | some ⟨gap, _, _, .element layouts tagEnd content endTag⟩ =>
          let start := written ++ gap.text
          let laid := elem.tag.laid layouts tagEnd
          let opening : Joint := ⟨blanks, gap.text, .opening elem.tag laid⟩
          match content with
          | .empty => ([opening], [])
          | .verbatim =>
              let (kept, left) := elem.preserved children
              ([opening, ⟨[], [], .sealed kept⟩], left)
          | .formatted =>
              let (inner, waiting) := jointsAll plan (start ++ laid.text) [] children
              let (last, left) := endJoint elem children start waiting endTag
              (opening :: (inner ++ [last]), left)
      | _ => ([], blanks)

/-- The pieces of nodes that follow each other. -/
def jointsAll (plan : Plan) (written blanks : List Char) : List Node → List Joint × List Char
  | [] => ([], blanks)
  | node :: rest =>
      let (first, waiting) := joints plan written blanks node
      let (others, left) := jointsAll plan (written ++ Joint.writtenOf first) waiting rest
      (first ++ others, left)

end

/-- The pieces of a document as it is planned. -/
def jointsOf (plan : Plan) (document : Document) : List Joint :=
  (plan.jointsAll [] [] document.children).1

end Plan

/-! ## Gaps that are there -/

namespace Settings

variable (settings : Settings)

theorem breakGap_ne_nil (lines indent : Nat) : (settings.breakGap lines indent).text ≠ [] :=
  List.isEmpty_eq_false_iff.mp (settings.isEmpty_breakGap lines indent)

/-- Where blanks are not simply kept, they are written in front of an inline item that is not the
first in a block if the source has some, or if the item follows a block. -/
theorem gapBetween_ne_nil_iff (cursor : Cursor) {flow : Flow}
    (hfirst : flow.preceding ≠ .start true) (blanks : List Char) (width : Nat) :
    (settings.gapBetween cursor flow blanks .inline width).1.text ≠ [] ↔
      blanks ≠ [] ∨ flow.preceding = .block := by
  have hforces : ∀ spaced, forces flow .inline spaced = true ↔ flow.preceding = .block := by
    simp [forces]
  rw [gapBetween_eq, ← hforces (!blanks.isEmpty)]
  cases forces flow .inline (!blanks.isEmpty) with
  | true => simp [breakGap_ne_nil]
  | false =>
      by_cases hblanks : blanks = []
      · simp [hblanks, overflows, hfirst, newlines, Gap.text]
      · refine iff_of_true ?_ (.inl hblanks)
        simp only [Bool.false_eq_true, if_false]
        split
        next => exact settings.breakGap_ne_nil _ _
        next =>
          split
          next => simp [Gap.text]
          next => simp [hblanks, Gap.text]

/-- In front of an inline item that is not the first in the output or in a block, blanks are written
if the source has some, or if the item follows a block and blanks are not kept. -/
theorem separate_ne_nil_iff {cursor : Cursor} {flow : Flow} (hfresh : cursor.fresh = false)
    (hanchored : cursor.anchored = false) (hfirst : flow.preceding ≠ .start true)
    (blanks : List Char) (width : Nat) :
    (settings.separate cursor flow blanks .inline width).1.text ≠ [] ↔
      blanks ≠ [] ∨ settings.keepWhitespaces = false ∧ flow.preceding = .block := by
  unfold separate
  rw [hfresh, hanchored]
  cases settings.keepWhitespaces with
  | true => simp [Gap.text_keep]
  | false => simpa using settings.gapBetween_ne_nil_iff cursor hfirst blanks width

/-- In front of the end tag of an inline element, blanks are written if the source has some, or if
the element begins its line and a block or a broken line is noted of its content. -/
theorem closingGap_ne_nil_iff (inner : Flow) (blanks : List Char) (indent : Nat) (ownLine : Bool) :
    (settings.closingGap inner blanks indent ownLine false).text ≠ [] ↔
      blanks ≠ [] ∨ settings.keepWhitespaces = false ∧ ownLine = true ∧
        (inner.blocks = true ∨ inner.broken = true) := by
  unfold closingGap
  cases hkeeps : settings.keepWhitespaces with
  | true => simp [Gap.text_keep]
  | false =>
      rw [if_neg Bool.false_ne_true, ← Bool.or_eq_true, ← Bool.and_eq_true]
      cases hends : (ownLine && (inner.blocks || inner.broken)) with
      | true => simp [breakGap_ne_nil]
      | false =>
          by_cases hblanks : blanks = []
          · simp [hblanks, newlines, Gap.text]
          · refine iff_of_true ?_ (.inl hblanks)
            simp only [Bool.false_eq_true, if_false]
            split
            next => exact settings.breakGap_ne_nil _ _
            next => simp [hblanks, Gap.text]

end Settings

/-! ## What is in front of a piece -/

/-- A word or an inline tag. -/
def Piece.runsOn (settings : Settings) (piece : Piece) : Bool :=
  piece.isWord || piece.isInlineTag settings

/-- Behind a word or an inline tag, blanks are written in front of another one exactly if the source
has some, or if blanks are not kept and a line ends there: in front of an end tag, or behind a
block. -/
def Joint.Follows (settings : Settings) (plan : Plan) (one next : Joint) : Prop :=
  one.piece.runsOn settings = true → next.piece.runsOn settings = true →
    (next.written ≠ [] ↔ next.source ≠ [] ∨ settings.keepWhitespaces = false ∧
      (next.piece.EndsLine settings plan ∨
        one.piece.endsBlock settings = true ∧ next.piece.begins = true))

/-- A flow goes on behind a piece: if the piece is a word or an inline tag, something has been
written, and the piece is what the flow has for the preceding item. -/
structure Flow.Trails (settings : Settings) (flow : Flow) (written : List Char) (piece : Piece) :
    Prop where
  begun : piece.runsOn settings = true → written ≠ []
  inside : piece.runsOn settings = true → flow.preceding ≠ .start true
  block : piece.runsOn settings = true →
    (flow.preceding = .block ↔ piece.endsBlock settings = true)

namespace Settings

variable {settings : Settings} {plan : Plan} {progress : Progress} {written : List Char}

/-- The first piece of an item follows the piece that the flow goes on behind. -/
theorem follows_first (hends : progress.draft.cursor.Ends written)
    (hanchored : progress.draft.cursor.anchored = false) {one : Joint}
    (htrails : progress.flow.Trails settings written one.piece) {piece : Piece}
    (hbegins : piece.begins = true) {next : Following}
    (hnext : piece.runsOn settings = true → next = .inline) (blanks : List Char) (width : Nat) :
    let found := settings.separate progress.draft.cursor progress.flow blanks next width
    Joint.Follows settings plan one ⟨blanks, found.1.text, piece⟩ := by
  intro found hone hpiece
  have hfresh : progress.draft.cursor.fresh = false := by
    rcases hends.begun with ⟨hempty, -⟩ | ⟨-, -, hfresh, -⟩
    · exact absurd hempty (htrails.begun hone)
    · exact hfresh
  have hline : ¬piece.EndsLine settings plan := by
    cases piece with
    | closing => cases hbegins
    | _ => exact id
  obtain rfl := hnext hpiece
  rw [settings.separate_ne_nil_iff hfresh hanchored (htrails.inside hone), htrails.block hone]
  simp [hline, hbegins]

/-- What is not a word or an inline tag follows any piece. -/
theorem follows_of_not_runsOn {one next : Joint} (hnext : next.piece.runsOn settings = false) :
    Joint.Follows settings plan one next := fun _ hruns =>
  absurd (hnext.symm.trans hruns) Bool.false_ne_true

/-- The end of an element may follow any piece. -/
theorem follows_endJoint (hends : progress.draft.cursor.Ends written)
    (hanchored : progress.draft.cursor.anchored = false) {elem : Element} {children : List Node}
    {content : List Char} {inner : List OutputPiece} (hproceeds : settings.Proceeds plan children
      (settings.keptContent elem children progress) content inner) (one : Joint) :
    let heading := settings.layoutHeading elem.tag children progress
    let behind := settings.layoutNodes children (settings.keptContent elem children progress)
    Joint.Follows settings plan one (Plan.endJoint elem children (written ++ heading.before.text)
      behind.blanks (settings.layoutEnding heading elem.endTag behind).endTag).1 := by
  intro heading behind
  unfold Plan.endJoint layoutEnding
  cases elem.endTag with
  | none => exact fun _ _ => by simp [Piece.EndsLine, Piece.begins]
  | some close =>
      intro _ hnext
      have hblock : heading.block = false := (Bool.not_eq_false' _).mpr (by
        simpa [Piece.runsOn, Piece.isWord, Piece.isInlineTag] using hnext)
      have hgap := settings.closingGap_ne_nil_iff behind.flow behind.blanks heading.indent
        heading.ownLine
      simp only [hblock, Bool.or_false, hgap, Piece.begins, Bool.false_eq_true, and_false, or_false]
      refine or_congr_right (and_congr_right fun hkeep => ?_)
      rw [Piece.EndsLine, ownLine_layoutHeading hkeep hanchored hends, blocks_content,
        broken_content_iff hkeep hanchored hproceeds, List.any_eq_true]

/-! ## The flow behind a piece -/

/-- Behind the start tag of an element, the flow of its content goes on. -/
theorem trails_keptContent {elem : Element} {children : List Node} {laid : StartTag}
    (hwritten : written ≠ []) :
    (settings.keptContent elem children progress).flow.Trails settings written
      (.opening elem.tag laid) := by
  have hblock : (settings.keptContent elem children progress).flow.preceding =
      .start (!settings.isInline elem.tag.name) := rfl
  refine ⟨fun _ => hwritten, fun hruns => ?_, fun _ => by simp [hblock, Piece.endsBlock]⟩
  have hinline : settings.isInline elem.tag.name = true := hruns
  simp [hblock, hinline]

theorem trails_of_not_runsOn {flow : Flow} {piece : Piece}
    (hpiece : piece.runsOn settings = false) :
    flow.Trails settings written piece := by
  have hnot : ¬piece.runsOn settings = true := Bool.eq_false_iff.mp hpiece
  exact ⟨fun hruns => absurd hruns hnot, fun hruns => absurd hruns hnot,
    fun hruns => absurd hruns hnot⟩

/-- Behind a word, a flow is behind something inline. -/
theorem trails_word {flow : Flow} (hwritten : written ≠ []) (hinline : flow.preceding = .inline)
    {piece : Piece} (hword : piece.isWord = true) : flow.Trails settings written piece := by
  have hends := Piece.endsBlock_of_isWord settings hword
  exact ⟨fun _ => hwritten, fun _ => by simp [hinline], fun _ => by simp [hinline, hends]⟩

/-- Behind a node that is not blank, the flow goes on behind the last piece of the node. -/
theorem trails_layoutNode {node : Node} (hfull : node.isBlank = false) (hwritten : written ≠ [])
    {piece : Piece} (hpiece : piece.runsOn settings = true →
      (settings.isBlock node = true ↔ piece.endsBlock settings = true)) :
    (settings.layoutNode node progress).flow.Trails settings written piece := by
  refine ⟨fun _ => hwritten, fun _ => ?_, fun hruns => ?_⟩
  · obtain ⟨hblank, -⟩ | ⟨-, hafter⟩ := (settings.flow_layoutNode node progress).2
    · exact absurd (hfull.symm.trans hblank) Bool.false_ne_true
    · rw [hafter]
      cases settings.isBlock node <;> exact nofun
  · rw [preceding_layoutNode_iff hfull, hpiece hruns]

/-! ## Pieces behind each other -/

theorem getLastD_append {α : Type} (first second : List α) (one : α) :
    (first ++ second).getLastD one = second.getLastD (first.getLastD one) := by
  induction first generalizing one with
  | nil => rfl
  | cons other rest ih => rw [List.cons_append, List.getLastD_cons, List.getLastD_cons, ih]

theorem isChain_append_of_getLastD {α : Type} {Follows : α → α → Prop} {first second : List α}
    {one : α} (hfirst : List.IsChain Follows (one :: first))
    (hsecond : List.IsChain Follows (first.getLastD one :: second)) :
    List.IsChain Follows (one :: (first ++ second)) := by
  induction first generalizing one with
  | nil => exact hsecond
  | cons other rest ih =>
      obtain ⟨hfollows, hrest⟩ := List.isChain_cons_cons.mp hfirst
      rw [List.getLastD_cons] at hsecond
      exact .cons_cons hfollows (ih hrest hsecond)

/-- Behind any piece that the flow goes on behind, each of these pieces follows the one in front of
it, and the flow then goes on behind the last one. -/
def Links (settings : Settings) (plan : Plan) (flow : Flow) (written : List Char)
    (joints : List Joint) (after : Flow) (behind : List Char) : Prop :=
  ∀ one : Joint, flow.Trails settings written one.piece →
    List.IsChain (Joint.Follows settings plan) (one :: joints) ∧
      after.Trails settings behind (joints.getLastD one).piece

section Links

variable {flow between after : Flow} {middle behind : List Char}

theorem Links.nil : settings.Links plan flow written [] flow written := fun _ htrails =>
  ⟨.singleton _, htrails⟩

theorem Links.append {first second : List Joint}
    (hfirst : settings.Links plan flow written first between middle)
    (hsecond : settings.Links plan between middle second after behind) :
    settings.Links plan flow written (first ++ second) after behind := by
  intro one htrails
  obtain ⟨hchain, hlast⟩ := hfirst one htrails
  obtain ⟨hmore, hend⟩ := hsecond _ hlast
  refine ⟨isChain_append_of_getLastD hchain hmore, ?_⟩
  rwa [getLastD_append]

/-- One more piece, which follows any piece that the flow goes on behind. -/
theorem Links.single {next : Joint}
    (hfollows : ∀ one : Joint, flow.Trails settings written one.piece →
      Joint.Follows settings plan one next)
    (hafter : after.Trails settings behind next.piece) :
    settings.Links plan flow written [next] after behind := fun one htrails =>
  ⟨.cons_cons (hfollows one htrails) (.singleton _), hafter⟩

end Links

/-! ## The pieces of what is laid out -/

/-- These are the pieces of a text that is laid out between two states of planning, and the blanks
that wait behind it. Taken together they are the text, both as the source has it and as it is
written, with nothing but blanks between them. -/
structure Assembles (settings : Settings) (plan : Plan) (text start : List Char)
    (before after : Progress) (pieces : List OutputPiece) (found : List Joint × List Char) :
    Prop where
  left : found.2 = after.blanks
  source : Joint.sourceOf found.1 ++ found.2 = before.blanks ++ text
  written : Joint.writtenOf found.1 = joinPieces pieces
  blank : ∀ one ∈ found.1, allBlank one.source = true ∧ allBlank one.written = true
  spare : allBlank found.2 = true
  links : settings.Links plan before.flow start found.1 after.flow (start ++ joinPieces pieces)

theorem Assembles.cons {node : Node} {rest : List Node} {before after final : Progress}
    {between : List Char} {pieces others : List OutputPiece}
    (hnode : settings.Assembles plan node.text written before after pieces
      (plan.joints written before.blanks node))
    (hbetween : between = written ++ joinPieces pieces)
    (hrest : settings.Assembles plan (Node.textOfAll rest) between after final others
      (plan.jointsAll between after.blanks rest)) :
    settings.Assembles plan (Node.textOfAll (node :: rest)) written before final (pieces ++ others)
      (plan.jointsAll written before.blanks (node :: rest)) := by
  subst hbetween
  have hsplit : plan.jointsAll written before.blanks (node :: rest) =
      ((plan.joints written before.blanks node).1 ++
        (plan.jointsAll (written ++ joinPieces pieces) after.blanks rest).1,
        (plan.jointsAll (written ++ joinPieces pieces) after.blanks rest).2) := by
    rw [← hnode.written, ← hnode.left, Plan.jointsAll]
  rw [hsplit]
  refine ⟨hrest.left, ?_, ?_, List.forall_mem_append.mpr ⟨hnode.blank, hrest.blank⟩, hrest.spare,
    ?_⟩
  · rw [Joint.sourceOf_append, List.append_assoc, hrest.source, ← hnode.left, ← List.append_assoc,
      hnode.source, Node.textOfAll_cons, List.append_assoc]
  · rw [Joint.writtenOf_append, hnode.written, hrest.written, joinPieces_append]
  · rw [joinPieces_append, ← List.append_assoc]
    exact hnode.links.append hrest.links

theorem assembles_blank {leaf : Leaf} {leading : List Char} (hkind : leaf.kind = .text)
    (hrun : Run.ofText leaf.raw = .blank leading) {before : Gap} {indent : Nat}
    (hdecision : plan.get? leaf.id = some ⟨before, .nothing, indent, .text []⟩)
    (hblank : allBlank progress.blanks = true) :
    settings.Assembles plan (Node.leaf leaf).text written progress
      (settings.layoutNode (.leaf leaf) progress) []
      (plan.joints written progress.blanks (.leaf leaf)) := by
  have hleading := Run.proper_ofText leaf.raw
  have hraw := Run.source_ofText leaf.raw
  rw [hrun] at hleading hraw
  have hfound : plan.joints written progress.blanks (.leaf leaf) =
      ([], progress.blanks ++ leading) := by
    simp only [Plan.joints, hdecision, Plan.leafJoints, hrun]
  rw [hfound, layoutNode_blank hkind hrun, Node.text_leaf, ← hraw]
  refine ⟨rfl, rfl, rfl, nofun, ?_, ?_⟩
  · rw [allBlank_append, hblank]
    exact hleading
  · rw [show joinPieces [] = [] from rfl, List.append_nil]
    exact .nil

/-- The further words of a text, behind the blanks that are theirs. -/
theorem furtherJoints_spec {rest : List (List Char × Word)} {gaps : List Gap}
    (hlength : gaps.length = rest.length)
    (hrest : Parted (rest.map fun (gap, word) => (gap, Word.raw word)))
    (hlaid : Parted (gaps.zipWith (fun gap parted => (gap.text, parted.2))
      (rest.map fun (gap, word) => (gap, Word.raw word)))) :
    let further := Plan.furtherJoints rest gaps
    Joint.sourceOf further =
        (rest.map fun (gap, word) => (gap, Word.raw word)).flatMap
          (fun (gap, word) => gap ++ word) ∧
      Joint.writtenOf further = (gaps.zipWith (fun gap parted => (gap.text, parted.2))
        (rest.map fun (gap, word) => (gap, Word.raw word))).flatMap
          (fun (gap, word) => gap ++ word) ∧
      ∀ one ∈ further, one.piece.isWord = true ∧ (one.source ≠ [] ∧ one.written ≠ []) ∧
        allBlank one.source = true ∧ allBlank one.written = true := by
  intro further
  induction rest generalizing gaps with
  | nil =>
      obtain rfl := List.length_eq_zero_iff.mp hlength
      exact ⟨rfl, rfl, by simp [further, Plan.furtherJoints]⟩
  | cons parted others ih =>
      cases gaps with
      | nil => cases hlength
      | cons gap gaps =>
          obtain ⟨⟨hsource, hblank, -⟩, hothers⟩ := List.forall_mem_cons.mp hrest
          obtain ⟨⟨hwritten, hgap, -⟩, hmore⟩ := List.forall_mem_cons.mp hlaid
          obtain ⟨htext, houtput, hall⟩ := ih (Nat.succ.inj hlength) hothers hmore
          have hcons : further = ⟨parted.1, gap.text, .word (Word.raw parted.2)⟩ ::
            Plan.furtherJoints others gaps := rfl
          rw [hcons, Joint.sourceOf_cons, Joint.writtenOf_cons, htext, houtput]
          refine ⟨by simp, by simp, List.forall_mem_cons.mpr ⟨?_, hall⟩⟩
          exact ⟨rfl, ⟨hsource, hwritten⟩, hblank, hgap⟩

/-- Words behind a word that are parted from it and from each other. -/
theorem Links.words {flow : Flow} {joints : List Joint} (hwritten : written ≠ [])
    (hinline : flow.preceding = .inline)
    (hwords : ∀ one ∈ joints, one.piece.isWord = true ∧ one.source ≠ [] ∧ one.written ≠ []) :
    settings.Links plan flow written joints flow written := by
  induction joints with
  | nil => exact .nil
  | cons next rest ih =>
      obtain ⟨⟨hword, hsource, hlaid⟩, hrest⟩ := List.forall_mem_cons.mp hwords
      have hnext : settings.Links plan flow written [next] flow written :=
        .single (fun _ _ _ _ => iff_of_true hlaid (.inl hsource))
          (trails_word hwritten hinline hword)
      exact hnext.append (ih hrest)

/-- The gaps that part the words of a text as it is laid out. -/
theorem parted_layoutPassage (settings : Settings) (leading : List Char) (first : Word)
    {words : List (List Char × Word)} (progress : Progress)
    (hwords : Parted (words.map fun (gap, word) => (gap, Word.raw word))) :
    let passage := settings.layoutPassage leading first words progress
    passage.gaps.length = words.length ∧
      Parted (passage.gaps.zipWith (fun gap parted => (gap.text, parted.2))
        (words.map fun (gap, word) => (gap, Word.raw word))) := by
  intro passage
  have hgaps : passage.gaps = (settings.fill passage.continuation (passage.start.place first.width)
      ((words.map fun (gap, word) => (gap, Word.raw word)).map
        fun (blanks, word) => (blanks, word.length))).1 := by
    rw [List.map_map]
    exact congrArg Prod.fst (settings.layoutWords_eq_fill _ _ _ _)
  rw [hgaps]
  exact ⟨by rw [length_fill]; simp, (settings.fill_parted _ _ hwords).1⟩

theorem assembles_words {leaf : Leaf} {leading trailing : List Char} {first : Word}
    {words : List (List Char × Word)} {inside : List OutputPiece} (hkind : leaf.kind = .text)
    (hrun : Run.ofText leaf.raw = .words leading first words trailing)
    (hends : progress.draft.cursor.Ends written)
    (hanchored : progress.draft.cursor.anchored = false)
    (hblank : allBlank progress.blanks = true) :
    let passage := settings.layoutPassage leading first words progress
    plan.get? leaf.id = some ⟨passage.before, .nothing, passage.flow.indent, .text passage.gaps⟩ →
    wordPieces? (first :: words.map (·.2)) passage.gaps = some inside →
    settings.Assembles plan (Node.leaf leaf).text written progress
      (settings.layoutNode (.leaf leaf) progress) (passage.before.pieces ++ inside)
      (plan.joints written progress.blanks (.leaf leaf)) := by
  intro passage hdecision hinside
  have hproper := Run.proper_ofText leaf.raw
  rw [hrun] at hproper
  have hfound : plan.joints written progress.blanks (.leaf leaf) =
      (⟨progress.blanks ++ leading, passage.before.text, .word (Word.raw first)⟩ ::
        Plan.furtherJoints words passage.gaps, trailing) := by
    simp only [Plan.joints, hdecision, Plan.leafJoints, hrun]
  obtain ⟨hlength, hlaid⟩ := settings.parted_layoutPassage leading first progress hproper.parted
  obtain ⟨hsource, hwritten, hfurther⟩ := furtherJoints_spec hlength hproper.parted hlaid
  obtain ⟨pieces, hpieces, htext⟩ := @wordPieces?_of_gaps first _ _ hlength
  obtain rfl := Option.some.inj (hinside.symm.trans hpieces)
  have hne : written ++ joinPieces (passage.before.pieces ++ inside) ≠ [] :=
    append_words_ne_nil hrun hinside
  have hflow : (settings.layoutNode (.leaf leaf) progress).flow.preceding = .inline := by
    rw [layoutNode_words hkind hrun]
    rfl
  rw [hfound]
  refine ⟨?_, ?_, ?_, ?_, hproper.2.2.2, ?_⟩
  · rw [layoutNode_words hkind hrun]
  · rw [Node.text_leaf, Run.eq_of_words hrun, Joint.sourceOf_cons, hsource]
    simp [wordsText]
  · rw [Joint.writtenOf_cons, hwritten, joinPieces_append, Gap.joinPieces_pieces, htext]
    rfl
  · refine List.forall_mem_cons.mpr ⟨⟨?_, ?_⟩, fun one hmem => (hfurther one hmem).2.2⟩
    · rw [allBlank_append, hblank]
      exact hproper.1
    · exact settings.blank_separate _ _ _ _ (by rw [allBlank_append, hblank]; exact hproper.1)
  · rw [← List.singleton_append]
    refine .append (.single (fun one htrails => ?_) ?_)
      (.words hne hflow fun one hmem => ⟨(hfurther one hmem).1, (hfurther one hmem).2.1⟩)
    · exact follows_first hends hanchored htrails rfl (fun _ => rfl) _ _
    · exact trails_word hne hflow rfl

/-! ## Nodes that are no text -/

theorem assembles_atom {leaf : Leaf} {kind : Following} {separated : Gap × Cursor × Flow}
    (hseparated : separated = settings.separate progress.draft.cursor progress.flow progress.blanks
      kind (firstLine leaf.raw).length)
    (hlaid : (settings.layoutNode (.leaf leaf) progress).blanks = [])
    (hdecision : plan.get? leaf.id = some ⟨separated.1, .nothing, separated.2.1.column, .atom⟩)
    (hblank : allBlank progress.blanks = true) :
    settings.Assembles plan (Node.leaf leaf).text written progress
      (settings.layoutNode (.leaf leaf) progress) (separated.1.pieces ++ leaf.pieces)
      (plan.joints written progress.blanks (.leaf leaf)) := by
  have hfound : plan.joints written progress.blanks (.leaf leaf) =
      ([⟨progress.blanks, separated.1.text, .sealed leaf.raw⟩], []) := by
    simp only [Plan.joints, hdecision, Plan.leafJoints]
  rw [hfound]
  refine ⟨hlaid.symm, ?_, ?_, ?_, rfl, ?_⟩
  · simp [Joint.sourceOf]
  · simp [Joint.writtenOf, joinPieces_append, Gap.joinPieces_pieces, leaf.joinPieces_pieces]
  · refine List.forall_mem_singleton.mpr ⟨hblank, ?_⟩
    rw [hseparated]
    exact settings.blank_separate _ _ _ _ hblank
  · exact .single (fun one _ => follows_of_not_runsOn rfl) (trails_of_not_runsOn rfl)

/-- The start tag of an element, behind the gap in front of it. -/
theorem links_opening (hends : progress.draft.cursor.Ends written)
    (hanchored : progress.draft.cursor.anchored = false) {elem : Element} {children : List Node}
    {laid : StartTag} {after : Flow} {behind : List Char}
    (hafter : after.Trails settings behind (.opening elem.tag laid)) :
    settings.Links plan progress.flow written
      [⟨progress.blanks, (settings.layoutHeading elem.tag children progress).before.text,
        .opening elem.tag laid⟩] after behind := by
  refine .single (fun one htrails => ?_) hafter
  refine follows_first hends hanchored htrails rfl (fun hruns => ?_) _ _
  have hinline : settings.isInline elem.tag.name = true := hruns
  rw [hinline]
  rfl

theorem assembles_closed {elem : Element} {children : List Node} {endTag : Gap}
    {kept : List OutputPiece}
    (hkept : settings.contentOf elem.tag = .empty ∧ children = [] ∧ elem.endTag = none ∧ kept = [] ∨
      settings.contentOf elem.tag = .verbatim ∧ kept = emit .verbatim (elem.preserved children).1)
    (hends : progress.draft.cursor.Ends written)
    (hanchored : progress.draft.cursor.anchored = false)
    (hblank : allBlank progress.blanks = true) :
    let heading := settings.layoutHeading elem.tag children progress
    plan.get? elem.id = some ⟨heading.before, .nothing, heading.indent,
      .element heading.attributes heading.tagEnd (settings.contentOf elem.tag) endTag⟩ →
    settings.Assembles plan (Node.element elem children).text written progress
      (settings.layoutNode (.element elem children) progress)
      (heading.before.pieces ++ elem.tag.pieces heading.attributes heading.tagEnd ++ kept)
      (plan.joints written progress.blanks (.element elem children)) := by
  intro heading hdecision
  have hgap : allBlank heading.before.text = true := settings.blank_separate _ _ _ _ hblank
  let opening : Joint := ⟨progress.blanks, heading.before.text,
    .opening elem.tag (elem.tag.laid heading.attributes heading.tagEnd)⟩
  have hlinks : ∀ {after : Flow} {behind : List Char},
      after.Trails settings behind opening.piece →
        settings.Links plan progress.flow written [opening] after behind :=
    links_opening hends hanchored
  rcases hkept with ⟨hcontent, rfl, hopen, rfl⟩ | ⟨hcontent, rfl⟩
  · have hfound : plan.joints written progress.blanks (.element elem []) = ([opening], []) := by
      simp only [Plan.joints, hdecision, hcontent, opening]
    have hleft : (settings.layoutNode (.element elem []) progress).blanks = [] := by
      rw [layoutNode, hcontent]
      rfl
    rw [hfound]
    refine ⟨hleft.symm, ?_, ?_, List.forall_mem_singleton.mpr ⟨hblank, hgap⟩, rfl, ?_⟩
    · simp [opening, Joint.sourceOf, Element.endText, hopen]
    · simp [opening, Joint.writtenOf, joinPieces_append, Gap.joinPieces_pieces,
        StartTag.joinPieces_pieces]
    · refine hlinks (trails_layoutNode rfl append_element_ne_nil fun hruns => ?_)
      have hinline : settings.isInline elem.name = true := hruns
      simp [isBlock, opening, Piece.endsBlock, hinline]
  · let copied : Joint := ⟨[], [], .sealed (elem.preserved children).1⟩
    have hfound : plan.joints written progress.blanks (.element elem children) =
        ([opening] ++ [copied], (elem.preserved children).2) := by
      simp only [Plan.joints, hdecision, hcontent, opening, copied]
      rfl
    have hleft : (settings.layoutNode (.element elem children) progress).blanks =
        (elem.preserved children).2 := by
      rw [layoutNode, hcontent]
      rfl
    rw [hfound]
    refine ⟨hleft.symm, ?_, ?_, ?_, blank_preserved elem children, ?_⟩
    · rw [Node.text_element, ← elem.preserved_append]
      simp [opening, copied, Joint.sourceOf]
    · simp [opening, copied, Joint.writtenOf, joinPieces_append, Gap.joinPieces_pieces,
        StartTag.joinPieces_pieces, joinPieces_emit]
    · exact List.forall_mem_cons.mpr ⟨⟨hblank, hgap⟩, List.forall_mem_singleton.mpr ⟨rfl, rfl⟩⟩
    · have hstart : written ++ joinPieces (heading.before.pieces ++
          elem.tag.pieces heading.attributes heading.tagEnd) ≠ [] := append_startTag_ne_nil
      have hopening := hlinks (@trails_keptContent settings progress _ elem children _ hstart)
      exact hopening.append (.single (fun one _ => follows_of_not_runsOn rfl)
        (trails_of_not_runsOn rfl))

/-- The end of an element, both as the source has it and as it is written. -/
theorem endJoint_spec (elem : Element) (children : List Node) (start : List Char)
    {blanks : List Char} (hblank : allBlank blanks = true) {endTag : Gap} (hgap : endTag.Blank) :
    let found := Plan.endJoint elem children start blanks endTag
    Joint.sourceOf [found.1] ++ found.2 = blanks ++ elem.endText ∧
      Joint.writtenOf [found.1] = joinPieces (endPieces elem.endTag endTag) ∧
      (allBlank found.1.source = true ∧ allBlank found.1.written = true) ∧
      allBlank found.2 = true := by
  rw [joinPieces_endPieces, Element.endText, Plan.endJoint]
  cases elem.endTag with
  | none => exact ⟨by simp [Joint.sourceOf], rfl, ⟨rfl, rfl⟩, hblank⟩
  | some close =>
      exact ⟨by simp [Joint.sourceOf],
        by simp [Joint.writtenOf, Item.closeText], ⟨hblank, hgap⟩, rfl⟩

theorem assembles_formatted {elem : Element} {children : List Node} {inner : List OutputPiece}
    (hcontent : settings.contentOf elem.tag = .formatted)
    (hends : progress.draft.cursor.Ends written)
    (hanchored : progress.draft.cursor.anchored = false)
    (hblank : allBlank progress.blanks = true) :
    let heading := settings.layoutHeading elem.tag children progress
    let content := settings.keptContent elem children progress
    let body := settings.layoutEnding heading elem.endTag (settings.layoutNodes children content)
    let start := written ++ joinPieces (heading.before.pieces ++
      elem.tag.pieces heading.attributes heading.tagEnd)
    plan.get? elem.id = some ⟨heading.before, .nothing, heading.indent,
      .element heading.attributes heading.tagEnd .formatted body.endTag⟩ →
    settings.Proceeds plan children content start inner →
    settings.Assembles plan (Node.textOfAll children) start content
      (settings.layoutNodes children content) inner (plan.jointsAll start [] children) →
    settings.Assembles plan (Node.element elem children).text written progress
      (settings.layoutNode (.element elem children) progress)
      (heading.before.pieces ++ elem.tag.pieces heading.attributes heading.tagEnd ++
        (inner ++ endPieces elem.endTag body.endTag))
      (plan.joints written progress.blanks (.element elem children)) := by
  intro heading content body start hdecision hproceeds hinner
  have hgap : allBlank heading.before.text = true := settings.blank_separate _ _ _ _ hblank
  let laid := elem.tag.laid heading.attributes heading.tagEnd
  let opening : Joint := ⟨progress.blanks, heading.before.text, .opening elem.tag laid⟩
  have hstart : written ++ heading.before.text ++ laid.text = start := by
    simp only [start, laid, joinPieces_append, Gap.joinPieces_pieces, StartTag.joinPieces_pieces,
      List.append_assoc]
  let last := Plan.endJoint elem children (written ++ heading.before.text)
    (settings.layoutNodes children content).blanks body.endTag
  have hfound : plan.joints written progress.blanks (.element elem children) =
      ([opening] ++ ((plan.jointsAll start [] children).1 ++ [last.1]), last.2) := by
    simp only [Plan.joints, hdecision, opening, last, ← hinner.left, ← hstart]
    rfl
  have hwaiting : allBlank (settings.layoutNodes children content).blanks = true :=
    hinner.left ▸ hinner.spare
  have hend : body.endTag.Blank := (settings.blank_layoutEnding heading elem.endTag hwaiting).1
  obtain ⟨hsource, hwritten, hlast, hspare⟩ := endJoint_spec elem children
    (written ++ heading.before.text) hwaiting hend
  have hleft : last.2 = (settings.layoutNode (.element elem children) progress).blanks := by
    rw [blanks_layoutNode_formatted hcontent]
    simp only [last, Plan.endJoint, layoutEnding]
    cases elem.endTag <;> rfl
  rw [hfound]
  refine ⟨hleft, ?_, ?_, ?_, hspare, ?_⟩
  · rw [Joint.sourceOf_append, Joint.sourceOf_append, List.append_assoc, List.append_assoc, hsource,
      ← hinner.left, ← List.append_assoc (Joint.sourceOf (Prod.fst _)), hinner.source]
    simp [opening, Joint.sourceOf, content, keptContent]
  · rw [Joint.writtenOf_append, Joint.writtenOf_append, hinner.written, hwritten]
    simp [opening, laid, Joint.writtenOf, joinPieces_append, Gap.joinPieces_pieces,
      StartTag.joinPieces_pieces]
  · refine List.forall_mem_append.mpr ⟨List.forall_mem_singleton.mpr ⟨hblank, hgap⟩, ?_⟩
    exact List.forall_mem_append.mpr ⟨hinner.blank, List.forall_mem_singleton.mpr hlast⟩
  · refine .append (links_opening hends hanchored (trails_keptContent append_startTag_ne_nil))
      (hinner.links.append (.single (fun one _ => ?_) ?_))
    · exact follows_endJoint hends hanchored hproceeds one
    · refine trails_layoutNode rfl append_element_ne_nil fun hruns => ?_
      simp only [last, Plan.endJoint] at hruns ⊢
      cases hclose : elem.endTag with
      | none => simp [isBlock, Piece.endsBlock, Element.name]
      | some close =>
          rw [hclose] at hruns
          have hinline : settings.isInline elem.name = true := hruns
          simp [isBlock, Piece.endsBlock, hinline]

/-! ## Whole documents -/

/-- The pieces of nodes that are laid out for good. -/
theorem Proceeds.assembles {nodes : List Node} {pieces : List OutputPiece}
    (hproceeds : settings.Proceeds plan nodes progress written pieces)
    (hanchored : progress.draft.cursor.anchored = false)
    (hblank : allBlank progress.blanks = true) :
    settings.Assembles plan (Node.textOfAll nodes) written progress
      (settings.layoutNodes nodes progress) pieces
      (plan.jointsAll written progress.blanks nodes) := by
  induction hproceeds with
  | nil hends =>
      refine ⟨rfl, (List.append_nil _).symm, rfl, nofun, hblank, ?_⟩
      rw [show joinPieces [] = [] from rfl, List.append_nil]
      exact .nil
  | @blank leaf rest progress written leading others hkind hrun hdecision hends hrest ih =>
      have hnode := @assembles_blank settings _ _ written _ _ hkind hrun _ _ hdecision hblank
      exact hnode.cons (List.append_nil _).symm
        (ih (anchored_layoutNode hanchored) (hnode.left ▸ hnode.spare))
  | words hkind hrun hpassage hdecision hinside hends hrest ih =>
      subst hpassage
      have hnode := assembles_words hkind hrun hends hanchored hblank hdecision hinside
      exact hnode.cons rfl (ih (anchored_layoutNode hanchored) (hnode.left ▸ hnode.spare))
  | @atom leaf rest progress written kind separated others hkind hlegible hseparated hlaid hdecision
      hends hrest ih =>
      have hnode := @assembles_atom settings _ _ written _ _ _ hseparated
        (congrArg Progress.blanks hlaid) hdecision hblank
      exact hnode.cons rfl (ih (anchored_layoutNode hanchored) (hnode.left ▸ hnode.spare))
  | closed hheading hfits hkept hdecision hends hrest ih =>
      subst hheading
      have hnode := assembles_closed hkept hends hanchored hblank hdecision
      exact hnode.cons rfl (ih (anchored_layoutNode hanchored) (hnode.left ▸ hnode.spare))
  | formatted hheading hfits hcontent hclose hbody hdecision hends hchildren hrest ihinner ih =>
      subst hheading hbody
      have hnode := assembles_formatted hcontent hends hanchored hblank hdecision hchildren
        (ihinner (anchored_keptContent hanchored) rfl)
      exact hnode.cons rfl (ih (anchored_layoutNode hanchored) (hnode.left ▸ hnode.spare))

/-! ## The way from a word to the next -/

/-- On a way over words and inline tags, blanks are written if the source has some, or if blanks are
not kept and a line has to end: in front of an end tag, or between a block and what follows it. -/
theorem exists_written_iff {one : Joint} {way : List Joint}
    (hchain : List.IsChain (Joint.Follows settings plan) (one :: way))
    (hruns : ∀ next ∈ one :: way, next.piece.runsOn settings = true) :
    (∃ next ∈ way, next.written ≠ []) ↔ (∃ next ∈ way, next.source ≠ []) ∨
      settings.keepWhitespaces = false ∧
        ((∃ next ∈ way, next.piece.EndsLine settings plan) ∨
          ∃ block next, [block, next] <:+: one :: way ∧
            block.piece.endsBlock settings = true ∧ next.piece.begins = true) := by
  induction way generalizing one with
  | nil =>
      have hshort : ∀ block next : Joint, ¬[block, next] <:+: [one] := fun block next hinfix =>
        absurd hinfix.length_le (by simp)
      simp [hshort]
  | cons other rest ih =>
      obtain ⟨hfollows, hrest⟩ := List.isChain_cons_cons.mp hchain
      obtain ⟨hone, hothers⟩ := List.forall_mem_cons.mp hruns
      have hother := hothers other List.mem_cons_self
      have hends : (∃ block next, [block, next] <:+: one :: other :: rest ∧
          block.piece.endsBlock settings = true ∧ next.piece.begins = true) ↔
          (one.piece.endsBlock settings = true ∧ other.piece.begins = true) ∨
            ∃ block next, [block, next] <:+: other :: rest ∧
              block.piece.endsBlock settings = true ∧ next.piece.begins = true := by
        simp only [List.infix_cons_iff (a := one), List.cons_prefix_cons, List.nil_prefix, and_true,
          or_and_right, exists_or, and_assoc, exists_and_left, exists_eq_left]
      rw [List.exists_mem_cons_iff, List.exists_mem_cons_iff, List.exists_mem_cons_iff,
        ih hrest hothers, hfollows hone hother, hends]
      simp only [and_or_left]
      exact iff_of_eq (by ac_rfl)

/-- Where a way begins with a piece that ends no block, every block on it ends behind that piece. -/
theorem exists_block_cons_iff {one : Joint} (hone : one.piece.endsBlock settings = false)
    (way : List Joint) :
    (∃ block next, [block, next] <:+: one :: way ∧ block.piece.endsBlock settings = true ∧
      next.piece.begins = true) ↔
      ∃ block next, [block, next] <:+: way ∧ block.piece.endsBlock settings = true ∧
        next.piece.begins = true := by
  constructor
  · rintro ⟨block, next, hinfix, hblock, hnext⟩
    refine ⟨block, next, (List.infix_cons_iff.mp hinfix).resolve_left fun hprefix => ?_, hblock,
      hnext⟩
    obtain ⟨rfl, -⟩ := List.cons_prefix_cons.mp hprefix
    exact absurd hblock (by simp [hone])
  · rintro ⟨block, next, hinfix, hends⟩
    exact ⟨block, next, hinfix.trans (List.infix_cons List.infix_rfl), hends⟩

end Settings

/-- Formatting a text that can be read, under settings that are accepted, gives a result. The text
and the result are the same pieces behind one another, up to how tags are written, with blanks in
front of them and at the end. Between two words with nothing but inline tags between them, there are
blanks in the result exactly if there are some in the text, or if blanks are not kept and a line has
to end between the words: in front of the end tag of an element that begins its line and has a block
among its children or a line that is broken in its content, or behind a block without an end tag
that is directly followed by a start tag or the second word. -/
theorem format_words_apart {settings : Settings} {text : String} {document : Document}
    (hcheck : settings.check = .ok ()) (hparse : parse text.toList = .ok document) :
    ∃ plan output left behind, settings.plan document none = .ok plan ∧
      format .plain settings text none = .ok output ∧
      text.toList = Joint.sourceOf (plan.jointsOf document) ++ left ∧ allBlank left = true ∧
      output.toList = Joint.writtenOf (plan.jointsOf document) ++ behind ∧ allBlank behind = true ∧
      (∀ one ∈ plan.jointsOf document, allBlank one.source = true ∧ allBlank one.written = true) ∧
      ∀ front first between second back,
        plan.jointsOf document = front ++ first :: (between ++ second :: back) →
        first.piece.isWord = true → second.piece.isWord = true →
        (∀ one ∈ between, one.piece.isInlineTag settings = true) →
          let way := between ++ [second]
          ((∃ one ∈ way, one.written ≠ []) ↔ (∃ one ∈ way, one.source ≠ []) ∨
            settings.keepWhitespaces = false ∧
              ((∃ one ∈ way, one.piece.EndsLine settings plan) ∨
                ∃ block next, [block, next] <:+: way ∧
                  block.piece.endsBlock settings = true ∧ next.piece.begins = true)) := by
  obtain ⟨pieces, hpieces, hproceeds, hending⟩ := formatPieces_proceeds hcheck hparse
  let plan := settings.layoutDocument document
  let start := Settings.planningStart document
  have hassembles : settings.Assembles plan (Node.textOfAll document.children) [] start
      (settings.layoutNodes document.children start) pieces
        (plan.jointsAll [] [] document.children) :=
    hproceeds.assembles rfl rfl
  have hformat : format .plain settings text none =
      .ok (String.ofList (joinPieces (pieces ++ plan.ending.pieces))) := by
    rw [format_eq_map, hpieces]
    rfl
  refine ⟨plan, _, (plan.jointsAll [] [] document.children).2, plan.ending.text,
    settings.plan_none hcheck document, hformat, ?_, hassembles.spare, ?_, ?_, hassembles.blank, ?_⟩
  · rw [← Document.textOfAll_of_parse hparse]
    exact hassembles.source.symm
  · rw [String.toList_ofList, joinPieces_append, Gap.joinPieces_pieces]
    exact congrArg (· ++ _) hassembles.written.symm
  · rw [hending]
    exact settings.blank_finalGap (hassembles.left ▸ hassembles.spare)
  · intro front first between second back hall hfirst hsecond hbetween way
    -- a document starts behind no word and no tag
    have hnone : start.flow.Trails settings [] (Piece.sealed []) :=
      Settings.trails_of_not_runsOn rfl
    have hchain := (hassembles.links ⟨[], [], .sealed []⟩ hnone).1
    rw [show (plan.jointsAll [] [] document.children).1 = _ from hall, ← List.cons_append,
      List.append_cons between] at hchain
    have hfrom : List.IsChain (Joint.Follows settings plan) (first :: way ++ back) :=
      hchain.right_of_append
    have hway := hfrom.left_of_append
    have hruns : ∀ next ∈ first :: way, next.piece.runsOn settings = true := by
      simp only [way, List.forall_mem_cons, List.forall_mem_append, Piece.runsOn, hfirst, hsecond,
        Bool.true_or, List.not_mem_nil, false_implies, implies_true, and_true, true_and]
      intro one hmem
      rw [hbetween one hmem, Bool.or_true]
    rw [Settings.exists_written_iff hway hruns,
      Settings.exists_block_cons_iff (Piece.endsBlock_of_isWord settings hfirst)]

/-- Words with blanks between them and words with none, and inline tags between them. The first
element begins its line and has a broken line in it, so that its end tag begins one as well. -/
theorem format_words_apart_nested :
    let settings : Settings := {}
    let text := "<b>a\nb</b>c <i>d</i>e"
    let bold : StartTag := ⟨['b'], [], [], .plain⟩
    let italic : StartTag := ⟨['i'], [], [], .plain⟩
    let first : Node := .leaf ⟨.text, 1, "a\nb".toList, ⟨3, 6⟩⟩
    let second : Node := .leaf ⟨.text, 4, ['d'], ⟨15, 16⟩⟩
    let next (piece : Piece) : Joint := ⟨[], [], piece⟩
    let lower : Joint := ⟨['\n'], "\n    ".toList, .word ['b']⟩
    let ended : Joint := ⟨[], ['\n'], .closing bold [] [first] ⟨['b'], "</b>".toList⟩⟩
    let opened : Joint := ⟨[' '], [' '], .opening italic italic⟩
    let closed : Joint :=
      next (.closing italic "<b>a\n    b\n</b>c ".toList [second] ⟨['i'], "</i>".toList⟩)
    settings.check = .ok () ∧ ∃ document plan, parse text.toList = .ok document ∧
      settings.plan document none = .ok plan ∧
      format .plain settings text none = .ok "<b>a\n    b\n</b>c <i>d</i>e" ∧
      plan.jointsOf document = [next (.opening bold bold), next (.word ['a']), lower, ended,
        next (.word ['c']), opened, next (.word ['d']), closed, next (.word ['e'])] ∧
      (∃ one ∈ [ended, next (.word ['c'])], one.piece.EndsLine settings plan) ∧
      ¬∃ one ∈ [closed, next (.word ['e'])], one.piece.EndsLine settings plan := by
  intro settings text bold italic first second next lower ended opened closed
  have hcheck : settings.check = .ok () := by with_unfolding_all rfl
  have hread : (parse text.toList).toOption.map (fun document =>
      (settings.layoutDocument document).jointsOf document) = some
        [next (.opening bold bold), next (.word ['a']), lower, ended, next (.word ['c']), opened,
          next (.word ['d']), closed, next (.word ['e'])] := by
    decide +kernel
  obtain ⟨document, hdocument, hjoints⟩ := Option.map_eq_some_iff.mp hread
  have hparse := toOption_eq_some_iff.mp hdocument
  have hplan := settings.plan_none hcheck document
  have hformat : format .plain settings text none = .ok "<b>a\n    b\n</b>c <i>d</i>e" := by
    rw [← toOption_eq_some_iff]
    decide +kernel
  obtain ⟨plan, output, left, behind, hfound, -, -, -, -, -, -, hwords⟩ :=
    format_words_apart hcheck hparse
  obtain rfl := Except.ok.inj (hplan.symm.trans hfound)
  refine ⟨hcheck, document, _, hparse, hplan, hformat, hjoints, ?_, ?_⟩
  · have hway := (hwords [next (.opening bold bold), next (.word ['a'])] lower [ended]
      (next (.word ['c'])) _ hjoints rfl rfl (by decide)).mp (by decide)
    refine (hway.resolve_left (by decide)).2.resolve_right ?_
    rintro ⟨block, other, hinfix, hblock, -⟩
    have hnone : ∀ one ∈ [ended, next (.word ['c'])], one.piece.endsBlock settings = false := by
      decide
    have hmem := hinfix.subset List.mem_cons_self
    exact Bool.false_ne_true ((hnone block hmem).symm.trans hblock)
  · intro hends
    have hway := (hwords [next (.opening bold bold), next (.word ['a']), lower, ended,
      next (.word ['c']), opened] (next (.word ['d'])) [closed] (next (.word ['e'])) [] hjoints rfl
      rfl (by decide)).mpr (.inr ⟨rfl, .inl hends⟩)
    exact absurd hway (by decide)

/-- Formatting puts blanks between two words of a text that have none between them, but inline tags
at most. -/
def Settings.Splits (settings : Settings) (text output : String) : Prop :=
  settings.check = .ok () ∧ format .plain settings text none = .ok output ∧
    ∃ document plan front first between second back, parse text.toList = .ok document ∧
      settings.plan document none = .ok plan ∧
      plan.jointsOf document = front ++ first :: (between ++ second :: back) ∧
        first.piece.isWord = true ∧ second.piece.isWord = true ∧
          (∀ one ∈ between, one.piece.isInlineTag settings = true) ∧
            (∀ one ∈ between ++ [second], one.source = []) ∧
              ∃ one ∈ between ++ [second], one.written ≠ []

/-- A line of its own for an end tag parts a word in front of it from one behind it, and so does the
line behind a block that is left open. -/
theorem format_splits_words :
    Settings.Splits {} "<b>a\nb</b>c" "<b>a\n    b\n</b>c" ∧
      Settings.Splits { inlineElements := ["dd"] } "<dl><dt>a<dd>b</dl>"
        "<dl>\n    <dt>a\n    <dd>b\n</dl>" := by
  let bold : StartTag := ⟨['b'], [], [], .plain⟩
  let list : StartTag := ⟨['d', 'l'], [], [], .plain⟩
  let term : StartTag := ⟨['d', 't'], [], [], .plain⟩
  let entry : StartTag := ⟨['d', 'd'], [], [], .plain⟩
  let next (piece : Piece) : Joint := ⟨[], [], piece⟩
  let indented := "\n    ".toList
  constructor
  · have hcheck : Settings.check {} = .ok () := by with_unfolding_all rfl
    let first : Node := .leaf ⟨.text, 1, "a\nb".toList, ⟨3, 6⟩⟩
    have hread : (parse "<b>a\nb</b>c".toList).toOption.map (fun document =>
        (Settings.layoutDocument {} document).jointsOf document) =
        some ([next (.opening bold bold), next (.word ['a'])] ++
          ⟨['\n'], indented, .word ['b']⟩ ::
            ([⟨[], ['\n'], .closing bold [] [first] ⟨['b'], "</b>".toList⟩⟩] ++
              next (.word ['c']) :: [])) := by
      decide +kernel
    obtain ⟨document, hdocument, hjoints⟩ := Option.map_eq_some_iff.mp hread
    refine ⟨hcheck, ?_, document, _, _, _, _, _, _, toOption_eq_some_iff.mp hdocument,
      Settings.plan_none hcheck document, hjoints, rfl, rfl, by decide, by simp [next], by simp⟩
    rw [← toOption_eq_some_iff]
    decide +kernel
  · let settings : Settings := { inlineElements := ["dd"] }
    have hcheck : settings.check = .ok () := by with_unfolding_all rfl
    have hread : (parse "<dl><dt>a<dd>b</dl>".toList).toOption.map (fun document =>
        ((settings.layoutDocument document).jointsOf document).take 6) =
        some ([next (.opening list list), ⟨[], indented, .opening term term⟩] ++
          next (.word ['a']) :: ([next (.ended term), ⟨[], indented, .opening entry entry⟩] ++
            next (.word ['b']) :: [])) := by
      decide +kernel
    obtain ⟨document, hdocument, hfront⟩ := Option.map_eq_some_iff.mp hread
    have hjoints := (List.take_append_drop 6 _).symm.trans (congrArg (· ++ _) hfront)
    refine ⟨hcheck, ?_, document, _,
      [next (.opening list list), ⟨[], indented, .opening term term⟩], next (.word ['a']),
      [next (.ended term), ⟨[], indented, .opening entry entry⟩], next (.word ['b']), _,
      toOption_eq_some_iff.mp hdocument, Settings.plan_none hcheck document, hjoints, rfl, rfl,
      by decide, by simp [next], by simp [indented]⟩
    rw [← toOption_eq_some_iff]
    decide +kernel

end Markup
