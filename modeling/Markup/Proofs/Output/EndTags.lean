import Markup.Proofs.Output.BrokenLines
import Markup.Proofs.Output.Indentation

/-!
# Where end tags stand

Whether the end tag of an element begins a line depends on how its content came out. In a block, and
in an element that begins its line, it does so where a block is among the children, and where a text
was broken into several lines, be it the element's own or one inside of inline elements. It stays on
the line where the content ends if none of this holds, no line break of the source was kept, and no
line was broken in front of anything in the content to make it fit. Main statement:
`layoutDocument_closed`.
-/

namespace Markup

open Markup.Text

/-! ## What is planned -/

/-- The gap in front of the end tag of an element with these children and this indent is a line
break where one is due, and is none where nothing calls for it. In front of the start tag is this
text. -/
structure Settings.PlacesEnd (settings : Settings) (plan : Plan) (start : List Char)
    (elem : Element) (children : List Node) (indent : Nat) (endTag : Gap) : Prop where
  breaks : elem.endTag.isSome = true →
    (settings.isInline elem.name = false ∨ allBlank (lastLine start) = true) →
    ((∃ child ∈ children, settings.isBlock child = true) ∨ settings.BreaksText plan children) →
      ∃ newlines, 0 < newlines ∧ endTag = .lineBreak newlines indent
  stays : settings.keepLineBreaks = false → (∀ child ∈ children, settings.isBlock child = false) →
    ¬settings.BreaksText plan children → ¬settings.Wraps plan children → endTag.breaksLine = false

mutual

/-- Behind this text, a node is planned with its end tag, and with those of the elements inside,
where their content calls for them. -/
def Node.Closed (settings : Settings) (plan : Plan) (before : List Char) : Node → Prop
  | .leaf _ => True
  | .element elem children => ∃ gap attributes tagEnd endTag indent,
      plan.get? elem.id = some ⟨gap, .nothing, indent,
        .element attributes tagEnd (settings.contentOf elem.tag) endTag⟩ ∧
      (settings.contentOf elem.tag = .formatted →
        let start := before ++ gap.text
        settings.PlacesEnd plan start elem children indent endTag ∧
        ClosedAll settings plan (start ++ joinPieces (elem.tag.pieces attributes tagEnd)) children)

/-- Nodes one behind the other. -/
def Node.ClosedAll (settings : Settings) (plan : Plan) (before : List Char) : List Node → Prop
  | [] => True
  | node :: rest => Node.Closed settings plan before node ∧
      ∃ written, plan.render node = .ok written ∧
        ClosedAll settings plan (before ++ joinPieces written) rest

end

namespace Settings

variable {settings : Settings} {plan : Plan} {progress : Progress} {written : List Char}

/-! ## Where lines are broken in front of end tags -/

/-- An end tag begins a line where a block or a broken line is noted of the content. -/
theorem closingGap_breaks (hkeep : settings.keepWhitespaces = false) {inner : Flow}
    (hnoted : inner.blocks = true ∨ inner.broken = true) {ownLine : Bool} (hown : ownLine = true)
    (blanks : List Char) (indent : Nat) (block : Bool) :
    settings.closingGap inner blanks indent ownLine block =
      settings.breakGap (newlines blanks) indent := by
  unfold closingGap
  rw [if_neg (Bool.not_eq_true _ ▸ hkeep), if_pos]
  rw [Bool.and_eq_true, Bool.or_eq_true]
  exact ⟨hown, hnoted⟩

theorem closingGap_stays (hkeep : settings.keepWhitespaces = false)
    (hlines : settings.keepLineBreaks = false) {inner : Flow} (hblocks : inner.blocks = false)
    (hbroken : inner.broken = false) (blanks : List Char) (indent : Nat) (ownLine block : Bool) :
    (settings.closingGap inner blanks indent ownLine block).breaksLine = false := by
  simp only [closingGap, hkeep, hlines, hblocks, hbroken, Bool.or_false, Bool.and_false,
    Bool.false_eq_true, if_false]
  split <;> rfl

/-- Where the content of an element is laid out for good, its end tag goes where the content calls
for it. -/
theorem placesEnd_layoutEnding (hkeep : settings.keepWhitespaces = false) {elem : Element}
    {children : List Node} {inner : List OutputPiece}
    (hanchored : progress.draft.cursor.anchored = false)
    (hends : progress.draft.cursor.Ends written) {content : List Char}
    (hproceeds : settings.Proceeds plan children
      (settings.keptContent elem children progress) content inner) :
    let heading := settings.layoutHeading elem.tag children progress
    settings.PlacesEnd plan (written ++ heading.before.text) elem children heading.indent
      (settings.layoutEnding heading elem.endTag
        (settings.layoutNodes children (settings.keptContent elem children progress))).endTag := by
  intro heading
  have hblocks := @blocks_content settings elem children progress
  have hbroken := broken_content_iff hkeep hanchored hproceeds
  constructor
  · intro hend hown hcalled
    obtain ⟨tag, htag⟩ := Option.isSome_iff_exists.mp hend
    have hnoted := hcalled.imp (fun hblock => hblocks.trans (List.any_eq_true.mpr hblock))
      fun hbreaks => hbroken.mpr (.inl hbreaks)
    have hline : (heading.ownLine || heading.block) = true := by
      rw [ownLine_layoutHeading hkeep hanchored hends, Bool.or_eq_true]
      exact hown.symm.imp id fun hblock => (Bool.not_eq_true' _).mpr hblock
    rw [htag]
    exact ⟨_, Nat.le_max_left 1 _, closingGap_breaks hkeep hnoted hline _ _ _⟩
  · intro hlines hinline htexts hwraps
    have hnone := hblocks.trans (List.any_eq_false.mpr fun child hmem =>
      Bool.eq_false_iff.mp (hinline child hmem))
    have hunbroken := Bool.eq_false_iff.mpr
      (mt hbroken.mp (not_or.mpr ⟨htexts, mt WrapsItem.wraps hwraps⟩))
    cases elem.endTag with
    | none => rfl
    | some tag => exact closingGap_stays hkeep hlines hnone hunbroken _ _ _ _

theorem closed_leaf (leaf : Leaf) : Node.Closed settings plan written (.leaf leaf) :=
  trivial

theorem closedAll_cons {node : Node} {rest : List Node} {first others : List OutputPiece}
    (hnode : Node.Closed settings plan written node)
    (hall : plan.renderAll (node :: rest) = .ok (first ++ others))
    (hrest : plan.renderAll rest = .ok others)
    (hbehind : Node.ClosedAll settings plan (written ++ joinPieces first) rest) :
    Node.ClosedAll settings plan written (node :: rest) :=
  ⟨hnode, first, Plan.render_of_renderAll hall hrest, hbehind⟩

/-- The end tags of nodes that are laid out for good go where their content calls for them. -/
theorem Proceeds.closedAll {nodes : List Node} {pieces : List OutputPiece}
    (hkeep : settings.keepWhitespaces = false)
    (hproceeds : settings.Proceeds plan nodes progress written pieces)
    (hanchored : progress.draft.cursor.anchored = false) :
    Node.ClosedAll settings plan written nodes := by
  induction hproceeds with
  | nil => trivial
  | @blank leaf rest progress written leading others hkind hrun hdecision hends hrest ih =>
      have hbehind := ih (anchored_layoutNode hanchored)
      rw [← List.append_nil written] at hbehind
      exact @closedAll_cons _ _ _ (.leaf leaf) _ [] _ (closed_leaf leaf)
        (Proceeds.blank hkind hrun hdecision hends hrest).renderAll hrest.renderAll hbehind
  | words hkind hrun hpassage hdecision hinside hends hrest ih =>
      apply closedAll_cons (closed_leaf _)
      · exact (Proceeds.words hkind hrun hpassage hdecision hinside hends hrest).renderAll
      · exact hrest.renderAll
      · exact ih (anchored_layoutNode hanchored)
  | atom hkind hlegible hseparated hlaid hdecision hends hrest ih =>
      apply closedAll_cons (closed_leaf _)
      · exact (Proceeds.atom hkind hlegible hseparated hlaid hdecision hends hrest).renderAll
      · exact hrest.renderAll
      · exact ih (anchored_layoutNode hanchored)
  | closed hheading hfits hkept hdecision hends hrest ih =>
      refine closedAll_cons ⟨_, _, _, _, _, hdecision, fun hcontent => ?_⟩
        (Proceeds.closed hheading hfits hkept hdecision hends hrest).renderAll hrest.renderAll
        (ih (anchored_layoutNode hanchored))
      exact absurd hcontent (contentOf_ne_formatted hkept)
  | @formatted elem children rest progress written heading body inner others hheading hfits hcontent
      hclose hbody hdecision hends hchildren hrest ihinner ih =>
      have hall :=
        (Proceeds.formatted hheading hfits hcontent hclose hbody hdecision hends hchildren
          hrest).renderAll
      have hends := placesEnd_layoutEnding hkeep hanchored hends hchildren
      have hnested := ihinner (anchored_keptContent hanchored)
      rw [joinPieces_append, Gap.joinPieces_pieces, ← List.append_assoc] at hnested
      dsimp only at hends
      rw [← hheading, ← hbody] at hends
      rw [← hcontent] at hdecision
      exact closedAll_cons ⟨_, _, _, _, _, hdecision, fun _ => ⟨hends, hnested⟩⟩ hall
        hrest.renderAll (ih (anchored_layoutNode hanchored))

end Settings

/-- Where blanks are not kept, a document is planned with its end tags where the content of its
elements calls for them. -/
theorem layoutDocument_closed {settings : Settings} {text : List Char} {document : Document}
    (hcheck : settings.check = .ok ()) (hkeep : settings.keepWhitespaces = false)
    (hparse : parse text = .ok document) :
    ∃ plan, settings.plan document none = .ok plan ∧
      Node.ClosedAll settings plan [] document.children := by
  obtain ⟨pieces, -, hproceeds, -⟩ := formatPieces_proceeds hcheck hparse
  exact ⟨settings.layoutDocument document, settings.plan_none hcheck document,
    hproceeds.closedAll hkeep rfl⟩

/-- A list with two items, the first with a text in it that is broken inside of inline elements. Its
end tag begins a line, and that of the second one stays where its content ends. -/
theorem layoutDocument_closed_list :
    let settings : Settings := { keepLineBreaks := false }
    let text := "<ul><li><b>a <i>b\nc</i></b> </li><li>d <b>e</b></li></ul><p>f<br>\n<div>g</div>"
    let item (endTag : Gap) : Decision :=
      ⟨.lineBreak 1 4, .nothing, 4, .element [] .nothing .formatted endTag⟩
    settings.check = .ok () ∧ settings.keepWhitespaces = false ∧ ∃ document plan first second,
      parse text.toList = .ok document ∧ settings.plan document none = .ok plan ∧
        Node.ClosedAll settings plan [] document.children ∧
        first ∈ Node.preorderAll document.children ∧
        first.text = "<li><b>a <i>b\nc</i></b> </li>".toList ∧
        plan.get? first.id = some (item (.lineBreak 1 4)) ∧
        second ∈ Node.preorderAll document.children ∧ second.text = "<li>d <b>e</b></li>".toList ∧
        plan.get? second.id = some (item .nothing) := by
  intro settings text item
  have hcheck : settings.check = .ok () := by with_unfolding_all rfl
  have hread : (parse text.toList).toOption.map (fun document =>
      let nodes := Node.preorderAll document.children
      let entry (node : Node) := (node.text, (settings.layoutDocument document).get? node.id)
      (nodes[1]?.map entry, nodes[7]?.map entry)) =
      some (some ("<li><b>a <i>b\nc</i></b> </li>".toList, some (item (.lineBreak 1 4))),
        some ("<li>d <b>e</b></li>".toList, some (item .nothing))) := by
    decide +kernel
  obtain ⟨document, hdocument, hnodes⟩ := Option.map_eq_some_iff.mp hread
  obtain ⟨hone, htwo⟩ := Prod.mk.inj hnodes
  obtain ⟨first, hfirst, hitem⟩ := Option.map_eq_some_iff.mp hone
  obtain ⟨second, hsecond, hother⟩ := Option.map_eq_some_iff.mp htwo
  obtain ⟨htext, hdecision⟩ := Prod.mk.inj hitem
  obtain ⟨hmore, hlast⟩ := Prod.mk.inj hother
  have hparse := toOption_eq_some_iff.mp hdocument
  obtain ⟨plan, hplan, hclosed⟩ := layoutDocument_closed hcheck rfl hparse
  obtain rfl := Except.ok.inj ((settings.plan_none hcheck document).symm.trans hplan)
  exact ⟨hcheck, rfl, document, _, first, second, hparse, hplan, hclosed,
    List.mem_of_getElem? hfirst, htext, hdecision, List.mem_of_getElem? hsecond, hmore, hlast⟩

end Markup
