import Markup.Format
import Markup.Proofs.Output.RoundTrip
import Markup.Proofs.Plan.Selection
import Markup.Proofs.Tree.Soundness

/-!
# Formatting keeps the content

Formatting changes blanks, quotes around values and the way end tags are written, and nothing else.
What a plan makes of the source apart from the blanks is the source rewritten; the output has the
same characters as that, blanks left out. Words, values and whatever else is copied stand in the
output as they are, one behind the other.
-/

namespace Markup

open Markup.Text

/-! ## The source rewritten -/

/-- The attribute with other quotes around its value, if it has one. -/
def Attribute.requoted (attr : Attribute) (quote : Option Quote) : Attribute :=
  { attr with value := attr.value.map fun value => { value with quote := quote } }

/-- Attributes with the quotes that their layouts give them. -/
def Attribute.requoteAll : List Attribute → List AttributeLayout → List Attribute
  | attr :: attributes, layout :: layouts =>
      attr.requoted layout.quote :: requoteAll attributes layouts
  | attributes, _ => attributes

/-- The start tag with the quotes that layouts of its attributes give it. -/
def StartTag.requoted (tag : StartTag) (layouts : List AttributeLayout) : StartTag :=
  { tag with attributes := Attribute.requoteAll tag.attributes layouts }

/-- An end tag of which only the name is kept. -/
def EndTag.rewritten (tag : EndTag) : List Char :=
  '<' :: '/' :: (tag.name ++ ['>'])

/-- The text of an optional end tag of which only the name is kept. -/
def rewrittenEnd : Option EndTag → List Char
  | none => []
  | some tag => tag.rewritten

namespace Plan

mutual

/-- The source of a node, with the quotes that the plan gives to the values of the elements it
decides about, and with plain end tags where the content of an element is laid out. -/
def rewritten (plan : Plan) : Node → List Char
  | .leaf leaf => leaf.raw
  | .element elem children =>
      match (plan.get? elem.id).map Decision.layout with
      | some (.element layouts _ content _) =>
          (elem.tag.requoted layouts).text ++ (rewrittenAll plan children ++
            if content = .formatted then rewrittenEnd elem.endTag else elem.endText)
      | _ => elem.tag.text ++ (rewrittenAll plan children ++ elem.endText)

def rewrittenAll (plan : Plan) : List Node → List Char
  | [] => []
  | node :: rest => rewritten plan node ++ rewrittenAll plan rest

end

end Plan

/-! ## What is copied -/

/-- What is copied of an attribute: its name and its value. -/
def Attribute.units (attr : Attribute) : List (List Char) :=
  attr.name :: (attr.value.map AttributeValue.raw).toList

/-- What is copied of a leaf: its words, or the whole of it. -/
def Leaf.units (leaf : Leaf) : List (List Char) :=
  match leaf.kind with
  | .text => (Run.ofText leaf.raw).units
  | _ => [leaf.raw]

namespace Settings

mutual

/-- What is copied of a node. Preserved content is copied as a whole, with the end tag. -/
def units (settings : Settings) : Node → List (List Char)
  | .leaf leaf => leaf.units
  | .element elem children =>
      elem.tag.attributes.flatMap Attribute.units ++
        if settings.contentOf elem.tag = .verbatim then [(elem.preserved children).1]
        else unitsAll settings children

def unitsAll (settings : Settings) : List Node → List (List Char)
  | [] => []
  | node :: rest => units settings node ++ unitsAll settings rest

end

/-- What is copied of the content of an element. -/
def contentUnits (settings : Settings) (elem : Element) (children : List Node) : List (List Char) :=
  if settings.contentOf elem.tag = .verbatim then [(elem.preserved children).1]
  else settings.unitsAll children

theorem units_element (settings : Settings) (elem : Element) (children : List Node) :
    settings.units (.element elem children) =
      elem.tag.attributes.flatMap Attribute.units ++ settings.contentUnits elem children := by
  simp only [units, contentUnits]

end Settings

/-! ## Words -/

theorem Text.Run.occur_rest (parted : List (List Char × Word)) :
    Occur (parted.map fun (_, word) => Word.raw word)
      (parted.flatMap fun (gap, word) => gap ++ Word.raw word) := by
  induction parted with
  | nil => trivial
  | cons head rest ih =>
      have hword := (Occur.singleton (Word.raw head.2)).append_left head.1
      simpa using hword.append ih

/-- The words of a text stand in it. -/
theorem Text.Run.occur_units (run : Run) : Occur run.units run.source := by
  cases run with
  | blank leading => trivial
  | words leading first rest trailing =>
      have hfirst := (Occur.singleton (Word.raw first)).append_left leading
      have hrest := (occur_rest rest).append_right trailing
      simpa [units, wordList, source, Function.comp_def] using hfirst.append hrest

theorem Text.Run.strip_source {run : Run} (hproper : run.Proper) :
    strip run.source = strip run.units.flatten := by
  cases run with
  | blank leading => simp [source, units, wordList, strip_of_allBlank hproper]
  | words leading first rest trailing =>
      obtain ⟨hleading, -, hrest, htrailing⟩ := hproper
      have hparted : strip (rest.flatMap fun (gap, word) => gap ++ Word.raw word) =
          strip (rest.flatMap fun (_, word) => Word.raw word) := by
        clear hleading htrailing
        induction rest with
        | nil => rfl
        | cons head others ih =>
            have hgap := strip_of_allBlank (hrest head List.mem_cons_self).2.1
            have hothers := ih fun parted hmem => hrest parted (List.mem_cons_of_mem _ hmem)
            simp [hgap, hothers]
      simp only [source, units, wordList, strip_append, strip_of_allBlank hleading,
        strip_of_allBlank htrailing, hparted]
      simp [List.flatMap_def, Function.comp_def]

/-! ## Writing without loss -/

/-- The pieces are a source without loss: both are the same when blanks are left out, and what is
copied of the source stands in them. -/
structure Writes (source : List Char) (units : List (List Char)) (pieces : List OutputPiece) :
    Prop where
  strip : strip (joinPieces pieces) = strip source
  occur : Occur units (joinPieces pieces)

namespace Writes

variable {source other : List Char} {units more : List (List Char)}
  {pieces further : List OutputPiece}

theorem nil : Writes [] [] [] :=
  ⟨rfl, trivial⟩

theorem append (hfirst : Writes source units pieces) (hsecond : Writes other more further) :
    Writes (source ++ other) (units ++ more) (pieces ++ further) := by
  constructor
  · rw [joinPieces_append, strip_append, strip_append, hfirst.strip, hsecond.strip]
  · rw [joinPieces_append]
    exact hfirst.occur.append hsecond.occur

theorem copy (htext : joinPieces pieces = source) (hoccur : Occur units source) :
    Writes source units pieces := by
  subst htext
  exact ⟨rfl, hoccur⟩

theorem emit (role : Role) (text : List Char) : Writes text [] (emit role text) :=
  copy (joinPieces_emit _ _) trivial

theorem gap {gap : Gap} (hblank : gap.Blank) : Writes [] [] gap.pieces := by
  refine ⟨?_, trivial⟩
  rw [Gap.joinPieces_pieces, strip_of_allBlank hblank]
  rfl

theorem of_strip (hwrites : Writes source units pieces)
    (hstrip : Text.strip source = Text.strip other) :
    Writes other units pieces :=
  ⟨hwrites.strip.trans hstrip, hwrites.occur⟩

end Writes

/-! ## Leaves -/

/-- Words with blank gaps between them are written, each as a whole. -/
theorem wordPieces?_spec {first : Word} {rest : List Word} {gaps : List Gap}
    (hlength : gaps.length = rest.length) (hblank : ∀ gap ∈ gaps, gap.Blank) :
    ∃ pieces, wordPieces? (first :: rest) gaps = some pieces ∧
      Writes ((first :: rest).map Word.raw).flatten ((first :: rest).map Word.raw) pieces := by
  have hword : ∀ word : Word, Writes (Word.raw word) [Word.raw word] (fragmentPieces word) :=
    fun word => .copy (joinPieces_fragmentPieces word) (Occur.singleton _)
  induction rest generalizing first gaps with
  | nil =>
      obtain rfl := List.length_eq_zero_iff.mp hlength
      exact ⟨fragmentPieces first, rfl, by simpa using hword first⟩
  | cons next words ih =>
      cases gaps with
      | nil => simp at hlength
      | cons gap gaps =>
          have hlength : gaps.length = words.length := by simpa using hlength
          obtain ⟨pieces, hpieces, hwrites⟩ := @ih next gaps hlength
            fun other hmem => hblank other (List.mem_cons_of_mem _ hmem)
          refine ⟨fragmentPieces first ++ (gap.pieces ++ pieces),
            by simp [wordPieces?, hpieces], ?_⟩
          exact (hword first).append ((Writes.gap (hblank gap List.mem_cons_self)).append hwrites)

namespace Leaf

theorem occur_units_raw (leaf : Leaf) : Occur leaf.units leaf.raw := by
  unfold units
  split
  next =>
    have hoccur := (Run.ofText leaf.raw).occur_units
    rwa [Run.source_ofText] at hoccur
  next => exact Occur.singleton _

theorem writes_pieces (leaf : Leaf) : Writes leaf.raw leaf.units leaf.pieces :=
  .copy leaf.joinPieces_pieces leaf.occur_units_raw

/-- A leaf is written with the layout that suits it. -/
theorem renderWith_spec {leaf : Leaf} {layout : Layout} (hsuits : layout.SuitsLeaf leaf) :
    ∃ pieces, leaf.renderWith layout = .ok pieces ∧ Writes leaf.raw leaf.units pieces := by
  cases hsuits with
  | @text gaps hkind hlength hblank =>
      have hsource := Run.strip_source (Run.proper_ofText leaf.raw)
      rw [Run.source_ofText] at hsource
      obtain ⟨pieces, hpieces, hwrites⟩ : ∃ pieces,
          wordPieces? (Run.ofText leaf.raw).wordList gaps = some pieces ∧
            Writes (Run.ofText leaf.raw).units.flatten (Run.ofText leaf.raw).units pieces := by
        cases hrun : Run.ofText leaf.raw with
        | blank leading =>
            rw [hrun] at hlength
            obtain rfl := List.length_eq_zero_iff.mp hlength
            exact ⟨[], rfl, rfl, trivial⟩
        | words leading first rest trailing =>
            rw [hrun] at hlength
            have hlength : gaps.length = (rest.map (·.2)).length := by
              simpa [Run.gaps] using hlength
            exact wordPieces?_spec hlength hblank
      refine ⟨pieces, by simp [renderWith, hkind, hpieces], ?_⟩
      have hleaf := hwrites.of_strip hsource.symm
      simpa [units, hkind] using hleaf
  | atom hkind =>
      refine ⟨leaf.pieces, ?_, leaf.writes_pieces⟩
      unfold renderWith
      cases hleaf : leaf.kind <;> simp_all

end Leaf

/-! ## Tags -/

theorem strip_of_isSign {before : List Char} (hsign : IsSign before) : strip before = ['='] := by
  obtain ⟨first, second, hfirst, hsecond, rfl⟩ := hsign
  rw [← List.singleton_append, strip_append, strip_append, strip_of_allBlank hfirst,
    strip_of_allBlank hsecond]
  rfl

namespace Attribute

theorem writes_pieces {attr : Attribute} (hfits : attr.Fits) (quote : Option Quote) :
    Writes (attr.requoted quote).text attr.units (attr.pieces quote) := by
  have hname : Writes attr.name [attr.name] (emit .attributeName attr.name) :=
    .copy (joinPieces_emit _ _) (Occur.singleton _)
  have hgap : strip attr.gap = [] := strip_of_allBlank hfits.gap
  cases hvalue : attr.value with
  | none =>
      have hwrites := hname.append Writes.nil
      refine (by simpa [pieces, units, hvalue] using hwrites :
        Writes attr.name attr.units (attr.pieces quote)).of_strip ?_
      simp [text, body, requoted, valueText, hvalue, hgap]
  | some value =>
      have hraw : Writes value.raw [value.raw] (emit .attributeValue value.raw) :=
        .copy (joinPieces_emit _ _) (Occur.singleton _)
      have hwrites := hname.append ((Writes.emit .bracket ['=']).append
        ((Writes.emit .quote (quoteText quote)).append
          (hraw.append (Writes.emit .quote (quoteText quote)))))
      refine (by simpa [pieces, units, hvalue] using hwrites : Writes (attr.name ++ '=' ::
        (quoteText quote ++ (value.raw ++ quoteText quote))) attr.units
          (attr.pieces quote)).of_strip ?_
      have hsign := strip_of_isSign (hfits.value value hvalue).sign
      have hequals : ∀ rest, strip ('=' :: rest) = '=' :: strip rest := fun _ => rfl
      simp [text, body, requoted, valueText, AttributeValue.text, hvalue, hgap, hsign, hequals]

theorem occur_text (attr : Attribute) : Occur attr.units attr.text := by
  unfold units text body
  refine ((Occur.singleton attr.name).append ?_).append_left _
  cases attr.value with
  | none => trivial
  | some value => exact ((Occur.singleton value.raw).append_left _).append_right _

theorem occur_texts (attributes : List Attribute) :
    Occur (attributes.flatMap units) (attributes.flatMap text) := by
  induction attributes with
  | nil => trivial
  | cons attr rest ih => exact attr.occur_text.append ih

/-- Attributes are written behind blank gaps, with the quotes of their layouts. -/
theorem writes_layouts {attributes : List Attribute} {layouts : List AttributeLayout}
    (hfits : ∀ attr ∈ attributes, attr.Fits) (hlength : layouts.length = attributes.length)
    (hblank : ∀ layout ∈ layouts, layout.gap.Blank) :
    Writes ((requoteAll attributes layouts).flatMap text) (attributes.flatMap units)
      ((attributes.zip layouts).flatMap fun (attr, layout) =>
        layout.gap.pieces ++ attr.pieces layout.quote) := by
  induction attributes generalizing layouts with
  | nil =>
      obtain rfl := List.length_eq_zero_iff.mp hlength
      exact ⟨rfl, trivial⟩
  | cons attr rest ih =>
      cases layouts with
      | nil => simp at hlength
      | cons layout layouts =>
          have hrest := @ih layouts
            (fun other hmem => hfits other (List.mem_cons_of_mem _ hmem)) (by simpa using hlength)
            fun other hmem => hblank other (List.mem_cons_of_mem _ hmem)
          have hattr := writes_pieces (hfits attr List.mem_cons_self) layout.quote
          exact ((Writes.gap (hblank layout List.mem_cons_self)).append hattr).append hrest

end Attribute

/-- A start tag is written with the quotes of its layout. -/
theorem StartTag.writes_pieces {tag : StartTag} {layouts : List AttributeLayout} {tagEnd : Gap}
    (hfits : tag.Fits) (hlength : layouts.length = tag.attributes.length)
    (hblank : ∀ layout ∈ layouts, layout.gap.Blank) (htagEnd : tagEnd.Blank) :
    Writes (tag.requoted layouts).text (tag.attributes.flatMap Attribute.units)
      (tag.pieces layouts tagEnd) := by
  have hattributes := Attribute.writes_layouts hfits.attributes.fits hlength hblank
  have hwrites := (Writes.emit .bracket ['<']).append ((Writes.emit .tag tag.name).append
    (hattributes.append ((Writes.gap htagEnd).append (Writes.emit .bracket tag.ending.text))))
  refine (by simpa [pieces] using hwrites : Writes _ _ (tag.pieces layouts tagEnd)).of_strip ?_
  have hopen : ∀ rest, strip ('<' :: rest) = '<' :: strip rest := fun _ => rfl
  simp [text, body, requoted, hopen, strip_of_allBlank hfits.trailing]

theorem StartTag.occur_text (tag : StartTag) :
    Occur (tag.attributes.flatMap Attribute.units) tag.text :=
  (((Attribute.occur_texts tag.attributes).append_right _).append_left tag.name).append_left ['<']

/-- The end of an element is written behind a blank gap, with the name alone. -/
theorem writes_endPieces (endTag : Option EndTag) {gap : Gap} (hgap : gap.Blank) :
    Writes (rewrittenEnd endTag) [] (endPieces endTag gap) := by
  cases endTag with
  | none => exact ⟨rfl, trivial⟩
  | some tag =>
      exact (Writes.gap hgap).append ((Writes.emit .bracket ['<', '/']).append
        ((Writes.emit .tag tag.name).append (Writes.emit .bracket ['>'])))

/-! ## Nodes -/

theorem Element.preserved_append (elem : Element) (children : List Node) :
    (elem.preserved children).1 ++ (elem.preserved children).2 =
      Node.textOfAll children ++ elem.endText := by
  unfold Element.preserved Element.endText
  cases elem.endTag with
  | none => simp [splitTail_append]
  | some tag => simp

theorem Element.strip_preserved (elem : Element) (children : List Node) :
    strip (elem.preserved children).1 = strip (Node.textOfAll children ++ elem.endText) := by
  have hwhole := congrArg strip (elem.preserved_append children)
  rwa [strip_append, strip_of_allBlank (Settings.blank_preserved elem children),
    List.append_nil] at hwhole

namespace Plan

mutual

theorem rewritten_of_undecided (plan : Plan) (node : Node)
    (hnone : ∀ id ∈ node.ids, plan.get? id = none) : plan.rewritten node = node.text := by
  cases node with
  | leaf leaf => simp [rewritten]
  | element elem children =>
      have hown : plan.get? elem.id = none := hnone elem.id (by simp)
      have hchildren := rewrittenAll_of_undecided plan children
        fun id hmem => hnone id (by simp [hmem])
      simp [rewritten, hown, hchildren]

/-- Nodes that nothing is decided about are not rewritten. -/
theorem rewrittenAll_of_undecided (plan : Plan) (nodes : List Node)
    (hnone : ∀ id ∈ Node.idsOfAll nodes, plan.get? id = none) :
    plan.rewrittenAll nodes = Node.textOfAll nodes := by
  cases nodes with
  | nil => rfl
  | cons node rest =>
      have hfirst := rewritten_of_undecided plan node fun id hmem => hnone id (by simp [hmem])
      have hrest := rewrittenAll_of_undecided plan rest fun id hmem => hnone id (by simp [hmem])
      simp [rewrittenAll, hfirst, hrest]

end

/-- Nodes that nothing is decided about are copied. -/
theorem renderAll_of_undecided (plan : Plan) (nodes : List Node)
    (hnone : ∀ id ∈ Node.idsOfAll nodes, plan.get? id = none) :
    ∃ pieces, plan.renderAll nodes = .ok pieces ∧ joinPieces pieces = Node.textOfAll nodes := by
  refine renderAll_of_leavesAlone plan nodes fun inner hmem => hnone inner.id ?_
  have hid : inner.id ∈ (Node.preorderAll nodes).map Node.id := List.mem_map_of_mem hmem
  rwa [Node.map_id_preorderAll] at hid

section Element

variable {plan : Plan} {settings : Settings} {elem : Element} {children : List Node}
  {inside : List OutputPiece}

/-- Behind a start tag that is copied, the children and the end tag are written without loss.
Preserved content is a unit of its own, so its text is needed as it is. -/
theorem writes_behind_copied
    (hsealed : settings.contentOf elem.tag = .verbatim →
      ∀ id ∈ Node.idsOfAll children, plan.get? id = none)
    (hinside : plan.renderAll children = .ok inside)
    (hwrites : Writes (plan.rewrittenAll children) (settings.unitsAll children) inside) :
    Writes (plan.rewrittenAll children ++ elem.endText) (settings.contentUnits elem children)
      (inside ++ emit .tag elem.endText) := by
  unfold Settings.contentUnits
  split
  next hverbatim =>
    obtain ⟨copied, hcopied, htext⟩ := renderAll_of_undecided plan children (hsealed hverbatim)
    obtain rfl := Except.ok.inj (hinside.symm.trans hcopied)
    rw [rewrittenAll_of_undecided plan children (hsealed hverbatim)]
    refine .copy (by rw [joinPieces_append, joinPieces_emit, htext]) ?_
    rw [← elem.preserved_append]
    exact (Occur.singleton _).append_right _
  next =>
    have hclosed := hwrites.append (Writes.emit .tag elem.endText)
    rwa [List.append_nil] at hclosed

/-- Behind a start tag that is laid out, what is written is left out, copied or laid out without
loss. -/
theorem exists_writes_behind {before after : Gap} {indent : Nat} {attributes : List AttributeLayout}
    {tagEnd endGap : Gap}
    (halone : elem.tag.standsAlone = true → children = [] ∧ elem.endTag = none)
    (hsealed : settings.contentOf elem.tag = .verbatim →
      ∀ id ∈ Node.idsOfAll children, plan.get? id = none)
    (hinside : plan.renderAll children = .ok inside)
    (hwrites : Writes (plan.rewrittenAll children) (settings.unitsAll children) inside)
    (hdecision : plan.get? elem.id = some ⟨before, after, indent,
      .element attributes tagEnd (settings.contentOf elem.tag) endGap⟩)
    (hlength : attributes.length = elem.tag.attributes.length) (hendGap : endGap.Blank) :
    ∃ content, Writes (plan.rewrittenAll children ++
        if settings.contentOf elem.tag = .formatted then rewrittenEnd elem.endTag
        else elem.endText) (settings.contentUnits elem children) content ∧
      plan.render (.element elem children) = .ok (before.pieces ++
        (elem.tag.pieces attributes tagEnd ++ (content ++ after.pieces))) := by
  simp only [render, hdecision, hlength, ne_eq, not_true_eq_false, if_false]
  unfold Settings.contentUnits
  cases hkind : settings.contentOf elem.tag with
  | empty =>
      obtain ⟨rfl, hendTag⟩ := halone (Settings.contentOf_eq_empty_iff.mp hkind)
      refine ⟨[], ?_, rfl⟩
      simpa [rewrittenAll, Settings.unitsAll, Element.endText, hendTag] using Writes.nil
  | verbatim =>
      have hcopied : Writes (elem.preserved children).1 [(elem.preserved children).1]
          (emit .verbatim (elem.preserved children).1) :=
        .copy (joinPieces_emit _ _) (Occur.singleton _)
      refine ⟨_, ?_, rfl⟩
      rw [rewrittenAll_of_undecided plan children (hsealed hkind)]
      exact hcopied.of_strip (elem.strip_preserved children)
  | formatted =>
      have hclosed := hwrites.append (writes_endPieces elem.endTag hendGap)
      rw [List.append_nil] at hclosed
      refine ⟨inside ++ endPieces elem.endTag endGap, hclosed, ?_⟩
      rw [hinside]
      rfl

end Element

mutual

theorem render_writes {plan : Plan} {settings : Settings} (node : Node) (hsound : node.Sound)
    (hsuits : plan.Suits settings node) :
    ∃ pieces, plan.render node = .ok pieces ∧
      Writes (plan.rewritten node) (settings.units node) pieces := by
  cases node with
  | leaf leaf =>
      cases hdecision : plan.get? leaf.id with
      | none =>
          refine ⟨leaf.pieces, by simp [render, hdecision], ?_⟩
          simpa [rewritten, Settings.units] using leaf.writes_pieces
      | some decision =>
          obtain ⟨hbefore, hafter, hlayout⟩ := hsuits decision hdecision
          obtain ⟨inside, hinside, hwrites⟩ := Leaf.renderWith_spec hlayout
          refine ⟨decision.before.pieces ++ (inside ++ decision.after.pieces), ?_, ?_⟩
          · simp only [render, hdecision, hinside]
            rfl
          · have hparted := (Writes.gap hbefore).append (hwrites.append (Writes.gap hafter))
            simpa [rewritten, Settings.units] using hparted
  | element elem children =>
      obtain ⟨hfits, halone, hchildren⟩ := hsound
      obtain ⟨hown, hsealed, hinner⟩ := hsuits
      obtain ⟨inside, hinside, hwrites⟩ := renderAll_writes children hchildren hinner
      cases hdecision : plan.get? elem.id with
      | none =>
          refine ⟨emit .tag elem.tag.text ++ (inside ++ emit .tag elem.endText), ?_, ?_⟩
          · simp only [render, hdecision, hinside]
            rfl
          · have htag : Writes elem.tag.text (elem.tag.attributes.flatMap Attribute.units)
                (emit .tag elem.tag.text) := .copy (joinPieces_emit _ _) elem.tag.occur_text
            have hcontent := writes_behind_copied hsealed hinside hwrites
            simpa [rewritten, hdecision, Settings.units_element] using htag.append hcontent
      | some decision =>
          obtain ⟨hbefore, hafter, hlayout⟩ := hown decision hdecision
          obtain ⟨before, after, indent, layout⟩ := decision
          cases hlayout with
          | @element attributes tagEnd endGap hlength hgaps htagEnd hendGap =>
              have htag := StartTag.writes_pieces hfits hlength hgaps htagEnd
              obtain ⟨content, hcontent, hrender⟩ :=
                exists_writes_behind halone hsealed hinside hwrites hdecision hlength hendGap
              have hparted := (Writes.gap hbefore).append (htag.append
                (hcontent.append (Writes.gap hafter)))
              refine ⟨_, hrender, ?_⟩
              simpa [rewritten, hdecision, Settings.units_element] using hparted

/-- Nodes that a plan suits are written without loss. -/
theorem renderAll_writes {plan : Plan} {settings : Settings} (nodes : List Node)
    (hsound : Node.SoundAll nodes) (hsuits : plan.SuitsAll settings nodes) :
    ∃ pieces, plan.renderAll nodes = .ok pieces ∧
      Writes (plan.rewrittenAll nodes) (settings.unitsAll nodes) pieces := by
  cases nodes with
  | nil =>
      refine ⟨[], by simp [renderAll], ?_⟩
      simpa [rewrittenAll, Settings.unitsAll] using Writes.nil
  | cons node rest =>
      obtain ⟨first, hfirst, hwrites⟩ := render_writes node hsound.1 hsuits.1
      obtain ⟨others, hothers, hrest⟩ := renderAll_writes rest hsound.2 hsuits.2
      refine ⟨first ++ others, ?_, ?_⟩
      · simp only [renderAll, hfirst, hothers]
        rfl
      · simpa [rewrittenAll, Settings.unitsAll] using hwrites.append hrest

end

end Plan

/-! ## Documents -/

theorem format_eq_ok {palette : Palette} {settings : Settings} {text : String}
    {document : Document} {range : Option Span} {plan : Plan} {pieces : List OutputPiece}
    (hcheck : settings.check = .ok ()) (hparse : parse text.toList = .ok document)
    (hplan : settings.plan document range = .ok plan)
    (hrender : plan.renderDocument document = .ok pieces) :
    format palette settings text range = .ok (String.ofList (palette.render pieces)) := by
  simp only [format, formatPieces, hcheck, hparse, hplan, hrender, mapError_ok, bind,
    Except.bind]
  rfl

/-- For settings that are accepted, a text that can be read and any range of it, formatting gives a
result. Without blanks it is the source as the plan rewrites it, and every word, value and leaf, and
all preserved content, stands in it as it is in the source, in order. -/
theorem format_writes_content {settings : Settings} {text : String} {document : Document}
    (hcheck : settings.check = .ok ()) (hparse : parse text.toList = .ok document)
    (range : Option Span) :
    ∃ plan output, settings.plan document range = .ok plan ∧
      format .plain settings text range = .ok output ∧
        strip output.toList = strip (plan.rewrittenAll document.children) ∧
          Occur (settings.unitsAll document.children) output.toList := by
  obtain ⟨plan, hplan, hsuits, hending⟩ := Settings.exists_plan hcheck hparse range
  obtain ⟨pieces, hpieces, hwrites⟩ :=
    plan.renderAll_writes document.children (Document.sound_of_parse hparse) hsuits
  have hrender : plan.renderDocument document = .ok (pieces ++ plan.ending.pieces) := by
    simp only [Plan.renderDocument, hpieces]
    rfl
  have houtput := hwrites.append (Writes.gap hending)
  rw [List.append_nil, List.append_nil] at houtput
  refine ⟨plan, _, hplan, format_eq_ok hcheck hparse hplan hrender, ?_, ?_⟩
  · rw [String.toList_ofList, Palette.render_plain]
    exact houtput.strip
  · rw [String.toList_ofList, Palette.render_plain]
    exact houtput.occur

/-- A paragraph whose value gets quotes and whose end tag loses a blank, around a comment and the
preserved content of an element, which are copied as they are. -/
theorem format_writes_content_preserved :
    let settings : Settings := { enforceQuotes := true }
    let text := "<p a=b>x  y<!--  c --><span> z</span ></p >"
    let output := "<p a=\"b\">x y<!--  c --><span> z</span ></p>"
    let units := ["a", "b", "x", "y", "<!--  c -->", " z</span >"].map String.toList
    settings.check = .ok () ∧ ∃ document plan, parse text.toList = .ok document ∧
      settings.unitsAll document.children = units ∧ settings.plan document none = .ok plan ∧
        format .plain settings text none = .ok output ∧
          strip output.toList = strip (plan.rewrittenAll document.children) ∧
            Occur units output.toList := by
  intro settings text output units
  have hcheck : settings.check = .ok () := by with_unfolding_all rfl
  have hread : ((parse text.toList).toOption.map fun document =>
      settings.unitsAll document.children) = some units := by decide +kernel
  have hformat : format .plain settings text none = .ok output := by
    rw [← toOption_eq_some_iff]
    decide +kernel
  obtain ⟨document, hdocument, hunits⟩ := Option.map_eq_some_iff.mp hread
  have hparse := toOption_eq_some_iff.mp hdocument
  obtain ⟨plan, found, hplan, hfound, hstrip, hoccur⟩ := format_writes_content hcheck hparse none
  obtain rfl : output = found := Except.ok.inj (hformat.symm.trans hfound)
  exact ⟨hcheck, document, plan, hparse, hunits, hplan, hformat, hstrip, hunits ▸ hoccur⟩

end Markup
