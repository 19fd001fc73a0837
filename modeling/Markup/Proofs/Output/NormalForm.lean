import Mathlib.Data.List.Chain
import Markup.Proofs.Output.Proceeding
import Markup.Proofs.Reading.Uniqueness
import Markup.Proofs.Tag.Spacing
import Markup.Proofs.Text.Fragments

/-!
# Blanks in normal form

Gaps are chosen one by one, in front of items, words, attributes and the ends of tags, and behind
the document. Where blanks are not kept, no two of them meet for all that and none of them is left
over at the end of a line: every gap is followed by something that is not a gap and does not begin
with a blank, and is behind something of that kind. Main statement: `format_normalForm`.
-/

namespace Markup

open Markup.Text

/-! ## Pieces next to each other -/

/-- Roles of the blanks that layout puts in. -/
def Role.isLayout : Role → Bool
  | .newline | .indent | .neutral => true
  | _ => false

/-- Roles of what is copied whatever it is, blanks included. -/
def Role.isCopied : Role → Bool
  | .attributeValue | .comment | .doctype | .verbatim => true
  | _ => false

theorem Role.isLayout_of_isCopied {role : Role} (hcopied : role.isCopied = true) :
    role.isLayout = false := by
  cases role <;> first | rfl | cases hcopied

namespace OutputPiece

/-- Layout is line feeds, so many at most, or spaces, just one where no line is broken. All the rest
has no blanks in it, unless it is copied. -/
def Neat (settings : Settings) (piece : OutputPiece) : Prop :=
  match piece.role with
  | .newline => ∃ count, 1 ≤ count ∧ count ≤ settings.keepBlankLines + 1 ∧
      piece.text = List.replicate count '\n'
  | .indent => ∃ count, 1 ≤ count ∧ piece.text = List.replicate count ' '
  | .neutral => piece.text = [' ']
  | .attributeValue | .comment | .doctype | .verbatim => piece.text ≠ []
  | .tag | .bracket | .attributeName | .quote | .text | .entity => Solid piece.text

/-- A piece that is not layout and does not begin with a blank. -/
def BeginsSolid (piece : OutputPiece) : Prop :=
  piece.role.isLayout = false ∧ StopsAt isBlank piece.text

/-- A piece that is not layout and does not end with a blank. -/
def EndsSolid (piece : OutputPiece) : Prop :=
  piece.role.isLayout = false ∧ Trimmed piece.text

/-- What a piece may be followed by. -/
inductive Joins (first second : OutputPiece) : Prop
  | indented : first.role = .newline → second.role = .indent → Joins first second
  | opened : first.role.isLayout = true → second.BeginsSolid → Joins first second
  | parted : first.EndsSolid → second.role = .newline ∨ second.role = .neutral → Joins first second
  | glued : first.role.isLayout = false → second.role.isLayout = false → Joins first second

variable {settings : Settings} {piece first second : OutputPiece}

theorem Neat.text_ne_nil (hneat : piece.Neat settings) : piece.text ≠ [] := by
  obtain ⟨role, text⟩ := piece
  cases role with
  | newline =>
      obtain ⟨count, hcount, -, htext⟩ := hneat
      rw [htext, ne_eq, List.replicate_eq_nil_iff]
      omega
  | indent =>
      obtain ⟨count, hcount, htext⟩ := hneat
      rw [htext, ne_eq, List.replicate_eq_nil_iff]
      omega
  | neutral =>
      rw [show text = [' '] from hneat]
      simp
  | attributeValue | comment | doctype | verbatim => exact hneat
  | tag | bracket | attributeName | quote | text | entity => exact hneat.1

theorem neat_of_solid (hplain : piece.role.isLayout = false) (hsolid : Solid piece.text) :
    piece.Neat settings := by
  obtain ⟨role, text⟩ := piece
  cases role with
  | newline | indent | neutral => cases hplain
  | attributeValue | comment | doctype | verbatim => exact hsolid.1
  | tag | bracket | attributeName | quote | text | entity => exact hsolid

theorem neat_of_copied (hcopied : piece.role.isCopied = true) (hne : piece.text ≠ []) :
    piece.Neat settings := by
  obtain ⟨role, text⟩ := piece
  cases role with
  | attributeValue | comment | doctype | verbatim => exact hne
  | _ => cases hcopied

/-- What is not copied is layout or has no blanks in it. -/
theorem Neat.solid (hneat : piece.Neat settings) (hcopied : piece.role.isCopied = false)
    (hplain : piece.role.isLayout = false) : Solid piece.text := by
  obtain ⟨role, text⟩ := piece
  cases role with
  | newline | indent | neutral => cases hplain
  | attributeValue | comment | doctype | verbatim => cases hcopied
  | tag | bracket | attributeName | quote | text | entity => exact hneat

/-- Behind a piece that does not end with a blank, anything may follow that is no indent. -/
theorem EndsSolid.joins (hcloses : first.EndsSolid) (hindent : second.role ≠ .indent) :
    first.Joins second := by
  cases hrole : second.role with
  | newline => exact .parted hcloses (.inl hrole)
  | neutral => exact .parted hcloses (.inr hrole)
  | indent => exact absurd hrole hindent
  | _ => exact .glued hcloses.1 (by rw [hrole]; rfl)

/-- Of two pieces of layout, the first one is line feeds and the second one an indent. -/
theorem Joins.of_layout (hjoins : first.Joins second) (hfirst : first.role.isLayout = true)
    (hsecond : second.role.isLayout = true) : first.role = .newline ∧ second.role = .indent := by
  cases hjoins with
  | indented hnewline hindent => exact ⟨hnewline, hindent⟩
  | opened _ hopens => exact absurd (hopens.1.symm.trans hsecond) (by simp)
  | parted hcloses => exact absurd (hcloses.1.symm.trans hfirst) (by simp)
  | glued hplain => exact absurd (hplain.symm.trans hfirst) (by simp)

/-- Pieces whose first one is not layout and does not begin with a blank. -/
def Begin (pieces : List OutputPiece) : Prop :=
  ∃ first rest, pieces = first :: rest ∧ first.BeginsSolid

theorem Begin.append {pieces : List OutputPiece} (hbegin : Begin pieces)
    (others : List OutputPiece) :
    Begin (pieces ++ others) := by
  obtain ⟨first, rest, rfl, hopens⟩ := hbegin
  exact ⟨first, rest ++ others, rfl, hopens⟩

end OutputPiece

/-! ## Items with the gaps between them -/

theorem mem_emit {role : Role} {text : List Char} {piece : OutputPiece} :
    piece ∈ emit role text ↔ text ≠ [] ∧ piece = ⟨role, text⟩ := by
  unfold emit
  split
  next hempty => simp [List.isEmpty_iff.mp hempty]
  next hsome => simp [List.isEmpty_iff.not.mp hsome]

theorem Text.Trimmed.of_append {before text : List Char} (htrimmed : Trimmed (before ++ text))
    (hne : text ≠ []) : Trimmed text := by
  obtain ⟨c, hlast, hsolid⟩ := htrimmed.exists_getLast? (by simp [hne])
  rw [List.getLast?_append_of_ne_nil _ hne] at hlast
  exact trimmed_of_getLast? hlast hsolid

/-- A class of characters that blanks do not belong to. -/
theorem Text.isBlank_eq_false_of_class {p : Char → Bool} (hp : ∀ c, isBlank c = true → p c = false)
    {c : Char} (hclass : p c = true) : isBlank c = false := by
  by_contra hblank
  rw [hp c (by simpa using hblank)] at hclass
  cases hclass

open OutputPiece (Begin Joins)

/-- Pieces that are fit to stand between gaps: they are as they should be, one behind the other, and
neither begin nor end in the middle of a gap. -/
structure Settings.Flows (settings : Settings) (pieces : List OutputPiece) : Prop where
  neat : ∀ piece ∈ pieces, piece.Neat settings
  joined : pieces.IsChain Joins
  begins : ∀ first ∈ pieces.head?, first.role ≠ .indent
  ends : ∀ last ∈ pieces.getLast?, last.EndsSolid

namespace Settings.Flows

variable {settings : Settings} {pieces others : List OutputPiece}

theorem nil : settings.Flows [] :=
  ⟨by simp, .nil, by simp, by simp⟩

theorem append (hfirst : settings.Flows pieces) (hsecond : settings.Flows others) :
    settings.Flows (pieces ++ others) := by
  refine ⟨?_, ?_, ?_, ?_⟩
  · intro piece hmem
    exact (List.mem_append.mp hmem).elim (hfirst.neat piece) (hsecond.neat piece)
  · exact List.isChain_append.mpr ⟨hfirst.joined, hsecond.joined, fun last hlast first hhead =>
      (hfirst.ends last hlast).joins (hsecond.begins first hhead)⟩
  · intro first hhead
    cases pieces with
    | nil => exact hsecond.begins first hhead
    | cons piece rest => exact hfirst.begins first hhead
  · intro last hlast
    by_cases hnil : others = []
    · rw [hnil, List.append_nil] at hlast
      exact hfirst.ends last hlast
    · rw [List.getLast?_append_of_ne_nil _ hnil] at hlast
      exact hsecond.ends last hlast

/-- Their text neither begins nor ends with a blank. -/
theorem text (hflows : settings.Flows pieces) (hbegin : Begin pieces) :
    joinPieces pieces ≠ [] ∧ StopsAt isBlank (joinPieces pieces) ∧ Trimmed (joinPieces pieces) := by
  obtain ⟨first, rest, rfl, -, hstops⟩ := hbegin
  obtain ⟨c, text, htext⟩ := List.exists_cons_of_ne_nil (hflows.neat first (by simp)).text_ne_nil
  have hwhole : joinPieces (first :: rest) = c :: (text ++ joinPieces rest) := by
    simp [joinPieces, htext]
  rw [htext, stopsAt_cons] at hstops
  refine ⟨by simp [hwhole], by rw [hwhole, stopsAt_cons]; exact hstops, ?_⟩
  obtain ⟨front, last, hlast⟩ :=
    (List.eq_nil_or_concat' (first :: rest)).resolve_left (List.cons_ne_nil first rest)
  rw [hlast] at hflows ⊢
  rw [joinPieces_append, show joinPieces [last] = last.text by simp [joinPieces]]
  exact (hflows.ends last (by simp)).2.append_left (hflows.neat last (by simp)).text_ne_nil _

/-- Pieces without layout between them. -/
theorem of_plain (hneat : ∀ piece ∈ pieces, piece.Neat settings)
    (hplain : ∀ piece ∈ pieces, piece.role.isLayout = false)
    (htrimmed : Trimmed (joinPieces pieces)) :
    settings.Flows pieces := by
  refine ⟨hneat, ?_, ?_, ?_⟩
  · refine List.Pairwise.isChain (List.pairwise_of_forall_mem_list ?_)
    exact fun first hfirst second hsecond => .glued (hplain first hfirst) (hplain second hsecond)
  · intro first hhead hindent
    have hrole := hplain first (List.mem_of_mem_head? hhead)
    rw [hindent] at hrole
    cases hrole
  · intro last hlast
    obtain ⟨front, rfl⟩ := List.getLast?_eq_some_iff.mp hlast
    refine ⟨hplain last (by simp), ?_⟩
    rw [joinPieces_append] at htrimmed
    have hself : joinPieces [last] = last.text := by simp [joinPieces]
    exact (hself ▸ htrimmed).of_append (hneat last (by simp)).text_ne_nil

/-- A gap in front of what begins rightly for it. -/
theorem gap {indent : Nat} {gap : Gap} (hregular : settings.Regular indent gap)
    (hflows : settings.Flows pieces) (hbegin : Begin pieces) :
    settings.Flows (gap.pieces ++ pieces) := by
  obtain ⟨next, rest, rfl, hopens⟩ := hbegin
  have hlayout : ∀ {front : List OutputPiece}, (∀ piece ∈ front, piece.Neat settings) →
      List.IsChain Joins (front ++ next :: rest) →
      (∀ first ∈ (front ++ next :: rest).head?, first.role ≠ .indent) →
      settings.Flows (front ++ next :: rest) := by
    intro front hneat hjoined hbegins
    refine ⟨?_, hjoined, hbegins, ?_⟩
    · intro piece hmem
      exact (List.mem_append.mp hmem).elim (hneat piece) (hflows.neat piece)
    · intro last hlast
      rw [List.getLast?_append_of_ne_nil _ (by simp)] at hlast
      exact hflows.ends last hlast
  cases gap with
  | nothing => exact hflows
  | kept text => exact hregular.elim
  | space =>
      exact @hlayout [⟨.neutral, [' ']⟩] (by simp [OutputPiece.Neat])
        (.cons_cons (.opened rfl hopens) hflows.joined) (by simp)
  | lineBreak newlines column =>
      obtain ⟨hone, hmost, -⟩ := hregular
      let feeds : OutputPiece := ⟨.newline, List.replicate newlines '\n'⟩
      have hfeeds : feeds.Neat settings := ⟨newlines, hone, hmost, rfl⟩
      have hpieces : (Gap.lineBreak newlines column).pieces =
          feeds :: emit .indent (List.replicate column ' ') := by
        rw [Gap.pieces, emit, if_neg (by simp; omega)]
        rfl
      rw [hpieces]
      by_cases hcolumn : column = 0
      · subst hcolumn
        exact @hlayout [feeds] (by simpa using hfeeds)
          (.cons_cons (.opened rfl hopens) hflows.joined) (by simp [feeds])
      · rw [emit, if_neg (by simpa using hcolumn)]
        have hspaces : OutputPiece.Neat settings ⟨.indent, List.replicate column ' '⟩ :=
          ⟨column, Nat.pos_of_ne_zero hcolumn, rfl⟩
        exact @hlayout [feeds, _] (by simpa using ⟨hfeeds, hspaces⟩)
          (.cons_cons (.indented rfl rfl) (.cons_cons (.opened rfl hopens) hflows.joined))
          (by simp [feeds])

theorem flatMap {α : Type} {items : List α} {write : α → List OutputPiece}
    (hitems : ∀ item ∈ items, settings.Flows (write item)) :
    settings.Flows (items.flatMap write) := by
  induction items with
  | nil => exact nil
  | cons item rest ih =>
      rw [List.flatMap_cons]
      exact (hitems item (by simp)).append
        (ih fun other hmem => hitems other (List.mem_cons_of_mem _ hmem))

/-! ## Words and tags -/

theorem emit {role : Role} {text : List Char} (hplain : role.isLayout = false)
    (hsolid : ∀ c ∈ text, isBlank c = false) : settings.Flows (emit role text) := by
  by_cases hnil : text = []
  · rw [hnil]
    exact nil
  · have hwhole : Solid text := ⟨hnil, hsolid⟩
    refine of_plain ?_ ?_ (by rw [joinPieces_emit]; exact hwhole.trimmed)
    · intro piece hmem
      obtain ⟨-, rfl⟩ := mem_emit.mp hmem
      exact OutputPiece.neat_of_solid hplain hwhole
    · intro piece hmem
      obtain ⟨-, rfl⟩ := mem_emit.mp hmem
      exact hplain

theorem begin_emit {role : Role} {text : List Char} (hplain : role.isLayout = false)
    (hne : text ≠ []) (hstops : StopsAt isBlank text) : Begin (Markup.emit role text) := by
  rw [Markup.emit, if_neg (by simpa using hne)]
  exact ⟨_, [], rfl, hplain, hstops⟩

/-- What is copied may have blanks in it, and at its end if something is glued to it. -/
theorem emit_copied {role other : Role} {text behind : List Char} (hcopied : role.isCopied = true)
    (hplain : other.isLayout = false) (hsolid : ∀ c ∈ behind, isBlank c = false)
    (htrimmed : Trimmed (text ++ behind)) :
    settings.Flows (Markup.emit role text ++ Markup.emit other behind) := by
  refine of_plain ?_ ?_
    (by rw [joinPieces_append, joinPieces_emit, joinPieces_emit]; exact htrimmed)
  · intro piece hmem
    rcases List.mem_append.mp hmem with hmem | hmem
    · obtain ⟨hne, rfl⟩ := mem_emit.mp hmem
      exact OutputPiece.neat_of_copied hcopied hne
    · obtain ⟨hne, rfl⟩ := mem_emit.mp hmem
      exact OutputPiece.neat_of_solid hplain ⟨hne, hsolid⟩
  · intro piece hmem
    rcases List.mem_append.mp hmem with hmem | hmem
    · obtain ⟨-, rfl⟩ := mem_emit.mp hmem
      exact Role.isLayout_of_isCopied hcopied
    · obtain ⟨-, rfl⟩ := mem_emit.mp hmem
      exact hplain

/-- A word of a text is written without blanks. -/
theorem word {text : List Char} {word : Word} (hmem : word ∈ (Run.ofText text).wordList) :
    settings.Flows (fragmentPieces word) ∧ Begin (fragmentPieces word) := by
  have hsolid := (Run.proper_ofText text).solid_of_mem_units _ (List.mem_map_of_mem hmem)
  have hproper : ∀ piece ∈ word, piece.Proper := by
    rw [← Run.fragments_of_mem_wordList hmem]
    exact proper_of_mem_fragments
  have hinside : ∀ piece ∈ word, (FragmentKind.role piece.kind).isLayout = false ∧
      Solid piece.raw := by
    intro piece hpiece
    obtain ⟨kind, raw⟩ := piece
    have hhere := hproper _ hpiece
    cases kind with
    | blank =>
        obtain ⟨hne, hblank⟩ := hhere
        obtain ⟨c, rest, rfl⟩ := List.exists_cons_of_ne_nil hne
        have hmem : c ∈ Word.raw word := List.mem_flatMap.mpr ⟨_, hpiece, List.mem_cons_self⟩
        rw [allBlank_cons, Bool.and_eq_true, hsolid.2 c hmem] at hblank
        cases hblank.1
    | characters => exact ⟨rfl, hhere⟩
    | entity => exact ⟨rfl, hhere⟩
  refine ⟨flatMap fun piece hpiece => emit (hinside piece hpiece).1 (hinside piece hpiece).2.2, ?_⟩
  cases word with
  | nil => exact absurd rfl hsolid.1
  | cons piece rest =>
      obtain ⟨hplain, hraw⟩ := hinside piece (by simp)
      have hstops := hraw.stopsAt []
      rw [List.append_nil] at hstops
      exact (begin_emit hplain hraw.1 hstops).append _

theorem begin_words {first : Word} {more : List Word} {gaps : List Gap}
    (hpieces : wordPieces? (first :: more) gaps = some pieces)
    (hfirst : Begin (fragmentPieces first)) :
    Begin pieces := by
  obtain ⟨others, rfl⟩ := exists_behind_word hpieces
  exact hfirst.append others

/-- Words with regular gaps between them. -/
theorem words {words : List Word} {gaps : List Gap} {indent : Nat}
    (hpieces : wordPieces? words gaps = some pieces)
    (hwords : ∀ word ∈ words, settings.Flows (fragmentPieces word) ∧ Begin (fragmentPieces word))
    (hregular : ∀ gap ∈ gaps, settings.Regular indent gap) : settings.Flows pieces := by
  fun_induction wordPieces? words gaps generalizing pieces with
  | case1 =>
      obtain rfl := Option.some.inj hpieces
      exact nil
  | case2 word =>
      obtain rfl := Option.some.inj hpieces
      exact (hwords word (by simp)).1
  | case3 word next others gap gaps ih =>
      obtain ⟨rest, hrest, rfl⟩ := Option.map_eq_some_iff.mp hpieces
      have hbehind : ∀ other ∈ next :: others,
          settings.Flows (fragmentPieces other) ∧ Begin (fragmentPieces other) :=
        fun other hmem => hwords other (List.mem_cons_of_mem _ hmem)
      have hflows := ih hrest hbehind fun other hmem => hregular other (List.mem_cons_of_mem _ hmem)
      exact (hwords word (by simp)).1.append
        (hflows.gap (hregular gap (by simp)) (begin_words hrest (hbehind next (by simp)).2))
  | case4 => cases hpieces

/-- An attribute, whose value may have blanks inside its quotes. -/
theorem attribute_pieces {attr : Attribute} (hfits : attr.Fits) :
    settings.Flows (attr.pieces (settings.quoteFor attr)) ∧
      Begin (attr.pieces (settings.quoteFor attr)) := by
  have hname : Solid attr.name := by
    rcases hfits.name with ⟨hsign, -⟩ | ⟨hne, hname⟩
    · rw [hsign]
      exact ⟨by simp, by simp [isBlank]⟩
    · refine ⟨hne, fun c hmem => ?_⟩
      have hclass := hname c hmem
      simp only [Attribute.inName, Bool.and_eq_true, Bool.not_eq_true'] at hclass
      exact hclass.1.1
  have hstops := hname.stopsAt []
  rw [List.append_nil] at hstops
  refine ⟨(emit rfl hname.2).append ?_, (begin_emit rfl hname.1 hstops).append _⟩
  cases hvalue : attr.value with
  | none => exact nil
  | some value =>
      have hfitted := hfits.value value hvalue
      refine (emit rfl (by simp [isBlank])).append ?_
      cases hquote : settings.quoteFor attr with
      | none =>
          have hbare := hfitted.bare ((settings.quoteFor_spec hvalue hfitted).2 hquote)
          have hsolid : ∀ c ∈ value.raw, isBlank c = false := fun c hmem =>
            isBlank_eq_false_of_class Attribute.inBareValue_of_isBlank (hbare c hmem)
          refine emit_copied rfl rfl (by simp [quoteText]) ?_
          rw [quoteText, List.append_nil]
          by_cases hnil : value.raw = []
          · rw [hnil]
            rfl
          · exact Solid.trimmed ⟨hnil, hsolid⟩
      | some quote =>
          have hsolid : Solid (quoteText (some quote)) := by
            cases quote <;> exact ⟨by simp [quoteText], by simp [quoteText, Quote.char, isBlank]⟩
          exact (emit rfl hsolid.2).append
            (emit_copied rfl rfl hsolid.2 (hsolid.trimmed.append_left hsolid.1 value.raw))

/-- A start tag, with a regular gap in front of each attribute and of its end. -/
theorem startTag {tag : StartTag} (hfits : tag.Fits) (indent : Nat) (cursor : Cursor) :
    let laid := settings.layoutStartTag tag indent cursor
    settings.Flows (tag.pieces laid.1 laid.2.1) ∧ Begin (tag.pieces laid.1 laid.2.1) := by
  intro laid
  have hname : ∀ c ∈ tag.name, isBlank c = false := fun c hmem =>
    isBlank_eq_false_of_class Attribute.inTagName_of_isBlank (hfits.name c hmem)
  have hlays := settings.lays_layoutStartTag tag indent cursor
  have hends : settings.Flows (Markup.emit .bracket tag.ending.text) ∧
      Begin (Markup.emit .bracket tag.ending.text) := by
    cases tag.ending <;>
      exact ⟨emit rfl (by simp [Ending.text, isBlank]),
        begin_emit rfl (by simp [Ending.text]) (stopsAt_cons.mpr (by decide))⟩
  refine ⟨(emit rfl (by simp [isBlank])).append ((emit rfl hname).append ((flatMap ?_).append
    (hends.1.gap (settings.regular_tagEndGap tag indent) hends.2))),
    (begin_emit rfl (by simp) (stopsAt_cons.mpr (by decide))).append _⟩
  rintro ⟨attr, layout⟩ hmem
  obtain ⟨hattr, hlayout⟩ := List.of_mem_zip hmem
  obtain ⟨aligned, hregular⟩ := settings.regular_layoutStartTag tag indent cursor layout hlayout
  obtain ⟨hflows, hbegin⟩ :=
    @attribute_pieces settings attr (Attribute.FitAll.fits hfits.attributes attr hattr)
  rw [← (List.forall₂_zip hlays hmem).quote] at hflows hbegin
  exact hflows.gap hregular hbegin

/-- An end tag with a regular gap in front of it. -/
theorem endTag {endTag : Option EndTag} (hclose : ∀ tag ∈ endTag, tag.Legible) {indent : Nat}
    {gap : Gap} (hregular : settings.Regular indent gap) :
    settings.Flows (endPieces endTag gap) := by
  cases endTag with
  | none => exact nil
  | some tag =>
      obtain ⟨body, -, htag⟩ := (hclose tag rfl).1
      have hname : ∀ c ∈ tag.name, isBlank c = false := by
        intro c hmem
        rw [htag] at hmem
        exact isBlank_eq_false_of_class Attribute.inTagName_of_isBlank (mem_takeWhile hmem)
      have hpieces : settings.Flows tag.pieces :=
        (emit rfl (by simp [isBlank])).append
          ((emit rfl hname).append (emit rfl (by simp [isBlank])))
      exact hpieces.gap hregular
        ((begin_emit rfl (by simp) (stopsAt_cons.mpr (by decide))).append _)

/-- What is copied and does not end with a blank. -/
theorem copied {role : Role} {text : List Char} (hcopied : role.isCopied = true)
    (htrimmed : text ≠ [] → Trimmed text) : settings.Flows (Markup.emit role text) := by
  by_cases hnil : text = []
  · rw [hnil]
    exact nil
  · have hflows := @emit_copied settings role .text text [] hcopied rfl (by simp)
      (by rw [List.append_nil]; exact htrimmed hnil)
    rwa [show Markup.emit .text [] = [] from rfl, List.append_nil] at hflows

/-- A comment, a declaration or the like. -/
theorem atom {leaf : Leaf} (hkind : leaf.kind ≠ .text)
    (hfits : (Token.ofLeaf leaf.kind leaf.raw).Fits) :
    settings.Flows leaf.pieces ∧ Begin leaf.pieces := by
  obtain ⟨hne, hstops⟩ := Item.solid_of_fits hkind hfits
  have hlast := trimmed_of_getLast? (Token.getLast?_of_fits hkind hfits) (by decide)
  unfold Leaf.pieces
  cases hleaf : leaf.kind with
  | text => exact absurd hleaf hkind
  | comment => exact ⟨copied rfl fun _ => hlast, begin_emit rfl hne hstops⟩
  | verbatim => exact ⟨copied rfl fun _ => hlast, begin_emit rfl hne hstops⟩
  | doctype => exact ⟨copied rfl fun _ => hlast, begin_emit rfl hne hstops⟩

end Settings.Flows

/-! ## Nodes -/

namespace Settings

variable {settings : Settings} {plan : Plan} {progress : Progress} {written : List Char}

/-- Nothing goes in front of the first item. -/
theorem separate_of_fresh {cursor : Cursor} (hfresh : cursor.fresh = true) (flow : Flow)
    (blanks : List Char) (next : Following) (width : Nat) :
    (settings.separate cursor flow blanks next width).1 = .nothing := by
  rw [separate, if_pos hfresh]

/-- An item with a gap in front of it, and what is behind it. -/
theorem flows_cons {fresh : Prop} {gap : Gap} {inside others : List OutputPiece} {indent : Nat}
    (hregular : settings.Regular indent gap) (hinside : settings.Flows inside ∧ Begin inside)
    (hothers : settings.Flows others) (hfirst : fresh → gap = .nothing) :
    settings.Flows (gap.pieces ++ inside ++ others) ∧
      (fresh → gap.pieces ++ inside ++ others = [] ∨ Begin (gap.pieces ++ inside ++ others)) := by
  refine ⟨(hinside.1.gap hregular hinside.2).append hothers, fun hfresh => .inr ?_⟩
  rw [hfirst hfresh]
  exact hinside.2.append others

/-- What is written of nodes are items with regular gaps in front of them, and no gap in front of
the first one if it is the first of all. -/
theorem Proceeds.flows {nodes : List Node} {pieces : List OutputPiece}
    (hkeep : settings.keepWhitespaces = false)
    (hproceeds : settings.Proceeds plan nodes progress written pieces)
    (hanchored : progress.draft.cursor.anchored = false) :
    settings.Flows pieces ∧ (progress.draft.cursor.fresh = true → pieces = [] ∨ Begin pieces) := by
  induction hproceeds with
  | nil => exact ⟨.nil, fun _ => .inl rfl⟩
  | blank hkind hrun hdecision hends hrest ih =>
      have hfound := ih (anchored_layoutNode hanchored)
      rwa [layoutNode_blank hkind hrun] at hfound
  | @words leaf rest progress written leading trailing first words passage inside others hkind hrun
      hpassage hdecision hinside hends hrest ih =>
      subst hpassage
      have hwords : first :: words.map (·.2) = (Run.ofText leaf.raw).wordList := by
        rw [hrun]
        rfl
      have hgaps := @regular_layoutPassage settings progress hkeep leading first words
      have hpieces : ∀ word ∈ first :: words.map (·.2),
          settings.Flows (fragmentPieces word) ∧ Begin (fragmentPieces word) := by
        intro word hmem
        rw [hwords] at hmem
        exact Flows.word hmem
      exact flows_cons (settings.regular_separate hkeep hanchored _ _ _ _)
        ⟨.words hinside hpieces hgaps, Flows.begin_words hinside (hpieces first (by simp)).2⟩
        (ih (anchored_layoutNode hanchored)).1 fun hfresh => separate_of_fresh hfresh _ _ _ _
  | @atom leaf rest progress written kind separated others hkind hlegible hseparated hlaid hdecision
      hends hrest ih =>
      subst hseparated
      exact flows_cons (settings.regular_separate hkeep hanchored _ _ _ _)
        (Flows.atom hkind hlegible.2) (ih (anchored_layoutNode hanchored)).1
        fun hfresh => separate_of_fresh hfresh _ _ _ _
  | @closed elem children rest progress written heading endTag kept others hheading hfits hkept
      hdecision hends hrest ih =>
      subst hheading
      obtain ⟨htag, hbegin⟩ := @Flows.startTag settings _ hfits
        (settings.layoutHeading elem.tag children progress).indent
        (settings.separate progress.draft.cursor progress.flow progress.blanks _ _).2.1
      have hcopied : settings.Flows kept := by
        rcases hkept with ⟨-, -, -, rfl⟩ | ⟨-, rfl⟩
        · exact .nil
        · have htext := hrest.ends.trimmed
          rw [joinPieces_append, joinPieces_emit, ← List.append_assoc] at htext
          exact .copied rfl htext.of_append
      rw [List.append_assoc (Gap.pieces _)]
      exact flows_cons (settings.regular_separate hkeep hanchored _ _ _ _)
        ⟨htag.append hcopied, hbegin.append _⟩ (ih (anchored_layoutNode hanchored)).1
        fun hfresh => separate_of_fresh hfresh _ _ _ _
  | @formatted elem children rest progress written heading body inner others hheading hfits hcontent
      hclose hbody hdecision hends hchildren hrest ihinner ih =>
      subst hheading hbody
      obtain ⟨htag, hbegin⟩ := @Flows.startTag settings _ hfits
        (settings.layoutHeading elem.tag children progress).indent
        (settings.separate progress.draft.cursor progress.flow progress.blanks _ _).2.1
      have hending := Flows.endTag hclose (settings.regular_layoutEnding hkeep
        (settings.layoutHeading elem.tag children progress) elem.endTag
        (settings.layoutNodes children (settings.keptContent elem children progress)))
      rw [List.append_assoc (Gap.pieces _)]
      have hinner := (ihinner (anchored_keptContent hanchored)).1
      exact flows_cons (settings.regular_separate hkeep hanchored _ _ _ _)
        ⟨htag.append (hinner.append hending), hbegin.append _⟩
          (ih (anchored_layoutNode hanchored)).1
        fun hfresh => separate_of_fresh hfresh _ _ _ _

/-- Nothing is written of blanks, and of nothing else. -/
theorem Proceeds.eq_nil_iff {nodes : List Node} {pieces : List OutputPiece}
    (hproceeds : settings.Proceeds plan nodes progress written pieces) :
    pieces = [] ↔ allBlank (Node.textOfAll nodes) = true := by
  have hsome : ∀ {gap inside others : List OutputPiece} {text rest : List Char}, Begin inside →
      allBlank text = false → (gap ++ inside ++ others = [] ↔ allBlank (text ++ rest) = true) := by
    rintro gap inside others text rest ⟨first, more, rfl, -⟩ hsolid
    simp [hsolid]
  have hopens : ∀ (elem : Element) (children : List Node),
      allBlank (Node.text (.element elem children)) = false := by
    intro elem children
    rw [Node.text_element, StartTag.text, List.cons_append, allBlank_cons]
    rfl
  induction hproceeds with
  | nil => simp
  | @blank leaf rest progress written leading others hkind hrun hdecision hends hrest ih =>
      have hraw := (units_eq_nil_iff leaf.raw).mp (by rw [hrun]; rfl)
      refine ih.trans ?_
      rw [Node.textOfAll_cons, allBlank_append, Node.text_leaf, hraw, Bool.true_and]
  | @words leaf rest progress written leading trailing first words passage inside others hkind hrun
      hpassage hdecision hinside hends hrest ih =>
      have hraw : allBlank leaf.raw = false := by
        rw [← Bool.not_eq_true, ← units_eq_nil_iff, hrun]
        simp [Run.units, Run.wordList]
      have hfirst : Begin (fragmentPieces first) :=
        (@Flows.word settings leaf.raw first (by rw [hrun]; exact List.mem_cons_self)).2
      rw [Node.textOfAll_cons, Node.text_leaf]
      exact hsome (Flows.begin_words hinside hfirst) hraw
  | @atom leaf rest progress written kind separated others hkind hlegible hseparated hlaid hdecision
      hends hrest ih =>
      obtain ⟨hne, hstops⟩ := Item.solid_of_fits hkind hlegible.2
      have hraw : allBlank leaf.raw = false := by
        obtain ⟨c, text, htext⟩ := List.exists_cons_of_ne_nil hne
        rw [htext, stopsAt_cons] at hstops
        rw [htext, allBlank_cons, hstops, Bool.false_and]
      rw [Node.textOfAll_cons, Node.text_leaf]
      exact hsome (@Flows.atom settings _ hkind hlegible.2).2 hraw
  | @closed elem children rest progress written heading endTag kept others hheading hfits hkept
      hdecision hends hrest ih =>
      rw [List.append_assoc (Gap.pieces _), Node.textOfAll_cons]
      exact hsome ⟨_, _, rfl, rfl, stopsAt_cons.mpr (by decide)⟩ (hopens elem children)
  | @formatted elem children rest progress written heading body inner others hheading hfits hcontent
      hclose hbody hdecision hends hchildren hrest ihinner ih =>
      rw [List.append_assoc (Gap.pieces _), Node.textOfAll_cons]
      exact hsome ⟨_, _, rfl, rfl, stopsAt_cons.mpr (by decide)⟩ (hopens elem children)

end Settings

/-! ## Whole documents -/

/-- Blanks in normal form: every piece is as it should be and stands where it may, and nothing is
left over at the end but a line feed. -/
structure Settings.NormalForm (settings : Settings) (pieces : List OutputPiece) : Prop where
  neat : ∀ piece ∈ pieces, piece.Neat settings
  joined : pieces.IsChain Joins
  ends : ∀ last ∈ pieces.getLast?, last.EndsSolid ∨ last = ⟨.newline, ['\n']⟩

namespace Settings

variable {settings : Settings} {pieces front back : List OutputPiece}

/-- Behind a document there is a line feed or nothing. -/
theorem Flows.normalForm (hflows : settings.Flows pieces) {gap : Gap}
    (hgap : gap = .nothing ∨ gap = .lineBreak 1 0) :
    settings.NormalForm (pieces ++ gap.pieces) := by
  rcases hgap with rfl | rfl
  · rw [show Gap.nothing.pieces = [] from rfl, List.append_nil]
    exact ⟨hflows.neat, hflows.joined, fun last hlast => .inl (hflows.ends last hlast)⟩
  · rw [show (Gap.lineBreak 1 0).pieces = [⟨.newline, ['\n']⟩] from rfl]
    refine ⟨?_, ?_, ?_⟩
    · intro piece hmem
      rcases List.mem_append.mp hmem with hmem | hmem
      · exact hflows.neat piece hmem
      · obtain rfl := List.mem_singleton.mp hmem
        exact ⟨1, Nat.le_refl 1, Nat.le_add_left 1 _, rfl⟩
    · refine List.isChain_append.mpr ⟨hflows.joined, .singleton _, fun last hlast first hhead => ?_⟩
      obtain rfl := Option.some.inj hhead
      exact .parted (hflows.ends last hlast) (.inl rfl)
    · intro last hlast
      rw [List.getLast?_append_of_ne_nil _ (by simp)] at hlast
      exact .inr (Option.some.inj hlast).symm

namespace NormalForm

/-- Between line feeds there is nothing but spaces in layout. -/
theorem spaces_or_feeds {piece : OutputPiece} (hneat : piece.Neat settings)
    (hlayout : piece.role.isLayout = true) :
    (∃ count, piece.text = List.replicate count ' ') ∧ piece.role ≠ .newline ∨
      ∃ count, count ≤ settings.keepBlankLines + 1 ∧ piece.text = List.replicate count '\n' ∧
        piece.role = .newline := by
  obtain ⟨role, text⟩ := piece
  cases role with
  | newline =>
      obtain ⟨count, -, hmost, htext⟩ := hneat
      exact .inr ⟨count, hmost, htext, rfl⟩
  | indent =>
      obtain ⟨count, -, htext⟩ := hneat
      exact .inl ⟨⟨count, htext⟩, by simp⟩
  | neutral => exact .inl ⟨⟨1, hneat⟩, by simp⟩
  | _ => cases hlayout

/-- Outside what is copied, no line ends with a space: a blank that does not end the line has
something behind it on the line. -/
theorem exists_next (hform : settings.NormalForm pieces) {piece : OutputPiece}
    (hpieces : pieces = front ++ piece :: back) (hcopied : piece.role.isCopied = false)
    {before after : List Char} {c : Char} (htext : piece.text = before ++ c :: after)
    (hblank : isBlank c = true) (hfeed : c ≠ '\n') :
    ∃ d rest, after ++ joinPieces back = d :: rest ∧ d ≠ '\n' := by
  subst hpieces
  have hneat := hform.neat piece (by simp)
  have hlayout : piece.role.isLayout = true := by
    by_contra hplain
    have hsolid := (hneat.solid hcopied (by simpa using hplain)).2 c (by simp [htext])
    rw [hblank] at hsolid
    cases hsolid
  obtain ⟨⟨count, hspaces⟩, hrole⟩ | ⟨count, -, hfeeds, -⟩ := spaces_or_feeds hneat hlayout
  · cases after with
    | cons d more =>
        have hmem : d ∈ List.replicate count ' ' := by simp [← hspaces, htext]
        exact ⟨d, more ++ joinPieces back, rfl, by rw [List.eq_of_mem_replicate hmem]; decide⟩
    | nil =>
        cases back with
        | nil =>
            rcases hform.ends piece (by simp) with hcloses | rfl
            · exact absurd (hcloses.1.symm.trans hlayout) (by simp)
            · exact absurd rfl hrole
        | cons next rest =>
            have hnext := (hform.neat next (by simp)).text_ne_nil
            obtain ⟨-, hjoins, -⟩ := List.isChain_append_cons_cons.mp hform.joined
            cases hjoins with
            | indented hnewline => exact absurd hnewline hrole
            | parted hcloses => exact absurd (hcloses.1.symm.trans hlayout) (by simp)
            | glued hplain => exact absurd (hplain.symm.trans hlayout) (by simp)
            | opened _ hopens =>
                obtain ⟨d, more, hmore⟩ := List.exists_cons_of_ne_nil hnext
                have hstops := hopens.2
                rw [hmore, stopsAt_cons] at hstops
                refine ⟨d, more ++ joinPieces rest, by simp [joinPieces, hmore], ?_⟩
                rintro rfl
                simp [isBlank] at hstops
  · have hmem : c ∈ List.replicate count '\n' := by simp [← hfeeds, htext]
    exact absurd (List.eq_of_mem_replicate hmem) hfeed

/-- Outside what is copied, no more than so many line feeds follow each other with nothing but
blanks between them. -/
theorem newlines_le (hform : settings.NormalForm pieces) {run : List OutputPiece}
    (hpieces : pieces = front ++ run ++ back) (hcopied : ∀ piece ∈ run, piece.role.isCopied = false)
    (hblank : allBlank (joinPieces run) = true) :
    newlines (joinPieces run) ≤ settings.keepBlankLines + 1 := by
  subst hpieces
  have hneat : ∀ piece ∈ run, piece.Neat settings :=
    fun piece hmem => hform.neat piece (by simp [hmem])
  have hlayout : ∀ piece ∈ run, piece.role.isLayout = true := by
    intro piece hmem
    by_contra hplain
    obtain ⟨hne, hsolid⟩ := (hneat piece hmem).solid (hcopied piece hmem) (by simpa using hplain)
    obtain ⟨c, rest, htext⟩ := List.exists_cons_of_ne_nil hne
    have hinside : c ∈ joinPieces run := List.mem_flatMap.mpr ⟨piece, hmem, by simp [htext]⟩
    have hfound := isBlank_of_mem hblank hinside
    rw [hsolid c (by simp [htext])] at hfound
    cases hfound
  have hjoined : run.IsChain Joins :=
    (List.isChain_append.mp (List.isChain_append.mp hform.joined).1).2.1
  have hfeeds : ∀ piece ∈ run, newlines piece.text ≤
      if piece.role = .newline then settings.keepBlankLines + 1 else 0 := by
    intro piece hmem
    obtain ⟨⟨count, hspaces⟩, hrole⟩ | ⟨count, hmost, hfeeds, hrole⟩ :=
      spaces_or_feeds (hneat piece hmem) (hlayout piece hmem)
    · rw [if_neg hrole, hspaces, newlines, List.count_replicate]
      exact Nat.le_refl 0
    · rw [if_pos hrole, hfeeds, newlines, List.count_replicate_self]
      exact hmost
  have hmost : ∀ piece ∈ run, newlines piece.text ≤ settings.keepBlankLines + 1 := by
    intro piece hmem
    have hhere := hfeeds piece hmem
    split at hhere <;> omega
  cases run with
  | nil => exact Nat.zero_le _
  | cons piece rest =>
      cases rest with
      | nil => simpa [joinPieces] using hmost piece (by simp)
      | cons next more =>
          obtain ⟨hfirst, hrest⟩ := List.isChain_cons_cons.mp hjoined
          obtain ⟨-, hindent⟩ := hfirst.of_layout (hlayout piece (by simp)) (hlayout next (by simp))
          cases more with
          | nil =>
              have hhere := hmost piece (by simp)
              have hspaces := hfeeds next (by simp)
              rw [if_neg (by simp [hindent])] at hspaces
              have hwhole : newlines (joinPieces [piece, next]) =
                  newlines piece.text + newlines next.text := by simp [joinPieces, newlines]
              omega
          | cons third others =>
              -- no layout goes with an indent in front of it
              obtain ⟨hnewline, -⟩ := (List.isChain_cons_cons.mp hrest).1.of_layout
                (hlayout next (by simp)) (hlayout third (by simp))
              rw [hindent] at hnewline
              cases hnewline

end NormalForm

end Settings

/-- Where blanks are not kept, a document is written with its blanks in normal form. If there is
anything else in it, the result begins with that and ends with that or with one line feed behind it.
Outside what is copied, no line ends with a space and only so many blank lines follow each other. -/
theorem format_normalForm {settings : Settings} {text : String} {document : Document}
    (hcheck : settings.check = .ok ()) (hkeep : settings.keepWhitespaces = false)
    (hparse : parse text.toList = .ok document) :
    ∃ pieces, formatPieces settings text.toList none = .ok pieces ∧
      format .plain settings text none = .ok (String.ofList (joinPieces pieces)) ∧
      settings.NormalForm pieces ∧
      (allBlank text.toList = true → pieces = [] ∨ pieces = [⟨.newline, ['\n']⟩]) ∧
      (allBlank text.toList = false → Begin pieces ∧ ∃ body, body ≠ [] ∧ StopsAt isBlank body ∧
        Trimmed body ∧ (joinPieces pieces = body ∨ joinPieces pieces = body ++ ['\n'])) ∧
      (∀ front piece back, pieces = front ++ piece :: back → piece.role.isCopied = false →
        ∀ before c after, piece.text = before ++ c :: after → isBlank c = true → c ≠ '\n' →
          ∃ d rest, after ++ joinPieces back = d :: rest ∧ d ≠ '\n') ∧
      (∀ front run back, pieces = front ++ run ++ back →
        (∀ piece ∈ run, piece.role.isCopied = false) → allBlank (joinPieces run) = true →
          newlines (joinPieces run) ≤ settings.keepBlankLines + 1) := by
  have hsource := Document.textOfAll_of_parse hparse
  obtain ⟨pieces, hpieces, hproceeds, hending⟩ := formatPieces_proceeds hcheck hparse
  have hgap := settings.finalGap_eq hkeep
    (settings.layoutNodes document.children (Settings.planningStart document)).blanks
  rw [← hending] at hgap
  obtain ⟨hflows, hbegin⟩ := hproceeds.flows hkeep rfl
  have hnil := hproceeds.eq_nil_iff
  rw [hsource] at hnil
  have hform := hflows.normalForm hgap
  refine ⟨_, hpieces, ?_, hform, ?_, ?_, ?_, ?_⟩
  · simp only [format, hpieces, bind, Except.bind]
    rfl
  · intro hblank
    rw [hnil.mpr hblank]
    exact hgap.imp (fun hgap => by rw [hgap]; rfl) fun hgap => by rw [hgap]; rfl
  · intro hsolid
    have hne : pieces ≠ [] := fun hempty => by simp [hnil.mp hempty] at hsolid
    have hfirst := (hbegin rfl).resolve_left hne
    obtain ⟨hwritten, hstops, htrimmed⟩ := hflows.text hfirst
    refine ⟨hfirst.append _, joinPieces pieces, hwritten, hstops, htrimmed, ?_⟩
    rw [joinPieces_append, Gap.joinPieces_pieces]
    exact hgap.imp (fun hgap => by rw [hgap]; exact List.append_nil _) fun hgap => by rw [hgap]; rfl
  · exact fun front piece back hsplit hcopied before c after htext hblank hfeed =>
      hform.exists_next hsplit hcopied htext hblank hfeed
  · exact fun front run back hsplit hcopied hblank => hform.newlines_le hsplit hcopied hblank

/-- A paragraph behind a comment, with blank lines between them and a tag that the text does not
end. -/
theorem format_normalForm_paragraph :
    let settings : Settings := {}
    let text := "\n <!-- a \n b -->\n\n\n\n <p  id = 'c '>d \t e\n<b >f\n\n"
    settings.check = .ok () ∧ settings.keepWhitespaces = false ∧ allBlank text.toList = false ∧
      ∃ document, parse text.toList = .ok document ∧
        ∃ pieces, formatPieces settings text.toList none = .ok pieces ∧ settings.NormalForm pieces ∧
          Begin pieces ∧ ∃ body, body ≠ [] ∧ Trimmed body ∧
            (joinPieces pieces = body ∨ joinPieces pieces = body ++ ['\n']) := by
  intro settings text
  have hcheck : settings.check = .ok () := by with_unfolding_all rfl
  have hread : (parse text.toList).toOption.isSome = true := by decide +kernel
  obtain ⟨document, hdocument⟩ := Option.isSome_iff_exists.mp hread
  have hparse := toOption_eq_some_iff.mp hdocument
  have hsolid : allBlank text.toList = false := by decide
  obtain ⟨pieces, hpieces, -, hform, -, hwhole, -, -⟩ := format_normalForm hcheck rfl hparse
  obtain ⟨hbegin, body, hne, -, htrimmed, hbody⟩ := hwhole hsolid
  exact ⟨hcheck, rfl, hsolid, document, hparse, pieces, hpieces, hform, hbegin, body, hne, htrimmed,
    hbody⟩

end Markup
