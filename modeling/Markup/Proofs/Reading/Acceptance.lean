import Markup.Proofs.Reading.Prose
import Markup.Proofs.Reading.Trunk

/-!
# Reading back

Reading a text comes down to a walk over the bare tokens of its shape: each is prose, or markup that
the tree under construction has a place for. Whether there is such a walk depends on the shape
alone, so that a text with the same shape, of pieces that can be read back, is read as a document of
that shape. Main statement: `exists_parse_of_shape`.
-/

namespace Markup

open Markup.Text

/-! ## Prose and its words -/

namespace Token

variable {stray : List Char → Prop} {last : Prop}

theorem Prose.dropWhile {text : List Char} (hprose : Prose stray last text) :
    Prose stray last (text.dropWhile isBlank) := by
  induction hprose with
  | nil => exact .nil
  | @char c rest hc hrest ih =>
      by_cases hblank : isBlank c = true
      · rw [List.dropWhile_cons_of_pos hblank]
        exact ih
      · rw [List.dropWhile_cons_of_neg hblank]
        exact .char hc hrest
  | bracket hopens hrest => exact .bracket hopens hrest
  | endTag hbody hnamed hstray hrest => exact .endTag hbody hnamed hstray hrest
  | hanging construct hlast hread => exact .hanging construct hlast hread

theorem Prose.mono {other : Prop} {text : List Char} (hprose : Prose stray last text)
    (himplies : last → other) : Prose stray other text := by
  induction hprose with
  | nil => exact .nil
  | char hc hrest ih => exact .char hc ih
  | bracket hopens hrest ih => exact .bracket hopens ih
  | endTag hbody hnamed hstray hrest ih => exact .endTag hbody hnamed hstray ih
  | hanging construct hlast hread => exact .hanging construct (himplies hlast) hread

theorem squeeze_unwords {words : List (List Char)} (hsolid : ∀ word ∈ words, Solid word) :
    squeeze (unwords words) = unwords words := by
  cases words with
  | nil => rfl
  | cons first rest =>
      have hparted : Parted (rest.map fun word => ([' '], word)) := by
        intro parted hmem
        obtain ⟨word, hword, rfl⟩ := List.mem_map.mp hmem
        exact ⟨by simp, rfl, hsolid word (List.mem_cons_of_mem _ hword)⟩
      have hsqueeze := squeeze_wordsText (hsolid first List.mem_cons_self) hparted allBlank_nil
      rw [List.append_nil, Item.unwords_cons] at hsqueeze
      simpa [Function.comp_def] using hsqueeze

/-- A text is prose exactly if its words are, with a space between any two. -/
theorem prose_unwords_iff (text : List Char) :
    Prose stray last (unwords (Run.ofText text).units) ↔ Prose stray last text := by
  have hsqueeze : squeeze (unwords (Run.ofText text).units) = squeeze (text.dropWhile isBlank) := by
    rw [squeeze_dropWhile, squeeze_unwords (Run.proper_ofText text).solid_of_mem_units]
  constructor
  · intro hprose
    rw [← List.takeWhile_append_dropWhile (p := isBlank) (l := text)]
    exact (hprose.of_squeeze hsqueeze).blank_append (allBlank_takeWhile text)
  · intro hprose
    exact hprose.dropWhile.of_squeeze hsqueeze.symm

/-- What is prose depends on the words alone. -/
theorem prose_congr {text other : List Char}
    (hunits : (Run.ofText text).units = (Run.ofText other).units) :
    Prose stray last text ↔ Prose stray last other := by
  rw [← prose_unwords_iff text, hunits, prose_unwords_iff]

theorem isMarkup_bare (token : Token) : token.bare.isMarkup = token.isMarkup := by
  cases token <;> rfl

end Token

theorem units_unwords {words : List (List Char)} (hsolid : ∀ word ∈ words, Solid word) :
    (Run.ofText (unwords words)).units = words := by
  have hwords := squeeze_dropWhile (unwords words)
  have hdropped : (unwords words).dropWhile isBlank = unwords words := by
    cases words with
    | nil => rfl
    | cons first rest =>
        obtain ⟨hne, hfirst⟩ := hsolid first List.mem_cons_self
        obtain ⟨c, tail, rfl⟩ := List.exists_cons_of_ne_nil hne
        exact List.dropWhile_cons_of_neg (by simp [hfirst c List.mem_cons_self])
  rw [hdropped, Token.squeeze_unwords hsolid] at hwords
  exact (unwords_inj hsolid (Run.proper_ofText _).solid_of_mem_units hwords).symm

namespace Item

theorem ofProse_congr {text other : List Char}
    (hunits : (Run.ofText text).units = (Run.ofText other).units) :
    ofProse text = ofProse other := by
  unfold ofProse
  rw [hunits]

theorem ofProse_unwords (text : List Char) :
    ofProse (unwords (Run.ofText text).units) = ofProse text :=
  ofProse_congr (units_unwords (Run.proper_ofText text).solid_of_mem_units)

/-- Blanks at the ends of a text change nothing about its words. -/
theorem units_append_blank {blanks : List Char} (hblank : allBlank blanks = true)
    (text : List Char) : (Run.ofText (text ++ blanks)).units = (Run.ofText text).units := by
  have hsolid := fun text => (Run.proper_ofText text).solid_of_mem_units
  refine unwords_inj (hsolid _) (hsolid _) ?_
  rw [← squeeze_dropWhile, ← squeeze_dropWhile, squeeze_dropWhile_isBlank,
    squeeze_dropWhile_isBlank, squeeze_append_blank hblank]

theorem units_blank_append {blanks : List Char} (hblank : allBlank blanks = true)
    (text : List Char) : (Run.ofText (blanks ++ text)).units = (Run.ofText text).units := by
  have hsolid := fun text => (Run.proper_ofText text).solid_of_mem_units
  refine unwords_inj (hsolid _) (hsolid _) ?_
  rw [← squeeze_dropWhile, ← squeeze_dropWhile,
    List.dropWhile_append_of_pos fun c hmem => isBlank_of_mem hblank hmem]

end Item

/-! ## Walks -/

/-- A walk over bare tokens: each is prose or has a place in the tree, which has the given shape in
the end. No prose follows prose, and nothing follows raw text without an end tag. -/
inductive Accepts : Trunk → List Token → List Item → Prop
  | done (trunk : Trunk) : Accepts trunk [] trunk.finish
  | prose {trunk : Trunk} {raw : List Char} {rest : List Token} {result : List Item} :
      Item.tokensOfAll (Item.ofProse raw) = [.text raw] →
        Token.Prose trunk.Stray (rest = []) raw → (∀ token ∈ rest.head?, token.isMarkup = true) →
          Accepts (trunk.append (Item.ofProse raw)) rest result →
            Accepts trunk (.text raw :: rest) result
  | markup {trunk next : Trunk} {token : Token} {rest : List Token} {result : List Item} :
      token.isMarkup = true → (∀ tag content, token = .rawElement tag content none → rest = []) →
        trunk.step? token = some next → Accepts next rest result →
          Accepts trunk (token :: rest) result

namespace Builder

open Token

theorem stray_eq (builder : Builder) : builder.Stray = builder.trunk.Stray := by
  funext name
  exact propext (builder.stray_trunk name).symm

theorem addAll_nil (builder : Builder) : builder.addAll [] = .ok builder := rfl

theorem shapeOfAll_document {builder : Builder} (hlegible : builder.Legible) (text : List Char) :
    Node.shapeOfAll (builder.document text).children =
      (builder.trunk.append (Item.ofProse builder.waiting)).finish := by
  rw [← trunk_flush]
  exact Nesting.shapeOfAll_finish (Nesting.legible_laws.flush hlegible) _

/-- Raw text without an end tag takes all that follows it. -/
theorem eq_nil_of_endless {tag : StartTag} {content after : List Char}
    (hfits : (Token.rawElement tag content none).Fits)
    (hread : ofText (tag.text ++ (content ++ after)) =
      .rawElement tag content none :: ofText after) : after = [] := by
  obtain ⟨htag, hnamed, hraw, -⟩ := hfits
  rw [ofText_rawElement htag hnamed hraw] at hread
  obtain ⟨hfirst, -⟩ := List.cons.inj hread
  simp only [Token.rawElement.injEq, true_and] at hfirst
  have hclose : '>' ∉ tag.name := fun hmem => by
    have hin := htag.name '>' hmem
    simp [Attribute.inTagName] at hin
  obtain ⟨hwhole, -⟩ := (encloses_readRawText hclose (content ++ after)).2 hfirst.2
  simpa using hfirst.1.symm.trans hwhole

/-- Every text begins with prose, which a legible builder holds back. -/
theorem exists_held {builder : Builder} (text : List Char) (hlegible : builder.Legible)
    (hwaiting : builder.waiting = []) :
    ∃ (prose rest : List Char) (held : Builder), text = prose ++ rest ∧
      Prose builder.trunk.Stray (rest = []) prose ∧
      builder.addAll (ofText text) = held.addAll (ofText rest) ∧ held.Legible ∧
        held.flush.trunk = builder.trunk.append (Item.ofProse prose) ∧
          held.trunk = builder.trunk ∧ held.GoesOn rest := by
  obtain ⟨prose, rest, reports, htext, hprose, haddAll, hgoesOn⟩ := builder.exists_prose text
  rw [stray_eq] at hprose
  refine ⟨prose, rest, { builder with reports := reports }.hold prose, htext, hprose, haddAll,
    hlegible, ?_, rfl, hgoesOn⟩
  rw [trunk_flush]
  simp [hold, hwaiting, trunk]

theorem source_ne_nil {token : Token} {after : List Char}
    (hread : ofText (token.source ++ after) = token :: ofText after) : token.source ≠ [] := by
  intro hnil
  rw [hnil, List.nil_append] at hread
  exact absurd hread.symm (List.cons_ne_self _ _)

/-- Every reading is a walk. -/
theorem exists_accepts {builder final : Builder} (text : List Char) (hlegible : builder.Legible)
    (hwaiting : builder.waiting = []) (haddAll : builder.addAll (ofText text) = .ok final)
    (source : List Char) :
    ∃ tokens, Accepts builder.trunk tokens (Node.shapeOfAll (final.document source).children) ∧
      (text = [] → tokens = []) := by
  obtain ⟨prose, rest, held, htext, hprose, hsplit, hheld, hflush, htrunk, hgoesOn⟩ :=
    exists_held text hlegible hwaiting
  rw [hsplit] at haddAll
  -- what follows the prose is a walk of its own, from the shape that has the prose in it
  obtain ⟨tokens, haccepts, hhead, hempty⟩ : ∃ tokens,
      Accepts (builder.trunk.append (Item.ofProse prose)) tokens
        (Node.shapeOfAll (final.document source).children) ∧
      (∀ token ∈ tokens.head?, token.isMarkup = true) ∧ (rest = [] → tokens = []) := by
    rcases hgoesOn with rfl | ⟨token, after, hmarkup, hfits, hstray, hread, hrest⟩
    · rw [ofText, addAll_nil] at haddAll
      obtain rfl := Except.ok.inj haddAll
      refine ⟨[], ?_, by simp, fun _ => rfl⟩
      rw [shapeOfAll_document hheld, ← trunk_flush, hflush]
      exact .done _
    · rw [hread] at haddAll
      obtain ⟨added, hadd, hafter⟩ := addAll_eq_ok_cons.mp haddAll
      have hstep := add_step hheld hmarkup hfits fun tag htag hnone =>
        hstray tag htag (held.stray_eq ▸ hnone)
      rw [hadd, hflush] at hstep
      obtain ⟨tokens, haccepts, hempty⟩ := exists_accepts after
        (legible_stable.add hfits hheld hadd) hstep.2 hafter source
      rw [← isMarkup_bare] at hmarkup
      refine ⟨token.bare :: tokens, .markup hmarkup ?_ hstep.1 haccepts, ?_, ?_⟩
      · intro tag content heq
        rw [hrest] at hread
        cases token with
        | rawElement tag content close =>
            cases close with
            | none =>
                refine hempty (eq_nil_of_endless hfits ?_)
                simpa [Token.source, closeText] using hread
            | some close => simp [Token.bare] at heq
        | _ => simp [Token.bare] at heq
      · intro other hother
        obtain rfl := Option.some.inj hother
        exact hmarkup
      · intro hnil
        rw [hnil, ofText] at hread
        simp at hread
  by_cases hwords : (Run.ofText prose).units = []
  · have hnone : Item.ofProse prose = [] := by unfold Item.ofProse; rw [hwords]
    rw [hnone, Trunk.append_nil] at haccepts
    refine ⟨tokens, haccepts, fun hnil => hempty ?_⟩
    exact (List.append_eq_nil_iff.mp (htext.symm.trans hnil)).2
  · refine ⟨.text (unwords (Run.ofText prose).units) :: tokens, .prose ?_ ?_ hhead ?_, ?_⟩
    · rw [Item.ofProse_unwords, Item.tokensOfAll_ofProse prose hwords]
    · exact (prose_unwords_iff prose).mpr (hprose.mono hempty)
    · rw [Item.ofProse_unwords]
      exact haccepts
    · intro hnil
      have hprose : prose = [] := (List.append_eq_nil_iff.mp (htext.symm.trans hnil)).1
      exact absurd ((units_eq_nil_iff prose).mpr (by simp [hprose])) hwords
termination_by text.length
decreasing_by
  have hlength := congrArg List.length htext
  rw [hrest] at hlength hread
  have hpositive := List.length_pos_iff.mpr (source_ne_nil hread)
  simp only [List.length_append] at hlength
  omega

end Builder

/-! ## Walks and tokens -/

namespace Trunk

/-- The tokens of open elements with what is inside them, behind finished items. -/
def tokensFrom (finished : List Item) : List (StartTag × List Item) → List Token
  | [] => Item.tokensOfAll finished
  | (tag, inside) :: outer =>
      tokensFrom finished outer ++ (.startTag tag :: Item.tokensOfAll inside)

/-- The tokens of a shape under construction. -/
def tokens (trunk : Trunk) : List Token :=
  tokensFrom trunk.finished trunk.stack

theorem tokens_append (trunk : Trunk) (items : List Item) :
    (trunk.append items).tokens = trunk.tokens ++ Item.tokensOfAll items := by
  obtain ⟨stack, finished⟩ := trunk
  cases stack <;> simp [append, tokens, tokensFrom]

theorem tokens_pop {trunk : Trunk} (hopen : trunk.stack ≠ []) (close : Option EndTag) :
    (trunk.pop close).tokens = trunk.tokens ++ (close.map Token.endTag).toList := by
  obtain ⟨stack, finished⟩ := trunk
  cases stack with
  | nil => exact absurd rfl hopen
  | cons inner outer =>
      rw [pop, tokens_append, Item.tokensOfAll_element]
      cases close <;> simp [tokens, tokensFrom]

theorem tokens_pop_none (trunk : Trunk) : (trunk.pop none).tokens = trunk.tokens := by
  by_cases hopen : trunk.stack = []
  · unfold pop
    rw [hopen]
  · rw [tokens_pop hopen]
    simp

theorem tokens_popMany (trunk : Trunk) (count : Nat) :
    (trunk.popMany count).tokens = trunk.tokens := by
  induction count generalizing trunk with
  | zero => rfl
  | succ count ih => rw [popMany, ih, tokens_pop_none]

theorem length_stack_pop (trunk : Trunk) (close : Option EndTag) :
    (trunk.pop close).stack.length = trunk.stack.length - 1 := by
  obtain ⟨stack, finished⟩ := trunk
  cases stack with
  | nil => rfl
  | cons inner outer =>
      have htags := congrArg List.length ((⟨outer, finished⟩ : Trunk).tags_append
        [.element true [] inner.1 inner.2 (close.map fun tag => ([], tag))])
      simpa [pop] using htags

theorem length_stack_popMany (trunk : Trunk) (count : Nat) :
    (trunk.popMany count).stack.length = trunk.stack.length - count := by
  induction count generalizing trunk with
  | zero => rfl
  | succ count ih => rw [popMany, ih, length_stack_pop]; omega

theorem tokensOfAll_finish (trunk : Trunk) : Item.tokensOfAll trunk.finish = trunk.tokens := by
  have hlength := trunk.length_stack_popMany trunk.stack.length
  rw [Nat.sub_self, List.length_eq_zero_iff] at hlength
  rw [← trunk.tokens_popMany trunk.stack.length, tokens, hlength]
  rfl

theorem tokens_prepare? {trunk prepared : Trunk} {name : List Char}
    (hprepare : trunk.prepare? name = some prepared) : prepared.tokens = trunk.tokens := by
  unfold prepare? at hprepare
  dsimp only at hprepare
  split at hprepare
  next => simp at hprepare
  next =>
    obtain rfl := Option.some.inj hprepare
    exact trunk.tokens_popMany _

/-- Each step adds the token. -/
theorem tokens_step? {trunk next : Trunk} {token : Token} (hstep : trunk.step? token = some next) :
    next.tokens = trunk.tokens ++ [token] := by
  cases token with
  | text raw => simp [step?] at hstep
  | unterminated construct raw => simp [step?] at hstep
  | comment raw => obtain rfl := Option.some.inj hstep; exact trunk.tokens_append _
  | cdata raw => obtain rfl := Option.some.inj hstep; exact trunk.tokens_append _
  | declaration raw => obtain rfl := Option.some.inj hstep; exact trunk.tokens_append _
  | startTag tag =>
      obtain ⟨prepared, hprepare, rfl⟩ := Option.map_eq_some_iff.mp hstep
      rw [← tokens_prepare? hprepare]
      split
      next => exact prepared.tokens_append _
      next => rfl
  | rawElement tag content close =>
      obtain ⟨prepared, hprepare, rfl⟩ := Option.map_eq_some_iff.mp hstep
      rw [← tokens_prepare? hprepare]
      exact prepared.tokens_append _
  | endTag tag =>
      obtain ⟨count, hcount, rfl⟩ := Option.map_eq_some_iff.mp hstep
      obtain ⟨hlt, -⟩ := List.findIdx?_eq_some_iff_getElem.mp hcount
      have hopen : (trunk.popMany count).stack ≠ [] := by
        intro hnil
        have hlength := trunk.length_stack_popMany count
        rw [hnil, List.length_nil] at hlength
        omega
      rw [tokens_pop hopen, tokens_popMany]
      rfl

end Trunk

/-- A walk goes over the tokens of the shape that it ends with. -/
theorem Accepts.tokens {trunk : Trunk} {tokens : List Token} {result : List Item}
    (haccepts : Accepts trunk tokens result) :
    Item.tokensOfAll result = trunk.tokens ++ tokens := by
  induction haccepts with
  | done trunk => simp [trunk.tokensOfAll_finish]
  | prose hraw hprose hhead hrest ih => rw [ih, Trunk.tokens_append, hraw]; simp
  | markup hmarkup hendless hstep hrest ih => rw [ih, Trunk.tokens_step? hstep]; simp

/-! ## Reading pieces -/

namespace Item

/-- A piece that can be read back: words, or markup. -/
def ProperPiece (piece : List Char × Token) : Prop :=
  allBlank piece.1 = true ∧ ((∃ first rest, Solid first ∧ Parted rest ∧
    piece.2 = .text (wordsText first rest)) ∨ (piece.2.isMarkup = true ∧ piece.2.Fits))

theorem ProperPiece.fits {piece : List Char × Token} (hpiece : ProperPiece piece)
    (hmarkup : piece.2.isMarkup = true) : piece.2.Fits := by
  rcases hpiece.2 with ⟨first, rest, -, -, htext⟩ | ⟨-, hfits⟩
  · simp [htext, Token.isMarkup] at hmarkup
  · exact hfits

/-- A piece without markup is the text that it has the words of. -/
theorem ProperPiece.exists_text {piece : List Char × Token} (hpiece : ProperPiece piece)
    {raw : List Char} (hbare : piece.2.bare = .text raw) :
    ∃ text, piece.2 = .text text ∧ unwords (Run.ofText text).units = raw := by
  rcases hpiece.2 with ⟨first, rest, -, -, htext⟩ | ⟨hmarkup, -⟩
  · exact ⟨_, htext, by simpa [htext, Token.bare] using hbare⟩
  · rw [← Token.isMarkup_bare, hbare] at hmarkup
    simp [Token.isMarkup] at hmarkup

mutual

theorem properPiece_of_mem (item : Item) (hproper : item.Proper StartTag.Fits) :
    ∀ piece ∈ item.pieces, ProperPiece piece := by
  cases item with
  | words before first rest =>
      obtain ⟨hbefore, hfirst, hrest⟩ := hproper
      simp only [pieces, List.mem_singleton, forall_eq]
      exact ⟨hbefore, .inl ⟨first, rest, hfirst, hrest, rfl⟩⟩
  | leaf before kind content =>
      obtain ⟨hbefore, hkind, hfits⟩ := hproper
      simp only [pieces, List.mem_singleton, forall_eq]
      refine ⟨hbefore, .inr ⟨?_, hfits⟩⟩
      cases kind with
      | text => exact absurd rfl hkind
      | comment => rfl
      | verbatim => rfl
      | doctype => rfl
  | rawText before tag content close =>
      obtain ⟨hbefore, hfits, hnamed, hraw, hencloses, -⟩ := hproper
      simp only [pieces, List.mem_singleton, forall_eq]
      exact ⟨hbefore, .inr ⟨rfl, hfits, hnamed, hraw, hencloses⟩⟩
  | element short before tag children close =>
      obtain ⟨hbefore, hfits, hnamed, hplain, -, hchildren, hclose⟩ := hproper
      intro piece hmem
      rw [pieces, List.mem_cons, List.mem_append] at hmem
      rcases hmem with rfl | hmem | hmem
      · exact ⟨hbefore, .inr ⟨rfl, hfits, hnamed, hplain⟩⟩
      · exact properPiece_of_mem_all children hchildren piece hmem
      · cases close with
        | none => simp [closePieces] at hmem
        | some parted =>
            obtain ⟨hgap, hlegible⟩ := hclose parted rfl
            obtain rfl := List.mem_singleton.mp hmem
            exact ⟨hgap, .inr ⟨rfl, hlegible⟩⟩

/-- The pieces of proper items can be read back. -/
theorem properPiece_of_mem_all (items : List Item) (hproper : ProperAll StartTag.Fits items) :
    ∀ piece ∈ piecesOfAll items, ProperPiece piece := by
  cases items with
  | nil => simp [piecesOfAll]
  | cons item rest =>
      intro piece hmem
      rw [piecesOfAll, List.mem_append] at hmem
      rcases hmem with hmem | hmem
      · exact properPiece_of_mem item hproper.1 piece hmem
      · exact properPiece_of_mem_all rest hproper.2 piece hmem

end

end Item

namespace Token

theorem legible_of_fits {token : Token} (hmarkup : token.isMarkup = true) (hfits : token.Fits)
    (hclosed : ∀ tag content, token ≠ .rawElement tag content none) : token.Legible := by
  cases token with
  | text raw => simp [isMarkup] at hmarkup
  | unterminated construct raw => simp [isMarkup] at hmarkup
  | comment raw => exact hfits
  | cdata raw => exact hfits
  | declaration raw => exact hfits
  | startTag tag => exact legible_startTag hfits.1 hfits.2.1 hfits.2.2
  | endTag tag => exact legible_endTag hfits.1 hfits.2
  | rawElement tag content close =>
      cases close with
      | none => exact absurd rfl (hclosed tag content)
      | some close => exact legible_rawElement hfits.1 hfits.2.1 hfits.2.2.1 hfits.2.2.2

/-- Markup begins with an angle bracket. -/
theorem stopsAt_source {token : Token} (hmarkup : token.isMarkup = true) (hfits : token.Fits)
    (rest : List Char) : StopsAt Builder.inProse (token.source ++ rest) := by
  by_cases hclosed : ∀ tag content, token ≠ .rawElement tag content none
  · obtain ⟨tail, htail⟩ := (legible_of_fits hmarkup hfits hclosed).exists_source hmarkup
    simp [htail, Builder.inProse]
  · simp only [ne_eq, not_forall, not_not] at hclosed
    obtain ⟨tag, content, rfl⟩ := hclosed
    simp [source, StartTag.text, Builder.inProse]

end Token

namespace Builder

open Token

theorem stopsAt_blank_append {blanks rest : List Char} (hblank : allBlank blanks = true)
    (hrest : StopsAt inProse rest) : StopsAt inProse (blanks ++ rest) := by
  cases blanks with
  | nil => exact hrest
  | cons c others => simp [inProse, isBlank_of_mem hblank List.mem_cons_self]

theorem Legible.of_nesting {builder held : Builder} (hnesting : held.nesting = builder.nesting)
    (hlegible : builder.Legible) : held.Legible := by
  unfold Legible
  rw [hnesting]
  exact hlegible

theorem trunk_of_nesting {builder held : Builder} (hnesting : held.nesting = builder.nesting) :
    held.trunk = builder.trunk :=
  congrArg Nesting.trunk hnesting

/-- Prose is held back, and nothing else of the tree changes. -/
theorem exists_hold {builder : Builder} {last : Prop} {prose next : List Char}
    (hprose : Prose builder.trunk.Stray last prose) (hnext : StopsAt inProse next)
    (hlast : last → next = []) :
    ∃ held : Builder, builder.addAll (ofText (prose ++ next)) = held.addAll (ofText next) ∧
      held.nesting = builder.nesting ∧ held.waiting = builder.waiting ++ prose := by
  rw [← stray_eq] at hprose
  obtain ⟨reports, hreports⟩ := addAll_prose hprose hnext hlast
  exact ⟨_, hreports, rfl, rfl⟩

/-- Text at the end of the source is held back, and the document has its words. -/
theorem exists_final {builder : Builder} {prose : List Char}
    (hprose : Prose builder.trunk.Stray True prose) (hlegible : builder.Legible)
    (source : List Char) :
    ∃ final, builder.addAll (ofText prose) = .ok final ∧
      Node.shapeOfAll (final.document source).children =
        (builder.trunk.append (Item.ofProse (builder.waiting ++ prose))).finish := by
  obtain ⟨final, haddAll, hnesting, hwaiting⟩ := exists_hold hprose stopsAt_nil fun _ => rfl
  rw [List.append_nil, ofText, addAll_nil] at haddAll
  refine ⟨final, haddAll, ?_⟩
  rw [shapeOfAll_document (hlegible.of_nesting hnesting), hwaiting, trunk_of_nesting hnesting]

/-- Markup that has a place in the tree is added behind blanks. -/
theorem exists_added {builder : Builder} {trunk next : Trunk} {token : Token}
    {before rest : List Char} (hlegible : builder.Legible)
    (htrunk : builder.trunk.append (Item.ofProse builder.waiting) = trunk)
    (hbefore : allBlank before = true) (hmarkup : token.isMarkup = true) (hfits : token.Fits)
    (hstep : trunk.step? token.bare = some next) {after : List Char}
    (hread : ofText (token.source ++ rest) = token :: ofText after) :
    ∃ added : Builder, builder.addAll (ofText (before ++ (token.source ++ rest))) =
      added.addAll (ofText after) ∧ added.Legible ∧ added.trunk = next ∧ added.waiting = [] := by
  have hprose : Prose builder.trunk.Stray False before := prose_of_allBlank hbefore
  obtain ⟨held, haddAll, hnesting, hwaiting⟩ :=
    exists_hold hprose (stopsAt_source hmarkup hfits rest) False.elim
  have hheld := hlegible.of_nesting hnesting
  have hsame := trunk_of_nesting hnesting
  have hflush : held.flush.trunk = trunk := by
    rw [trunk_flush, hsame, hwaiting, Item.ofProse_congr
      (Item.units_append_blank hbefore _), htrunk]
  have hstray : ∀ tag, token = .endTag tag → ¬held.trunk.Stray tag.name := by
    rintro tag rfl hnone
    rw [← Trunk.stray_append _ (Item.ofProse held.waiting), ← trunk_flush, hflush] at hnone
    simp only [Token.bare, Trunk.step?] at hstep
    obtain ⟨count, hcount, -⟩ := Option.map_eq_some_iff.mp hstep
    rw [Trunk.Stray] at hnone
    exact absurd (hnone.symm.trans hcount) (by simp)
  have hadd := add_step hheld hmarkup hfits hstray
  rw [hflush, hstep] at hadd
  cases hadded : held.add token with
  | error failure => simp [hadded] at hadd
  | ok added =>
      rw [hadded] at hadd
      obtain ⟨heq, hempty⟩ := hadd
      refine ⟨added, ?_, legible_stable.add hfits hheld hadded, (Option.some.inj heq).symm, hempty⟩
      rw [haddAll, hread, addAll_cons _ hadded]

/-- Text in front of markup is held back, and has its place in the tree already. -/
theorem exists_held_words {builder : Builder} {before text next : List Char}
    (hlegible : builder.Legible) (hwaiting : builder.waiting = [])
    (hbefore : allBlank before = true) (hprose : Prose builder.trunk.Stray False text)
    (hnext : StopsAt inProse next) :
    ∃ held : Builder, builder.addAll (ofText (before ++ (text ++ next))) =
      held.addAll (ofText next) ∧
      held.Legible ∧ held.trunk.append (Item.ofProse held.waiting) =
        builder.trunk.append (Item.ofProse text) := by
  have hunits := Item.units_blank_append hbefore text
  obtain ⟨held, haddAll, hnesting, hheld⟩ :=
    exists_hold ((prose_congr hunits).mpr hprose) hnext False.elim
  refine ⟨held, by rw [← List.append_assoc, haddAll], hlegible.of_nesting hnesting, ?_⟩
  rw [trunk_of_nesting hnesting, hheld, hwaiting, List.nil_append, Item.ofProse_congr hunits]

/-- Text at the end of the source has its place in the document, whatever blanks are around it. -/
theorem exists_final_words {builder : Builder} {before text left : List Char}
    (hlegible : builder.Legible) (hwaiting : builder.waiting = [])
    (hbefore : allBlank before = true) (hprose : Prose builder.trunk.Stray True text)
    (hleft : allBlank left = true) (source : List Char) :
    ∃ final, builder.addAll (ofText (before ++ (text ++ left))) = .ok final ∧
      Node.shapeOfAll (final.document source).children =
        (builder.trunk.append (Item.ofProse text)).finish := by
  have hunits : (Run.ofText (before ++ (text ++ left))).units = (Run.ofText text).units := by
    rw [Item.units_blank_append hbefore, Item.units_append_blank hleft]
  obtain ⟨final, haddAll, hshape⟩ := exists_final ((prose_congr hunits).mpr hprose) hlegible source
  refine ⟨final, haddAll, ?_⟩
  rw [hshape, hwaiting, List.nil_append, Item.ofProse_congr hunits]

/-- Raw text without an end tag goes on to the end of the source. It takes up the blanks that are
left there, which change nothing about what is kept of it. -/
theorem exists_final_rawText {builder : Builder} {trunk next : Trunk} {before left : List Char}
    {tag : StartTag} {content : List Char} (hlegible : builder.Legible)
    (htrunk : builder.trunk.append (Item.ofProse builder.waiting) = trunk)
    (hbefore : allBlank before = true) (hfits : (Token.rawElement tag content none).Fits)
    (hstep : trunk.step? (Token.rawElement tag content none).bare = some next)
    (hleft : allBlank left = true) (source : List Char) :
    ∃ final, builder.addAll
        (ofText (before ++ ((Token.rawElement tag content none).source ++ left))) = .ok final ∧
      Node.shapeOfAll (final.document source).children = next.finish := by
  obtain ⟨htag, hnamed, hraw, hencloses⟩ := hfits
  have hname : ∀ c ∈ tag.name, isBlank c = false := fun c hmem => by
    have hin := htag.name c hmem
    simp only [Attribute.inTagName, Bool.and_eq_true, Bool.not_eq_true'] at hin
    exact hin.1.1
  have hlonger : Encloses tag.name (content ++ left) none :=
    (encloses_none_append_blank hname hleft content).mpr hencloses
  have hread : ofText ((Token.rawElement tag (content ++ left) none).source ++ []) =
      .rawElement tag (content ++ left) none :: ofText [] := by
    rw [List.append_nil, Token.source, closeText, List.append_nil,
      ofText_rawElement htag hnamed hraw, hlonger]
  have hbare : (Token.rawElement tag (content ++ left) none).bare =
      (Token.rawElement tag content none).bare := by
    simp [Token.bare, keptContent, splitTail_append_blank hleft]
  rw [← hbare] at hstep
  have hfits : (Token.rawElement tag (content ++ left) none).Fits := ⟨htag, hnamed, hraw, hlonger⟩
  obtain ⟨final, haddAll, hfinal, hnext, hempty⟩ :=
    exists_added hlegible htrunk hbefore rfl hfits hstep hread
  refine ⟨final, ?_, ?_⟩
  · rw [List.append_nil, ofText, addAll_nil] at haddAll
    simpa [Token.source, closeText] using haddAll
  · rw [shapeOfAll_document hfinal, hempty, Item.ofProse_nil, Trunk.append_nil, hnext]

/-- Pieces of which the first is markup begin where prose ends. -/
theorem stopsAt_textOfPieces {piece : List Char × Token} {others : List (List Char × Token)}
    (hpiece : Item.ProperPiece piece) (hmarkup : piece.2.isMarkup = true) (left : List Char) :
    StopsAt inProse (Item.textOfPieces (piece :: others) ++ left) := by
  have hstop := stopsAt_blank_append hpiece.1
    (stopsAt_source hmarkup (hpiece.fits hmarkup) (Item.textOfPieces others ++ left))
  simpa [Item.textOfPieces] using hstop

/-- Pieces whose bare tokens are walked over are read, and make the shape that the walk makes. -/
theorem addAll_of_accepts {trunk : Trunk} {tokens : List Token} {result : List Item}
    (haccepts : Accepts trunk tokens result) {pieces : List (List Char × Token)}
    (htokens : (pieces.map fun piece => piece.2.bare) = tokens)
    (hproper : ∀ piece ∈ pieces, Item.ProperPiece piece) {left : List Char}
    (hleft : allBlank left = true) {builder : Builder} (hlegible : builder.Legible)
    (htrunk : builder.trunk.append (Item.ofProse builder.waiting) = trunk)
    (hwaiting : ∀ raw, tokens.head? = some (.text raw) → builder.waiting = [])
    (source : List Char) :
    ∃ final, builder.addAll (ofText (Item.textOfPieces pieces ++ left)) = .ok final ∧
      Node.shapeOfAll (final.document source).children = result := by
  -- the walk is over the bare tokens, and the builder has put into the tree what the trunk has
  induction haccepts generalizing pieces builder with
  | done trunk =>
      obtain rfl : pieces = [] := by simpa using htokens
      obtain ⟨final, haddAll, hshape⟩ := exists_final (prose_of_allBlank hleft) hlegible source
      refine ⟨final, haddAll, ?_⟩
      rw [hshape, Item.ofProse_congr (Item.units_append_blank hleft _), htrunk]
  | @prose trunk raw rest result hraw hprose hhead hrest ih =>
      obtain ⟨⟨before, token⟩, others, rfl, hbare, hmore⟩ := List.map_eq_cons_iff.mp htokens
      obtain ⟨hpiece, hothers⟩ := List.forall_mem_cons.mp hproper
      obtain ⟨text, rfl, rfl⟩ : ∃ text, token = .text text ∧
          unwords (Run.ofText text).units = raw :=
        hpiece.exists_text hbare
      have hempty := hwaiting _ rfl
      rw [hempty, Item.ofProse_nil, Trunk.append_nil] at htrunk
      rw [prose_unwords_iff, ← htrunk] at hprose
      rw [Item.ofProse_unwords, ← htrunk] at hrest ih
      have htext : Item.textOfPieces ((before, Token.text text) :: others) ++ left =
          before ++ (text ++ (Item.textOfPieces others ++ left)) := by
        simp [Item.textOfPieces, Token.source]
      rw [htext]
      cases others with
      | nil =>
          obtain rfl : [] = rest := hmore
          cases hrest
          exact exists_final_words hlegible hempty hpiece.1
            (hprose.mono fun _ => trivial) hleft source
      | cons following more =>
          -- there is markup behind the prose, so nothing in the prose is cut off by the end
          obtain rfl : following.2.bare :: (more.map fun piece => piece.2.bare) = rest := hmore
          have hmarkup := (isMarkup_bare following.2).symm.trans (hhead _ rfl)
          obtain ⟨held, haddAll, hheld, hsame⟩ := exists_held_words hlegible hempty hpiece.1
            (hprose.mono (List.cons_ne_nil _ _))
            (stopsAt_textOfPieces (hothers following List.mem_cons_self) hmarkup left)
          rw [haddAll]
          refine ih rfl hothers hheld hsame fun raw hraw => ?_
          have hfalse := hhead (.text raw) hraw
          simp [isMarkup] at hfalse
  | @markup trunk next bare rest result hmarkup hendless hstep hrest ih =>
      obtain ⟨⟨before, token⟩, others, rfl, rfl, hmore⟩ := List.map_eq_cons_iff.mp htokens
      obtain ⟨hpiece, hothers⟩ := List.forall_mem_cons.mp hproper
      rw [isMarkup_bare] at hmarkup
      have hfits : token.Fits := hpiece.fits hmarkup
      have htext : Item.textOfPieces ((before, token) :: others) ++ left =
          before ++ (token.source ++ (Item.textOfPieces others ++ left)) := by
        simp [Item.textOfPieces]
      rw [htext]
      by_cases hclosed : ∀ tag content, token ≠ .rawElement tag content none
      · obtain ⟨added, haddAll, hadded, hnext, hempty⟩ :=
          exists_added hlegible htrunk hpiece.1 hmarkup hfits hstep
            (legible_of_fits hmarkup hfits hclosed (Item.textOfPieces others ++ left))
        rw [haddAll]
        refine ih hmore hothers hadded ?_ fun _ _ => hempty
        rw [hnext, hempty, Item.ofProse_nil, Trunk.append_nil]
      · simp only [ne_eq, not_forall, not_not] at hclosed
        obtain ⟨tag, content, rfl⟩ := hclosed
        obtain rfl := hendless tag.bare (keptContent content none) rfl
        obtain rfl := List.map_eq_nil_iff.mp hmore
        cases hrest
        exact exists_final_rawText hlegible htrunk hpiece.1 hfits hstep hleft source

end Builder

/-- Items that can be read back, and have the shape of a document, are read as a document of that
shape. -/
theorem exists_parse_of_shape {text : List Char} {document : Document}
    (hparse : parse text = .ok document) {items : List Item}
    (hproper : Item.ProperAll StartTag.Fits items)
    (hshape : Item.bareAll items = Node.shapeOfAll document.children) {left : List Char}
    (hleft : allBlank left = true) :
    ∃ again, parse (Item.textOfAll items ++ left) = .ok again ∧
      Node.shapeOfAll again.children = Node.shapeOfAll document.children := by
  obtain ⟨builder, haddAll, rfl⟩ := parse_eq_ok_iff.mp hparse
  have hlegible : Builder.Legible {} := Builder.legible_stable.start
  obtain ⟨tokens, haccepts, -⟩ := Builder.exists_accepts text hlegible rfl haddAll text
  have htokens : (Item.piecesOfAll items).map (fun piece => piece.2.bare) = tokens := by
    rw [← Item.tokensOfAll_bareAll hproper, hshape, haccepts.tokens]
    rfl
  have hstart : (Builder.trunk {}).append (Item.ofProse []) = Builder.trunk {} := by
    rw [Item.ofProse_nil, Trunk.append_nil]
  obtain ⟨final, hfinal, hagain⟩ := Builder.addAll_of_accepts haccepts htokens
    (Item.properPiece_of_mem_all items hproper) hleft hlegible hstart (fun _ _ => rfl)
    (Item.textOfAll items ++ left)
  rw [← Item.textOfAll_eq_textOfPieces] at hfinal
  exact ⟨_, parse_eq_ok_iff.mpr ⟨final, hfinal, rfl⟩, hagain⟩

end Markup
