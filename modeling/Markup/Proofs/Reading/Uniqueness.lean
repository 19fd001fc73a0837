import Markup.Proofs.Tag.Layout
import Markup.Proofs.Tree.Shape

/-!
# One text has one outline

Items that have the same text and are alike but for blanks, quotes and the way tags are written are
the same items. They are compared from left to right: blanks go as far as they can, and every tag,
word and piece of copied text ends where it ends. Content that is copied can be sealed first, so
that nothing needs to be known of what it is made of. Main statement: `Item.textOfAll_append_inj`.
-/

namespace Markup

open Markup.Text

/-! ## Texts that can be told apart -/

theorem Text.blank_append_inj {blanks others first second : List Char}
    (hblanks : allBlank blanks = true) (hothers : allBlank others = true)
    (hfirst : StopsAt isBlank first) (hsecond : StopsAt isBlank second)
    (htext : blanks ++ first = others ++ second) : blanks = others ∧ first = second := by
  have htaken := congrArg (List.takeWhile isBlank) htext
  rw [takeWhile_run (fun _ => isBlank_of_mem hblanks) hfirst,
    takeWhile_run (fun _ => isBlank_of_mem hothers) hsecond] at htaken
  subst htaken
  exact ⟨rfl, List.append_cancel_left htext⟩

theorem Text.Solid.stopsAt {word : List Char} (hsolid : Solid word) (rest : List Char) :
    StopsAt isBlank (word ++ rest) := by
  obtain ⟨c, tail, rfl⟩ := List.exists_cons_of_ne_nil hsolid.1
  rw [List.cons_append, stopsAt_cons]
  exact hsolid.2 c List.mem_cons_self

theorem Text.wordsText_append_inj {first : List Char} {rest others : List (List Char × List Char)}
    (hrest : Parted rest) (hothers : Parted others) (hwords : rest.map (·.2) = others.map (·.2))
    {left right : List Char}
    (htext : wordsText first rest ++ left = wordsText first others ++ right) :
    rest = others ∧ left = right := by
  simp only [wordsText, List.append_assoc, List.append_cancel_left_eq] at htext
  induction rest generalizing others with
  | nil =>
      obtain rfl := List.map_eq_nil_iff.mp hwords.symm
      exact ⟨rfl, htext⟩
  | cons parted more ih =>
      obtain ⟨other, further, rfl, hword, hmore⟩ := List.map_eq_cons_iff.mp hwords.symm
      obtain ⟨⟨-, hblank, hsolid⟩, hpartedMore⟩ := List.forall_mem_cons.mp hrest
      obtain ⟨⟨-, hblankOther, hsolidOther⟩, hpartedFurther⟩ := List.forall_mem_cons.mp hothers
      simp only [List.flatMap_cons, List.append_assoc] at htext
      obtain ⟨hgap, htail⟩ := blank_append_inj hblank hblankOther (hsolid.stopsAt _)
        (hsolidOther.stopsAt _) htext
      rw [hword, List.append_cancel_left_eq] at htail
      obtain ⟨rfl, hleft⟩ := ih hpartedMore hpartedFurther hmore.symm htail
      exact ⟨by rw [Prod.ext hgap hword.symm], hleft⟩

theorem EndTag.raw_append_inj {tag other : EndTag} (hfits : tag.Fits) (hother : other.Fits)
    {left right : List Char} (htext : tag.raw ++ left = other.raw ++ right) :
    tag = other ∧ left = right := by
  obtain ⟨body, hbody, rfl⟩ := hfits
  obtain ⟨inner, hinner, rfl⟩ := hother
  have htail : body ++ '>' :: left = inner ++ '>' :: right := by
    simpa [Token.endTagOf] using htext
  have hsplit : splitAround ['>'] (body ++ '>' :: left) = some (body, left) :=
    splitAround_singleton_iff.mpr ⟨hbody, rfl⟩
  rw [splitAround_singleton_iff.mpr ⟨hinner, htail⟩] at hsplit
  obtain ⟨rfl, rfl⟩ := Prod.mk.inj (Option.some.inj hsplit)
  exact ⟨rfl, rfl⟩

namespace StartTag

theorem text_append_inj {tag other : StartTag} (hfits : tag.Fits) (hother : other.Fits)
    {left right : List Char} (htext : tag.text ++ left = other.text ++ right) :
    tag = other ∧ left = right := by
  have hbody : tag.body ++ left = other.body ++ right := (List.cons.inj htext).2
  have hread := read?_eq_some_iff.mpr ⟨hfits, (rfl : tag.body ++ left = _)⟩
  rw [read?_eq_some_iff.mpr ⟨hother, hbody⟩] at hread
  obtain ⟨rfl, rfl⟩ := Prod.mk.inj (Option.some.inj hread)
  exact ⟨rfl, rfl⟩

theorem bare_bare (tag : StartTag) : tag.bare.bare = tag.bare := by
  simp [bare, Attribute.bare, Function.comp_def]

/-- A start tag that is read back, be it as it is or as another one. -/
def Readable (tag : StartTag) : Prop :=
  tag.Fits ∨ tag.Twin

/-- A tag is not read back as another one where its end is. -/
theorem Readable.text_append_inj {tag other : StartTag} (hfits : tag.Fits) (hother : other.Readable)
    (hsame : tag.bare = other.bare) {left right : List Char}
    (htext : tag.text ++ left = other.text ++ right) : tag = other ∧ left = right := by
  rcases hother with hother | ⟨twin, htwin, htwinText, hending⟩
  · exact StartTag.text_append_inj hfits hother htext
  · rw [← htwinText] at htext
    obtain ⟨rfl, -⟩ := StartTag.text_append_inj hfits htwin htext
    exact absurd (congrArg StartTag.ending hsame) hending

end StartTag

/-! ## What items are made of -/

/-- An end tag of which nothing is known. -/
def EndTag.unknown : EndTag :=
  ⟨[], []⟩

namespace Item

mutual

/-- An item without its blanks, its quotes, its note and what end tags are written as. -/
def outer : Item → Item
  | words _ first rest => words [] first (rest.map fun (_, word) => ([], word))
  | leaf _ kind content => leaf [] kind content
  | rawText _ tag content close => rawText [] tag.bare content (close.map fun _ => .unknown)
  | element _ _ tag children close =>
      element true [] tag.bare (outerAll children) (close.map fun _ => ([], .unknown))

def outerAll : List Item → List Item
  | [] => []
  | item :: rest => outer item :: outerAll rest

end

mutual

/-- An item without its note. -/
def unnoted : Item → Item
  | element _ before tag children close => element true before tag (unnotedAll children) close
  | item => item

def unnotedAll : List Item → List Item
  | [] => []
  | item :: rest => unnoted item :: unnotedAll rest

end

mutual

theorem text_unnoted (item : Item) : text item.unnoted = text item := by
  cases item with
  | words before first rest => rfl
  | leaf before kind content => rfl
  | rawText before tag content close => rfl
  | element short before tag children close =>
      simp only [unnoted, text, textOfAll_unnotedAll children]

theorem textOfAll_unnotedAll (items : List Item) :
    textOfAll (unnotedAll items) = textOfAll items := by
  cases items with
  | nil => rfl
  | cons item rest =>
      rw [unnotedAll, textOfAll, textOfAll, text_unnoted item, textOfAll_unnotedAll rest]

end

mutual

/-- An item whose parts can be told apart, given what is known of its start tags, and of the end
tags of raw text. -/
def Apart (Holds : StartTag → Prop) (Closes : EndTag → Prop) : Item → Prop
  | words before first rest => allBlank before = true ∧ Solid first ∧ Parted rest
  | leaf before _ content => allBlank before = true ∧ content ≠ [] ∧ StopsAt isBlank content
  | rawText before tag _ close => allBlank before = true ∧ Holds tag ∧ ∀ tag ∈ close, Closes tag
  | element _ before tag children close =>
      allBlank before = true ∧ Holds tag ∧ ApartAll Holds Closes children ∧
        ∀ parted ∈ close, allBlank parted.1 = true ∧ parted.2.Fits

def ApartAll (Holds : StartTag → Prop) (Closes : EndTag → Prop) : List Item → Prop
  | [] => True
  | item :: rest => Apart Holds Closes item ∧ ApartAll Holds Closes rest

end

/-! ## Comparing texts -/

section Comparing

variable {Closes : EndTag → Prop}

theorem stopsAt_leaf {content : List Char} (hne : content ≠ []) (hstop : StopsAt isBlank content)
    (rest : List Char) : StopsAt isBlank (content ++ rest) := by
  obtain ⟨c, tail, rfl⟩ := List.exists_cons_of_ne_nil hne
  exact stopsAt_cons.mpr (stopsAt_cons.mp hstop)

theorem stopsAt_tag (tag : StartTag) (rest : List Char) : StopsAt isBlank (tag.text ++ rest) := by
  rw [StartTag.text, List.cons_append, stopsAt_cons]
  decide

theorem stopsAt_endTag {tag : EndTag} (hfits : tag.Fits) (rest : List Char) :
    StopsAt isBlank (tag.raw ++ rest) := by
  obtain ⟨body, -, rfl⟩ := hfits
  rw [Token.endTagOf, List.cons_append, stopsAt_cons]
  decide

theorem closeText_append_inj {close other : Option (List Char × EndTag)}
    (hclose : ∀ parted ∈ close, allBlank parted.1 = true ∧ parted.2.Fits)
    (hother : ∀ parted ∈ other, allBlank parted.1 = true ∧ parted.2.Fits)
    (hsame : close.isSome = other.isSome) {left right : List Char}
    (htext : closeText close ++ left = closeText other ++ right) :
    close = other ∧ left = right := by
  cases close with
  | none =>
      obtain rfl : other = none := by simpa using hsame.symm
      exact ⟨rfl, htext⟩
  | some parted =>
      obtain ⟨found, rfl⟩ := Option.isSome_iff_exists.mp hsame.symm
      obtain ⟨hblank, hfits⟩ := hclose parted rfl
      obtain ⟨hblankFound, hfitsFound⟩ := hother found rfl
      simp only [closeText, List.append_assoc] at htext
      obtain ⟨hgap, htail⟩ := blank_append_inj hblank hblankFound (stopsAt_endTag hfits _)
        (stopsAt_endTag hfitsFound _) htext
      obtain ⟨htag, hleft⟩ := EndTag.raw_append_inj hfits hfitsFound htail
      exact ⟨by rw [Prod.ext hgap htag], hleft⟩

/-- End tags that end where they end. -/
def Tells (Closes : EndTag → Prop) : Prop :=
  ∀ {tag other : EndTag}, Closes tag → Closes other → ∀ {left right : List Char},
    tag.raw ++ left = other.raw ++ right → tag = other ∧ left = right

theorem rawClose_append_inj (hcloses : Tells Closes) {close other : Option EndTag}
    (hclose : ∀ tag ∈ close, Closes tag)
    (hother : ∀ tag ∈ other, Closes tag) (hsame : close.isSome = other.isSome)
    {left right : List Char}
    (htext : Token.closeText close ++ left = Token.closeText other ++ right) :
    close = other ∧ left = right := by
  cases close with
  | none =>
      obtain rfl : other = none := by simpa using hsame.symm
      exact ⟨rfl, htext⟩
  | some tag =>
      obtain ⟨found, rfl⟩ := Option.isSome_iff_exists.mp hsame.symm
      obtain ⟨rfl, hleft⟩ := hcloses (hclose tag rfl) (hother found rfl) htext
      exact ⟨rfl, hleft⟩

mutual

theorem text_append_inj (hcloses : Tells Closes) (item other : Item)
    (hitem : item.Apart StartTag.Fits Closes) (hother : other.Apart StartTag.Readable Closes)
    (hsame : outer item = outer other) {left right : List Char}
    (htext : text item ++ left = text other ++ right) :
    unnoted item = unnoted other ∧ left = right := by
  cases item with
  | words before first rest =>
      cases other with
      | words between second others =>
          obtain ⟨hbefore, hfirst, hrest⟩ := hitem
          obtain ⟨hbetween, hsecond, hothers⟩ := hother
          simp only [outer, words.injEq, true_and] at hsame
          obtain ⟨rfl, hwords⟩ := hsame
          have hwords : rest.map (·.2) = others.map (·.2) := by
            simpa [List.map_map, Function.comp_def] using congrArg (List.map Prod.snd) hwords
          simp only [text, List.append_assoc] at htext
          obtain ⟨rfl, htail⟩ := blank_append_inj hbefore hbetween
            (by simpa [wordsText] using hfirst.stopsAt _)
              (by simpa [wordsText] using hsecond.stopsAt _)
            htext
          obtain ⟨rfl, hleft⟩ := wordsText_append_inj hrest hothers hwords htail
          exact ⟨rfl, hleft⟩
      | leaf _ _ _ => simp [outer] at hsame
      | rawText _ _ _ _ => simp [outer] at hsame
      | element _ _ _ _ _ => simp [outer] at hsame
  | leaf before kind content =>
      cases other with
      | words _ _ _ => simp [outer] at hsame
      | leaf between other found =>
          obtain ⟨hbefore, hne, hstop⟩ := hitem
          simp only [outer, leaf.injEq, true_and] at hsame
          obtain ⟨rfl, rfl⟩ := hsame
          simp only [text, List.append_assoc] at htext
          obtain ⟨rfl, htail⟩ := blank_append_inj hbefore hother.1 (stopsAt_leaf hne hstop _)
            (stopsAt_leaf hne hstop _) htext
          exact ⟨rfl, List.append_cancel_left htail⟩
      | rawText _ _ _ _ => simp [outer] at hsame
      | element _ _ _ _ _ => simp [outer] at hsame
  | rawText before tag content close =>
      cases other with
      | words _ _ _ => simp [outer] at hsame
      | leaf _ _ _ => simp [outer] at hsame
      | rawText between found inner ending =>
          obtain ⟨hbefore, hfits, hclose⟩ := hitem
          obtain ⟨hbetween, hreadable, hending⟩ := hother
          simp only [outer, rawText.injEq, true_and] at hsame
          obtain ⟨hbare, rfl, hclosed⟩ := hsame
          simp only [text, List.append_assoc] at htext
          obtain ⟨rfl, htail⟩ := blank_append_inj hbefore hbetween (stopsAt_tag _ _)
            (stopsAt_tag _ _) htext
          obtain ⟨rfl, hinside⟩ := hreadable.text_append_inj hfits hbare htail
          obtain ⟨rfl, hleft⟩ := rawClose_append_inj hcloses hclose hending
            (by simpa using congrArg Option.isSome hclosed) (List.append_cancel_left hinside)
          exact ⟨rfl, hleft⟩
      | element _ _ _ _ _ => simp [outer] at hsame
  | element short before tag children close =>
      cases other with
      | words _ _ _ => simp [outer] at hsame
      | leaf _ _ _ => simp [outer] at hsame
      | rawText _ _ _ _ => simp [outer] at hsame
      | element note between found inner ending =>
          obtain ⟨hbefore, hfits, hchildren, hclose⟩ := hitem
          obtain ⟨hbetween, hreadable, hinner, hending⟩ := hother
          simp only [outer, element.injEq, true_and] at hsame
          obtain ⟨hbare, hinside, hclosed⟩ := hsame
          simp only [text, List.append_assoc] at htext
          obtain ⟨rfl, htail⟩ := blank_append_inj hbefore hbetween (stopsAt_tag _ _)
            (stopsAt_tag _ _) htext
          obtain ⟨rfl, htail⟩ := hreadable.text_append_inj hfits hbare htail
          obtain ⟨hunnoted, htail⟩ := textOfAll_append_inj hcloses children inner hchildren hinner
            hinside (List.append_cancel_left htail)
          obtain ⟨rfl, hleft⟩ := closeText_append_inj hclose hending
            (by simpa using congrArg Option.isSome hclosed) htail
          exact ⟨by rw [unnoted, unnoted, hunnoted], hleft⟩

/-- Items with the same text that are alike are the same, up to their notes. -/
theorem textOfAll_append_inj (hcloses : Tells Closes) (items others : List Item)
    (hitems : ApartAll StartTag.Fits Closes items)
    (hothers : ApartAll StartTag.Readable Closes others) (hsame : outerAll items = outerAll others)
    {left right : List Char} (htext : textOfAll items ++ left = textOfAll others ++ right) :
    unnotedAll items = unnotedAll others ∧ left = right := by
  cases items with
  | nil =>
      cases others with
      | nil => exact ⟨rfl, htext⟩
      | cons other rest => simp [outerAll] at hsame
  | cons item rest =>
      cases others with
      | nil => simp [outerAll] at hsame
      | cons other more =>
          simp only [outerAll, List.cons.injEq] at hsame
          simp only [textOfAll, List.append_assoc] at htext
          obtain ⟨hfirst, htail⟩ := text_append_inj hcloses item other hitems.1 hothers.1
            hsame.1 htext
          obtain ⟨hrest, hleft⟩ :=
            textOfAll_append_inj hcloses rest more hitems.2 hothers.2 hsame.2 htail
          exact ⟨by rw [unnotedAll, unnotedAll, hfirst, hrest], hleft⟩

end

end Comparing

/-! ## What is proper can be told apart -/

theorem solid_of_fits {kind : LeafKind} {content : List Char} (hkind : kind ≠ .text)
    (hfits : (Token.ofLeaf kind content).Fits) : content ≠ [] ∧ StopsAt isBlank content := by
  obtain ⟨hmarkup, hlegible⟩ := Token.legible_ofLeaf hkind hfits
  obtain ⟨tail, htail⟩ := hlegible.exists_source hmarkup
  rw [Token.source_ofLeaf] at htail
  rw [htail, stopsAt_cons]
  exact ⟨by simp, by decide⟩

mutual

theorem Proper.apart {Holds : StartTag → Prop} {item : Item} (hproper : item.Proper Holds) :
    item.Apart Holds EndTag.Fits := by
  cases item with
  | words before first rest => exact hproper
  | leaf before kind content =>
      obtain ⟨hbefore, hkind, hfits⟩ := hproper
      exact ⟨hbefore, solid_of_fits hkind hfits⟩
  | rawText before tag content close =>
      obtain ⟨hbefore, hholds, -, -, hencloses, -⟩ := hproper
      refine ⟨hbefore, hholds, fun tag hclose => ?_⟩
      obtain rfl := hclose
      exact hencloses.1
  | element short before tag children close =>
      obtain ⟨hbefore, hholds, -, -, -, hchildren, hclose⟩ := hproper
      exact ⟨hbefore, hholds, ProperAll.apart hchildren, fun parted hmem =>
        ⟨(hclose parted hmem).1, (hclose parted hmem).2.1⟩⟩

theorem ProperAll.apart {Holds : StartTag → Prop} {items : List Item}
    (hproper : ProperAll Holds items) : ApartAll Holds EndTag.Fits items := by
  cases items with
  | nil => trivial
  | cons item rest => exact ⟨Proper.apart hproper.1, ProperAll.apart hproper.2⟩

end

mutual

theorem outer_bare (item : Item) : outer item.bare = outer item := by
  cases item with
  | words before first rest => simp [bare, outer]
  | leaf before kind content => rfl
  | rawText before tag content close => simp [bare, outer, StartTag.bare_bare, Function.comp_def]
  | element short before tag children close =>
      simp [bare, outer, StartTag.bare_bare, outerAll_bareAll children, Function.comp_def]

theorem outerAll_bareAll (items : List Item) : outerAll (bareAll items) = outerAll items := by
  cases items with
  | nil => rfl
  | cons item rest => rw [bareAll, outerAll, outerAll, outer_bare item, outerAll_bareAll rest]

end

/-! ## Sealing -/

mutual

/-- An item in which the content of some elements is sealed, end tags included: only its text is
left. -/
def sealed (seals : StartTag → Bool) : Item → Item
  | rawText before tag content close =>
      rawText before tag (content ++ Token.closeText close) (close.map fun _ => .unknown)
  | element short before tag children close =>
      if seals tag then
        rawText before tag (textOfAll children ++ closeText close) (close.map fun _ => .unknown)
      else element short before tag (sealedAll seals children) close
  | item => item

def sealedAll (seals : StartTag → Bool) : List Item → List Item
  | [] => []
  | item :: rest => sealed seals item :: sealedAll seals rest

end

variable {seals : StartTag → Bool}

mutual

theorem text_sealed (item : Item) : text (item.sealed seals) = text item := by
  cases item with
  | words before first rest => rfl
  | leaf before kind content => rfl
  | rawText before tag content close =>
      cases close <;> simp [sealed, text, Token.closeText, EndTag.unknown]
  | element short before tag children close =>
      unfold sealed
      split
      next =>
        cases close <;> simp [text, closeText, Token.closeText, EndTag.unknown]
      next => simp only [text, textOfAll_sealedAll children]

/-- Sealing does not change the text. -/
theorem textOfAll_sealedAll (items : List Item) :
    textOfAll (sealedAll seals items) = textOfAll items := by
  cases items with
  | nil => rfl
  | cons item rest =>
      rw [sealedAll, textOfAll, textOfAll, text_sealed item, textOfAll_sealedAll rest]

end

mutual

theorem Apart.sealed {Holds : StartTag → Prop} {Closes : EndTag → Prop} {item : Item}
    (hapart : item.Apart Holds Closes) : (item.sealed seals).Apart Holds (· = .unknown) := by
  cases item with
  | words before first rest => exact hapart
  | leaf before kind content => exact hapart
  | rawText before tag content close =>
      refine ⟨hapart.1, hapart.2.1, fun tag hmem => ?_⟩
      obtain ⟨-, -, rfl⟩ := Option.map_eq_some_iff.mp hmem
      rfl
  | element short before tag children close =>
      obtain ⟨hbefore, hholds, hchildren, hclose⟩ := hapart
      unfold Item.sealed
      split
      next =>
        refine ⟨hbefore, hholds, fun tag hmem => ?_⟩
        obtain ⟨-, -, rfl⟩ := Option.map_eq_some_iff.mp hmem
        rfl
      next => exact ⟨hbefore, hholds, ApartAll.sealed hchildren, hclose⟩

theorem ApartAll.sealed {Holds : StartTag → Prop} {Closes : EndTag → Prop} {items : List Item}
    (hapart : ApartAll Holds Closes items) :
    ApartAll Holds (· = .unknown) (sealedAll seals items) := by
  cases items with
  | nil => trivial
  | cons item rest => exact ⟨Apart.sealed hapart.1, ApartAll.sealed hapart.2⟩

end

end Item

end Markup
