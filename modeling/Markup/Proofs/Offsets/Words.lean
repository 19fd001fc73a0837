import Mathlib.Data.List.Chain
import Markup.Proofs.Text.Words
import Markup.Proofs.Offsets.Slice

/-!
# Running text by byte offsets

Running text is cut into fragments by a reader that goes on byte by byte and holds the offset of the
last cut, and the fragments are cut into words by the indices between which they stand. Both readers
give nothing as soon as a cut goes wrong. Main statements: `fragments?_eq` and `parts?_eq`, by which
no cut does, and the fragments and the words are those of the text.
-/

namespace Markup.Text

/-! ## Columns -/

/-- The column behind a text, of which only what follows the last line feed is cut out. -/
def columnAfter? (column : Nat) (text : List Char) : Option Nat :=
  match findLineFeed? text with
  | some i => (sliceFrom? text (i + 1)).map List.length
  | none => some (column + text.length)

theorem columnAfter?_eq (column : Nat) (text : List Char) :
    columnAfter? column text = some (columnAfter column text) := by
  unfold columnAfter? findLineFeed?
  by_cases hmem : '\n' ∈ text
  · have hparts : beforeLastLine text ++ ['\n'] ++ lastLine text = text := by
      simpa using beforeLastLine_append_lastLine hmem
    have hslice := sliceFrom?_append (beforeLastLine text ++ ['\n']) (lastLine text)
    rw [hparts, byteSize_append] at hslice
    have hfound : text.contains '\n' = true := by simpa using hmem
    have hsize : byteSize ['\n'] = 1 := rfl
    rw [hsize] at hslice
    rw [if_pos hfound, columnAfter_of_mem hmem]
    show (sliceFrom? text (byteSize (beforeLastLine text) + 1)).map List.length = _
    rw [hslice]
    rfl
  · have hfound : ¬text.contains '\n' = true := by simpa using hmem
    rw [if_neg hfound, columnAfter_of_not_mem hmem]

/-! ## Fragments -/

/-- The characters between the last cut and an offset, as a fragment if there are any. -/
def held? (raw : List Char) (start offset : Nat) : Option (List Fragment) :=
  if start < offset then (slice? raw start offset).map fun held =>
    [⟨.characters, held⟩] else some []

/-- Number of bytes of the character reference at the start of these bytes, if they begin with
one. -/
def entityWidth? (bytes : List Char) : Option Nat :=
  (splitEntity (bytes.drop 1)).map fun (body, _) => body.length + 1

/-- Reads fragments from a byte offset on, given the offset of the last cut. No more bytes are
looked at than the limit. -/
def fragmentsFrom? (raw : List Char) : Nat → Nat → Nat → Option (List Fragment)
  | 0, _, _ => none
  | limit + 1, start, offset =>
      match (octets raw)[offset]? with
      | none => held? raw start (byteSize raw)
      | some b =>
          if isBlank b then do
            let held ← held? raw start offset
            let stop := scan isBlank raw offset
            let blanks ← slice? raw offset stop
            let rest ← fragmentsFrom? raw limit stop stop
            return held ++ ⟨.blank, blanks⟩ :: rest
          else if b = '&' then do
            let bytes ← range? (octets raw) offset (byteSize raw)
            match entityWidth? bytes with
            | none => fragmentsFrom? raw limit start (offset + 1)
            | some width => do
                let held ← held? raw start offset
                let entity ← slice? raw offset (offset + width)
                let rest ← fragmentsFrom? raw limit (offset + width) (offset + width)
                return held ++ ⟨.entity, entity⟩ :: rest
          else fragmentsFrom? raw limit start (offset + 1)

/-- Reads running text as fragments. -/
def fragments? (raw : List Char) : Option (List Fragment) :=
  fragmentsFrom? raw (byteSize raw + 1) 0 0

/-- Characters that stand in front of other fragments, as a fragment if there are any. -/
def heldFragment : List Char → List Fragment
  | [] => []
  | c :: rest => [⟨.characters, c :: rest⟩]

theorem held?_of_eq {raw before held after : List Char} (hraw : raw = before ++ (held ++ after)) :
    held? raw (byteSize before) (byteSize (before ++ held)) = some (heldFragment held) := by
  unfold held?
  rw [slice?_of_eq (hraw.trans (List.append_assoc before held after).symm), byteSize_append]
  cases held with
  | nil => simp [heldFragment]
  | cons c rest =>
      have hpos := c.utf8Size_pos
      rw [if_pos (by rw [byteSize_cons]; omega)]
      rfl

/-- Characters in front of a fragment of another kind are a fragment of their own. -/
theorem foldr_pushCharacter {piece : Fragment} (hkind : piece.kind ≠ .characters)
    (rest : List Fragment) (held : List Char) :
    held.foldr pushCharacter (piece :: rest) = heldFragment held ++ piece :: rest := by
  induction held with
  | nil => rfl
  | cons c held ih =>
      rw [List.foldr_cons, ih]
      cases held with
      | nil => exact pushCharacter_cons_of_ne hkind c rest
      | cons d tail => rfl

theorem foldr_pushCharacter_nil (held : List Char) :
    held.foldr pushCharacter [] = heldFragment held := by
  induction held with
  | nil => rfl
  | cons c held ih =>
      rw [List.foldr_cons, ih]
      cases held <;> rfl

theorem octets_eq_nil_iff {text : List Char} : octets text = [] ↔ text = [] := by
  cases text with
  | nil => simp
  | cons c rest => simp [octets_cons c rest, octets_singleton_ne_nil]

theorem splitReference_eq_ite (inClass : Char → Bool) (text : List Char) :
    splitReference inClass text =
      if text.takeWhile inClass ≠ [] ∧ (text.dropWhile inClass).head? = some ';' then
        some (text.takeWhile inClass ++ [';'], (text.dropWhile inClass).tail) else none := by
  unfold splitReference
  split
  next c body after hrun htail => simp [hrun, htail]
  next hnone =>
    apply (if_neg ?_).symm
    rintro ⟨hrun, htail⟩
    obtain ⟨c, body, hrun⟩ := List.exists_cons_of_ne_nil hrun
    obtain ⟨after, htail⟩ := List.head?_eq_some_iff.mp htail
    exact hnone c body after hrun htail

theorem splitReference_octets {inClass : Char → Bool} (hcoarse : Coarse inClass)
    (text : List Char) :
    splitReference inClass (octets text) =
      (splitReference inClass text).map fun (body, after) => (octets body, octets after) := by
  have hsame : (octets text).takeWhile inClass ≠ [] ∧
        ((octets text).dropWhile inClass).head? = some ';' ↔
      text.takeWhile inClass ≠ [] ∧ (text.dropWhile inClass).head? = some ';' := by
    rw [takeWhile_octets hcoarse, dropWhile_octets hcoarse, head?_octets_eq_some_iff (by decide),
      ne_eq, octets_eq_nil_iff]
  rw [splitReference_eq_ite, splitReference_eq_ite]
  by_cases hfound : text.takeWhile inClass ≠ [] ∧ (text.dropWhile inClass).head? = some ';'
  · obtain ⟨after, htail⟩ := List.head?_eq_some_iff.mp hfound.2
    have hmark : ∀ rest, octets (';' :: rest) = ';' :: octets rest := octets_cons_of_lt (by decide)
    rw [if_pos (hsame.mpr hfound), if_pos hfound, takeWhile_octets hcoarse,
      dropWhile_octets hcoarse, htail, hmark]
    simp [hmark]
  · rw [if_neg (hsame.not.mpr hfound), if_neg hfound]
    rfl

theorem toNat_lt_of_isAlphanum {c : Char} (hclass : c.isAlphanum = true) : c.toNat < 128 := by
  rw [isAlphanum_iff, isAlpha_iff, isUpper_iff, isLower_iff, isDigit_iff] at hclass
  omega

theorem coarse_isAlphanum : Coarse Char.isAlphanum :=
  coarse_of_lt fun _ => toNat_lt_of_isAlphanum

theorem coarse_isAlpha : Coarse Char.isAlpha :=
  coarse_of_lt fun _ hclass => toNat_lt_of_isAlphanum (by simp [Char.isAlphanum, hclass])

theorem coarse_isDigit : Coarse Char.isDigit :=
  coarse_of_lt fun _ hclass => toNat_lt_of_isAlphanum (by simp [Char.isAlphanum, hclass])

theorem coarse_isHexDigit : Coarse isHexDigit := by
  apply coarse_of_lt
  intro c hclass
  simp only [isHexDigit, Bool.or_eq_true, Bool.and_eq_true, decide_eq_true_eq, Char.le_def,
    UInt32.le_iff_toNat_le] at hclass
  rcases hclass with (hdigit | ⟨-, hlower⟩) | ⟨-, hupper⟩
  · exact toNat_lt_of_isAlphanum (by simp [Char.isAlphanum, hdigit])
  · change c.toNat ≤ 102 at hlower
    omega
  · change c.toNat ≤ 70 at hupper
    omega

/-- A character reference is found among the bytes just where it is among the characters. -/
theorem splitEntity_octets (text : List Char) :
    splitEntity (octets text) =
      (splitEntity text).map fun (body, after) => (octets body, octets after) := by
  have hcons : ∀ {c : Char}, c.toNat < 128 → ∀ rest, octets (c :: rest) = c :: octets rest :=
    octets_cons_of_lt
  cases text with
  | nil => rfl
  | cons c tail =>
      by_cases hmark : c = '#'
      · subst hmark
        rw [hcons (by decide)]
        cases tail with
        | nil => rfl
        | cons x rest =>
            by_cases hx : x = 'x' ∨ x = 'X'
            · have hascii : x.toNat < 128 := by rcases hx with rfl | rfl <;> decide
              rw [hcons hascii]
              simp only [splitEntity, Bool.or_eq_true, decide_eq_true_eq, if_pos hx,
                splitReference_octets coarse_isHexDigit, Option.map_map]
              congr 1
              funext found
              simp [hcons, hascii]
            · obtain ⟨b, bytes, hbytes, halike⟩ := exists_octets_cons x rest
              have hb : ¬(b = 'x' ∨ b = 'X') := by
                rwa [halike.eq_iff (by decide), halike.eq_iff (by decide)]
              have hsplit := splitReference_octets coarse_isDigit (x :: rest)
              rw [hbytes] at hsplit ⊢
              simp only [splitEntity, Bool.or_eq_true, decide_eq_true_eq, if_neg hx, if_neg hb,
                hsplit, Option.map_map]
              congr 1
      · obtain ⟨b, bytes, hbytes, halike⟩ := exists_octets_cons c tail
        have hb : b ≠ '#' := (halike.eq_iff (by decide)).not.mpr hmark
        have hsplit := splitReference_octets coarse_isAlphanum (c :: tail)
        rw [hbytes] at hsplit ⊢
        rw [splitEntity_cons_of_ne hb, splitEntity_cons_of_ne hmark,
          halike _ coarse_isAlpha, hsplit]
        split
        next => rfl
        next => rfl

theorem entityWidth?_octets (rest : List Char) :
    entityWidth? (octets ('&' :: rest)) =
      (splitEntity rest).map fun (body, _) => byteSize ('&' :: body) := by
  have hsize : ∀ body : List Char, byteSize body + 1 = byteSize ('&' :: body) := fun body =>
    Nat.add_comm _ _
  rw [entityWidth?, octets_cons_of_lt (by decide), List.drop_one, List.tail_cons,
    splitEntity_octets, Option.map_map]
  congr 1
  funext ⟨body, after⟩
  simp [hsize]

/-- Bytes that neither are blank nor can begin a character reference are passed over. -/
theorem fragmentsFrom?_pass {raw : List Char} (limit start : Nat) {bytes : List Char} :
    ∀ {offset : Nat} {rest : List Char}, (octets raw).drop offset = bytes ++ rest →
      (∀ b ∈ bytes, isBlank b = false ∧ b ≠ '&') →
        fragmentsFrom? raw (limit + bytes.length) start offset =
          fragmentsFrom? raw limit start (offset + bytes.length) := by
  induction bytes with
  | nil => simp
  | cons b bytes ih =>
      intro offset rest hdrop hplain
      have hfirst : (octets raw)[offset]? = some b := by
        rw [← List.head?_drop, hdrop]
        rfl
      have hrest : (octets raw).drop (offset + 1) = bytes ++ rest := by
        rw [← List.drop_drop, hdrop]
        rfl
      obtain ⟨hsolid, hmark⟩ := hplain b List.mem_cons_self
      rw [List.length_cons, ← Nat.add_assoc, fragmentsFrom?, hfirst]
      simp only [hsolid, hmark, if_false, Bool.false_eq_true]
      rw [ih hrest fun c hmem => hplain c (List.mem_cons_of_mem _ hmem)]
      congr 1
      omega

theorem isBlank_and_ne_of_mem_octets {c : Char} (hblank : isBlank c = false) (hmark : c ≠ '&') :
    ∀ b ∈ octets [c], isBlank b = false ∧ b ≠ '&' := by
  intro b hmem
  by_cases hascii : c.toNat < 128
  · rw [octets_cons_of_lt hascii, octets_nil, List.mem_singleton] at hmem
    rw [hmem]
    exact ⟨hblank, hmark⟩
  · have hbeyond := Nat.not_lt.mp hascii
    have hbyte := le_toNat_of_mem_octets hbeyond hmem
    refine ⟨(coarse_isBlank b c hbyte hbeyond).trans hblank, ?_⟩
    rintro rfl
    exact absurd hbyte (by decide)

/-! What the reader of fragments does at the start of a character, with some characters held. -/

section Step

variable {raw before held rest : List Char} (limit : Nat)

theorem fragmentsFrom?_end (hraw : raw = before ++ held) :
    fragmentsFrom? raw (limit + 1) (byteSize before) (byteSize (before ++ held)) =
      some (heldFragment held) := by
  subst hraw
  rw [fragmentsFrom?, getElem?_octets_end]
  exact held?_of_eq (by rw [List.append_nil])

/-- Blanks are a fragment of their own, and behind it nothing is held. -/
theorem fragmentsFrom?_blank {c : Char} (hraw : raw = before ++ held ++ c :: rest)
    (hblank : isBlank c = true) :
    let stop := byteSize (before ++ held ++ c :: rest.takeWhile isBlank)
    fragmentsFrom? raw (limit + 1) (byteSize before) (byteSize (before ++ held)) =
      (fragmentsFrom? raw limit stop stop).map fun pieces =>
        heldFragment held ++ ⟨.blank, c :: rest.takeWhile isBlank⟩ :: pieces := by
  intro stop
  obtain ⟨b, hfirst, halike⟩ := exists_getElem?_octets hraw
  have hheld := held?_of_eq (hraw.trans (List.append_assoc before held _))
  have hstop : scan isBlank raw (byteSize (before ++ held)) = stop := by
    rw [scan_of_eq coarse_isBlank hraw, List.takeWhile_cons_of_pos hblank]
  have hwhole : raw = before ++ held ++ c :: rest.takeWhile isBlank ++ rest.dropWhile isBlank := by
    simp [hraw, List.takeWhile_append_dropWhile]
  rw [fragmentsFrom?, hfirst]
  simp only [halike isBlank coarse_isBlank, hblank, if_true, hheld, hstop, stop,
    slice?_of_eq hwhole]
  cases fragmentsFrom? raw limit stop stop <;> rfl

/-- A character reference is a fragment of its own, and behind it nothing is held. -/
theorem fragmentsFrom?_entity {body after : List Char} (hraw : raw = before ++ held ++ '&' :: rest)
    (hentity : splitEntity rest = some (body, after)) :
    let stop := byteSize (before ++ held ++ '&' :: body)
    fragmentsFrom? raw (limit + 1) (byteSize before) (byteSize (before ++ held)) =
      (fragmentsFrom? raw limit stop stop).map fun pieces =>
        heldFragment held ++ ⟨.entity, '&' :: body⟩ :: pieces := by
  intro stop
  have hfirst := getElem?_octets_of_lt hraw (by decide)
  have hheld := held?_of_eq (hraw.trans (List.append_assoc before held _))
  have hahead := rangeFrom?_octets (before ++ held) ('&' :: rest)
  rw [← hraw] at hahead
  have hwidth := entityWidth?_octets rest
  rw [hentity, Option.map_some] at hwidth
  have hwhole : raw = before ++ held ++ '&' :: body ++ after := by
    simp [hraw, ← splitEntity_append hentity]
  rw [fragmentsFrom?, hfirst]
  simp only [show isBlank '&' = false from rfl, Bool.false_eq_true, if_false, if_true, hahead,
    hwidth, Option.bind_eq_bind, Option.bind_some, hheld, ← byteSize_append,
      slice?_of_eq hwhole, stop]
  cases fragmentsFrom? raw limit stop stop <;> rfl

/-- An ampersand that begins no character reference is held like any other character. -/
theorem fragmentsFrom?_ampersand (hraw : raw = before ++ '&' :: rest)
    (hentity : splitEntity rest = none) (start : Nat) :
    fragmentsFrom? raw (limit + 1) start (byteSize before) =
      fragmentsFrom? raw limit start (byteSize (before ++ ['&'])) := by
  have hahead := rangeFrom?_octets before ('&' :: rest)
  rw [← hraw] at hahead
  have hwidth := entityWidth?_octets rest
  rw [hentity, Option.map_none] at hwidth
  rw [fragmentsFrom?, getElem?_octets_of_lt hraw (by decide), byteSize_append before]
  simp only [show isBlank '&' = false from rfl, Bool.false_eq_true, if_false, if_true, hahead,
    hwidth, Option.bind_eq_bind, Option.bind_some]
  rfl

/-- The reader goes over the bytes of any other character one by one, and stops at none of them. -/
theorem fragmentsFrom?_character {c : Char} (hraw : raw = before ++ c :: rest)
    (hblank : isBlank c = false) (hmark : c ≠ '&') (start : Nat) :
    fragmentsFrom? raw (limit + byteSize [c]) start (byteSize before) =
      fragmentsFrom? raw limit start (byteSize (before ++ [c])) := by
  have hdrop : (octets raw).drop (byteSize before) = octets [c] ++ octets rest := by
    rw [hraw, drop_octets, octets_cons]
  have hpass := fragmentsFrom?_pass limit start hdrop (isBlank_and_ne_of_mem_octets hblank hmark)
  rwa [length_octets, ← byteSize_append] at hpass

end Step

/-- Where the reader of fragments has got to the end of a character, no cut goes wrong any more. -/
theorem fragmentsFrom?_append {raw : List Char} (after : List Char) :
    ∀ {before held : List Char} {limit : Nat}, raw = before ++ (held ++ after) →
      byteSize after < limit →
        fragmentsFrom? raw limit (byteSize before) (byteSize (before ++ held)) =
          some (held.foldr pushCharacter (fragments after)) := by
  fun_induction fragments after with
  | case1 =>
      intro before held limit hraw hlimit
      obtain ⟨limit, rfl⟩ := Nat.exists_eq_add_one_of_ne_zero (Nat.ne_zero_of_lt hlimit)
      rw [foldr_pushCharacter_nil]
      exact fragmentsFrom?_end limit (by rw [hraw, List.append_nil])
  | case2 c rest hblank ih =>
      intro before held limit hraw hlimit
      obtain ⟨limit, rfl⟩ := Nat.exists_eq_add_one_of_ne_zero (Nat.ne_zero_of_lt hlimit)
      rw [← List.append_assoc] at hraw
      have hshorter : byteSize (rest.dropWhile isBlank) < limit := by
        have hpos := c.utf8Size_pos
        have hsize := congrArg byteSize (List.takeWhile_append_dropWhile (p := isBlank) (l := rest))
        simp only [byteSize_append, byteSize_cons] at hsize hlimit
        omega
      have hnext : raw = before ++ held ++ c :: rest.takeWhile isBlank ++
          ([] ++ rest.dropWhile isBlank) := by simp [hraw, List.takeWhile_append_dropWhile]
      have hrest := ih hnext hshorter
      rw [List.append_nil] at hrest
      rw [fragmentsFrom?_blank limit hraw hblank, hrest, foldr_pushCharacter (by simp)]
      rfl
  | case3 rest body after hentity hblank ih =>
      intro before held limit hraw hlimit
      obtain ⟨limit, rfl⟩ := Nat.exists_eq_add_one_of_ne_zero (Nat.ne_zero_of_lt hlimit)
      rw [← List.append_assoc] at hraw
      have hshorter : byteSize after < limit := by
        have hpos := '&'.utf8Size_pos
        have hsize := congrArg byteSize (splitEntity_append hentity)
        simp only [byteSize_append, byteSize_cons] at hsize hlimit
        omega
      have hnext : raw = before ++ held ++ '&' :: body ++ ([] ++ after) := by
        simp [hraw, ← splitEntity_append hentity]
      have hrest := ih hnext hshorter
      rw [List.append_nil] at hrest
      rw [fragmentsFrom?_entity limit hraw hentity, hrest, foldr_pushCharacter (by simp)]
      rfl
  | case4 rest hentity hblank ih =>
      intro before held limit hraw hlimit
      obtain ⟨limit, rfl⟩ := Nat.exists_eq_add_one_of_ne_zero (Nat.ne_zero_of_lt hlimit)
      have hshorter : byteSize rest < limit := by
        have hpos := '&'.utf8Size_pos
        rw [byteSize_cons] at hlimit
        omega
      have hnext : raw = before ++ (held ++ ['&'] ++ rest) := by simp [hraw]
      rw [← List.append_assoc] at hraw
      rw [fragmentsFrom?_ampersand limit hraw hentity, List.append_assoc, ih hnext hshorter,
        List.foldr_append]
      rfl
  | case5 c rest hblank hamp ih =>
      intro before held limit hraw hlimit
      have hlonger : byteSize rest + byteSize [c] < limit := by
        simpa [Nat.add_comm] using hlimit
      obtain ⟨shorter, rfl⟩ := Nat.exists_eq_add_of_le' (Nat.le_of_lt (Nat.lt_of_le_of_lt
        (Nat.le_add_left _ _) hlonger))
      have hnext : raw = before ++ (held ++ [c] ++ rest) := by simp [hraw]
      rw [← List.append_assoc] at hraw
      rw [fragmentsFrom?_character shorter hraw (by simpa using hblank) hamp, List.append_assoc,
        ih hnext (Nat.lt_of_add_lt_add_right hlonger), List.foldr_append]
      rfl

/-- Every cut of running text into fragments goes right. -/
theorem fragments?_eq (raw : List Char) : fragments? raw = some (fragments raw) := by
  have hraw : raw = [] ++ ([] ++ raw) := by simp
  exact fragmentsFrom?_append raw hraw (Nat.lt_succ_self _)

/-! ## Words -/

/-- A text that has been cut into words: the blanks at its ends and those between the words, each
gap behind the word with its index. -/
structure Parts where
  leading : List Char
  words : List Word
  gaps : List (List Char)
  trailing : List Char
  deriving DecidableEq, Repr, Inhabited

def Run.parts (run : Run) : Parts :=
  ⟨run.leading, run.wordList, run.gaps, run.trailing⟩

/-- Reads words from the fragment with this index on, given the index of the first fragment of the
word that is being read, if there is one. -/
def partsFrom? (pieces : List Fragment) : Nat → Parts → Option Nat → List Fragment → Option Parts
  | _, parts, none, [] => some parts
  | _, parts, some first, [] => do
      let word ← range? pieces first pieces.length
      return { parts with words := parts.words ++ [word] }
  | index, parts, start, piece :: rest =>
      match piece.kind, start with
      | .blank, some first => do
          let word ← range? pieces first index
          partsFrom? pieces (index + 1)
            { parts with words := parts.words ++ [word], trailing := piece.raw } none rest
      | .blank, none =>
          let parts := if parts.words.isEmpty then { parts with leading := piece.raw } else parts
          partsFrom? pieces (index + 1) parts none rest
      | _, some first => partsFrom? pieces (index + 1) parts (some first) rest
      | _, none =>
          let gaps := if parts.words.isEmpty then parts.gaps else parts.gaps ++ [parts.trailing]
          partsFrom? pieces (index + 1) { parts with gaps := gaps, trailing := [] }
            (some index) rest

/-- Reads fragments as words. -/
def parts? (pieces : List Fragment) : Option Parts :=
  partsFrom? pieces 0 ⟨[], [], [], []⟩ none pieces

/-- Fragments of which no two blank ones stand next to each other. -/
def Alternating (pieces : List Fragment) : Prop :=
  pieces.IsChain fun piece next => ¬(piece.kind = .blank ∧ next.kind = .blank)

theorem alternating_pushCharacter {pieces : List Fragment} (halternating : Alternating pieces)
    (c : Char) : Alternating (pushCharacter c pieces) := by
  unfold pushCharacter
  split
  next raw rest =>
    cases rest with
    | nil => exact List.isChain_singleton _
    | cons next others =>
        refine List.IsChain.cons_cons ?_ (List.IsChain.of_cons halternating)
        rintro ⟨hkind, -⟩
        cases hkind
  next =>
    cases pieces with
    | nil => exact List.isChain_singleton _
    | cons next others =>
        refine List.IsChain.cons_cons ?_ halternating
        rintro ⟨hkind, -⟩
        cases hkind

/-- Fragments begin with blanks only where their text does. -/
theorem isBlank_of_fragments_eq_cons {c : Char} {text : List Char} {piece : Fragment}
    {rest : List Fragment} (hpieces : fragments (c :: text) = piece :: rest)
    (hkind : piece.kind = .blank) : isBlank c = true := by
  have hproper := proper_of_mem_fragments piece (by rw [hpieces]; exact List.mem_cons_self)
  have htext := flatMap_raw_fragments (c :: text)
  obtain ⟨kind, raw⟩ := piece
  obtain rfl : kind = .blank := hkind
  obtain ⟨hne, hblank⟩ := hproper
  obtain ⟨d, others, rfl⟩ := List.exists_cons_of_ne_nil hne
  rw [hpieces, List.flatMap_cons, List.cons_append] at htext
  obtain ⟨rfl, -⟩ := List.cons.inj htext
  exact isBlank_of_mem hblank List.mem_cons_self

theorem alternating_fragments (text : List Char) : Alternating (fragments text) := by
  fun_induction fragments text with
  | case1 => exact List.isChain_nil
  | case2 c rest hblank ih =>
      cases hpieces : fragments (rest.dropWhile isBlank) with
      | nil => exact List.isChain_singleton _
      | cons next others =>
          rw [hpieces] at ih
          refine List.IsChain.cons_cons ?_ ih
          rintro ⟨-, hkind⟩
          cases hrest : rest.dropWhile isBlank with
          | nil => simp [hrest, fragments] at hpieces
          | cons d tail =>
              rw [hrest] at hpieces
              have hfirst := List.head_dropWhile_not isBlank (by rw [hrest]; simp)
              simp [hrest, isBlank_of_fragments_eq_cons hpieces hkind] at hfirst
  | case3 rest body after hentity hblank ih =>
      cases hpieces : fragments after with
      | nil => exact List.isChain_singleton _
      | cons next others =>
          rw [hpieces] at ih
          refine List.IsChain.cons_cons ?_ ih
          rintro ⟨hkind, -⟩
          cases hkind
  | case4 rest hentity hblank ih => exact alternating_pushCharacter ih _
  | case5 c rest hblank hamp ih => exact alternating_pushCharacter ih c

/-- A word as a reader finds it: fragments that are not blank, at least one. -/
def IsWord (word : Word) : Prop :=
  word ≠ [] ∧ ∀ piece ∈ word, piece.kind ≠ .blank

theorem IsWord.cons {piece : Fragment} (hkind : piece.kind ≠ .blank) {word : Word}
    (hword : word = [] ∨ IsWord word) : IsWord (piece :: word) := by
  refine ⟨by simp, fun other hmem => ?_⟩
  rcases List.mem_cons.mp hmem with rfl | hmem
  · exact hkind
  · rcases hword with rfl | hword
    · cases hmem
    · exact hword.2 other hmem

/-- Blanks as a fragment, if there are any. -/
def blankFragment : List Char → List Fragment
  | [] => []
  | c :: rest => [⟨.blank, c :: rest⟩]

namespace Run

/-- The fragments of further words, each behind the blanks in front of it. -/
def partedPieces (parted : List (List Char × Word)) : List Fragment :=
  parted.flatMap fun (blanks, word) => ⟨.blank, blanks⟩ :: word

/-- The fragments that a run was made of. -/
def pieces : Run → List Fragment
  | .blank leading => blankFragment leading
  | .words leading first rest trailing =>
      blankFragment leading ++ (first ++ (partedPieces rest ++ blankFragment trailing))

/-- The words of the run are words as a reader finds them. -/
def Worded : Run → Prop
  | .blank _ => True
  | .words _ first rest _ => IsWord first ∧ ∀ parted ∈ rest, IsWord parted.2

theorem Worded.push {run : Run} (hworded : run.Worded) (piece : Fragment) :
    (push piece run).Worded := by
  obtain ⟨kind, raw⟩ := piece
  cases run with
  | blank leading =>
      cases kind with
      | blank => trivial
      | characters => exact ⟨.cons (by simp) (.inl rfl), by simp⟩
      | entity => exact ⟨.cons (by simp) (.inl rfl), by simp⟩
  | words leading first rest trailing =>
      obtain ⟨hfirst, hrest⟩ := hworded
      cases kind <;> cases leading <;>
        simp only [Run.push, Worded, List.forall_mem_cons] <;>
        first
        | exact ⟨hfirst, hrest⟩
        | exact ⟨.cons (by simp) (.inr hfirst), hrest⟩
        | exact ⟨.cons (by simp) (.inl rfl), hfirst, hrest⟩

theorem worded_ofFragments (pieces : List Fragment) : (ofFragments pieces).Worded := by
  induction pieces with
  | nil => trivial
  | cons piece rest ih => exact ih.push piece

/-- A run with blanks in front is made of fragments of which the first is blank. -/
theorem pieces_push {piece : Fragment} {run : Run} (hproper : piece.Proper)
    (hfirst : piece.kind = .blank → run.leading = []) :
    (push piece run).pieces = piece :: run.pieces := by
  obtain ⟨kind, raw⟩ := piece
  cases kind with
  | blank =>
      obtain ⟨c, others, rfl⟩ := List.exists_cons_of_ne_nil hproper.1
      have hleading := hfirst rfl
      cases run with
      | blank leading =>
          obtain rfl : leading = [] := hleading
          simp [push, pieces, blankFragment]
      | words leading first rest trailing =>
          obtain rfl : leading = [] := hleading
          simp [push, pieces, blankFragment]
  | characters =>
      cases run with
      | blank leading => simp [push, pieces, blankFragment, partedPieces]
      | words leading first rest trailing =>
          cases leading <;> simp [push, pieces, blankFragment, partedPieces]
  | entity =>
      cases run with
      | blank leading => simp [push, pieces, blankFragment, partedPieces]
      | words leading first rest trailing =>
          cases leading <;> simp [push, pieces, blankFragment, partedPieces]

/-- Cutting fragments into words keeps all of them, in order. -/
theorem pieces_ofFragments {pieces : List Fragment} (halternating : Alternating pieces)
    (hproper : ∀ piece ∈ pieces, piece.Proper) : (ofFragments pieces).pieces = pieces := by
  induction pieces with
  | nil => rfl
  | cons piece rest ih =>
      have hrest := ih (List.IsChain.of_cons halternating) fun other hmem =>
        hproper other (List.mem_cons_of_mem _ hmem)
      have hpush : (push piece (ofFragments rest)).pieces = piece :: (ofFragments rest).pieces := by
        apply pieces_push (hproper piece List.mem_cons_self)
        intro hkind
        by_contra hleading
        -- the fragments behind would begin with a blank one too
        obtain ⟨c, others, hleading⟩ := List.exists_cons_of_ne_nil hleading
        have hblank : ∃ next tail, rest = next :: tail ∧ next.kind = .blank := by
          rw [← hrest]
          cases hrun : ofFragments rest with
          | blank leading =>
              rw [hrun] at hleading
              obtain rfl : leading = c :: others := hleading
              exact ⟨_, _, rfl, rfl⟩
          | words leading first parted trailing =>
              rw [hrun] at hleading
              obtain rfl : leading = c :: others := hleading
              exact ⟨_, _, rfl, rfl⟩
        obtain ⟨next, tail, rfl, hnext⟩ := hblank
        exact (List.isChain_cons_cons.mp halternating).1 ⟨hkind, hnext⟩
      exact hpush.trans (by rw [hrest])

end Run

/-! ## Reading words -/

theorem partsFrom?_cons_some {piece : Fragment} (hkind : piece.kind ≠ .blank)
    (pieces : List Fragment) (parts : Parts) (first index : Nat) (rest : List Fragment) :
    partsFrom? pieces index parts (some first) (piece :: rest) =
      partsFrom? pieces (index + 1) parts (some first) rest := by
  obtain ⟨kind, raw⟩ := piece
  cases kind with
  | blank => exact absurd rfl hkind
  | characters => rfl
  | entity => rfl

theorem partsFrom?_cons_none {piece : Fragment} (hkind : piece.kind ≠ .blank)
    (pieces : List Fragment) (parts : Parts) (index : Nat) (rest : List Fragment) :
    partsFrom? pieces index parts none (piece :: rest) =
      partsFrom? pieces (index + 1)
        { parts with
          gaps := if parts.words.isEmpty then parts.gaps else parts.gaps ++ [parts.trailing]
          trailing := [] } (some index) rest := by
  obtain ⟨kind, raw⟩ := piece
  cases kind with
  | blank => exact absurd rfl hkind
  | characters => rfl
  | entity => rfl

theorem partsFrom?_cons_blank (pieces : List Fragment) (parts : Parts) (first index : Nat)
    (blanks : List Char) (rest : List Fragment) :
    partsFrom? pieces index parts (some first) (⟨.blank, blanks⟩ :: rest) =
      (range? pieces first index).bind fun word =>
        partsFrom? pieces (index + 1)
          { parts with words := parts.words ++ [word], trailing := blanks } none rest := rfl

theorem partsFrom?_inWord (pieces : List Fragment) (parts : Parts) (first : Nat) {word : Word}
    (hword : ∀ piece ∈ word, piece.kind ≠ .blank) (rest : List Fragment) (index : Nat) :
    partsFrom? pieces index parts (some first) (word ++ rest) =
      partsFrom? pieces (index + word.length) parts (some first) rest := by
  induction word generalizing index with
  | nil => rfl
  | cons piece word ih =>
      rw [List.cons_append, partsFrom?_cons_some (hword piece List.mem_cons_self),
        ih fun other hmem => hword other (List.mem_cons_of_mem _ hmem), List.length_cons]
      congr 1
      omega

/-- The reader of words goes through a word and holds the index of its first fragment. -/
theorem partsFrom?_word (pieces : List Fragment) (parts : Parts) {word : Word} (hword : IsWord word)
    (rest : List Fragment) (index : Nat) :
    partsFrom? pieces index parts none (word ++ rest) =
      partsFrom? pieces (index + word.length)
        { parts with
          gaps := if parts.words.isEmpty then parts.gaps else parts.gaps ++ [parts.trailing]
          trailing := [] } (some index) rest := by
  obtain ⟨hne, hkinds⟩ := hword
  obtain ⟨piece, others, rfl⟩ := List.exists_cons_of_ne_nil hne
  rw [List.cons_append, partsFrom?_cons_none (hkinds piece List.mem_cons_self),
    partsFrom?_inWord _ _ _ fun other hmem => hkinds other (List.mem_cons_of_mem _ hmem),
    List.length_cons]
  congr 1
  omega

/-- Behind a word, the reader finds that word and the further words with the gaps between them. -/
theorem partsFrom?_parted (parted : List (List Char × Word))
    (hparted : ∀ part ∈ parted, IsWord part.2) (trailing : List Char) :
    ∀ {pieces front : List Fragment} {word : Word} {parts : Parts},
      pieces = front ++ (word ++ (Run.partedPieces parted ++ blankFragment trailing)) →
      parts.trailing = [] →
        partsFrom? pieces (front.length + word.length) parts (some front.length)
            (Run.partedPieces parted ++ blankFragment trailing) =
          some ⟨parts.leading, parts.words ++ word :: parted.map (·.2),
            parts.gaps ++ parted.map (·.1), trailing⟩ := by
  induction parted with
  | nil =>
      intro pieces front word parts hpieces htrailing
      have hword := range?_append front word (blankFragment trailing)
      have hwhole : front ++ (word ++ blankFragment trailing) = pieces := hpieces.symm
      rw [hwhole] at hword
      cases trailing with
      | nil =>
          have hend : pieces.length = front.length + word.length := by
            simp [← hwhole, blankFragment]
          rw [← hend] at hword
          simp [Run.partedPieces, blankFragment, partsFrom?, hword, htrailing]
      | cons c rest => simp [Run.partedPieces, blankFragment, partsFrom?, hword]
  | cons part parted ih =>
      intro pieces front word parts hpieces htrailing
      obtain ⟨blanks, next⟩ := part
      have hnext : IsWord next := hparted (blanks, next) List.mem_cons_self
      have hword := range?_append front word
        (⟨.blank, blanks⟩ :: (next ++ (Run.partedPieces parted ++ blankFragment trailing)))
      have hwhole : pieces = front ++ (word ++
          ⟨.blank, blanks⟩ :: (next ++ (Run.partedPieces parted ++ blankFragment trailing))) := by
        simpa [Run.partedPieces] using hpieces
      have hlonger : pieces = (front ++ (word ++ [⟨.blank, blanks⟩])) ++
          (next ++ (Run.partedPieces parted ++ blankFragment trailing)) := by
        simpa using hwhole
      have hsize : front.length + word.length + 1 =
          (front ++ (word ++ [Fragment.mk .blank blanks])).length := by
        simp [Nat.add_assoc]
      rw [← hwhole] at hword
      have hothers : ∀ other ∈ parted, IsWord other.2 := fun other hmem =>
        hparted other (List.mem_cons_of_mem _ hmem)
      -- the blanks end the word, and the next word begins behind them
      have hstep : Run.partedPieces ((blanks, next) :: parted) ++ blankFragment trailing =
          ⟨.blank, blanks⟩ :: (next ++ (Run.partedPieces parted ++ blankFragment trailing)) := by
        simp [Run.partedPieces]
      rw [hstep, partsFrom?_cons_blank, hword, Option.bind_some]
      rw [hsize, partsFrom?_word _ _ hnext, ih hothers hlonger rfl]
      simp

theorem partsFrom?_leading (pieces : List Fragment) (leading : List Char) (rest : List Fragment) :
    partsFrom? pieces 0 ⟨[], [], [], []⟩ none (blankFragment leading ++ rest) =
      partsFrom? pieces (blankFragment leading).length ⟨leading, [], [], []⟩ none rest := by
  cases leading with
  | nil => rfl
  | cons c others => rfl

/-- Every cut of fragments into words goes right. -/
theorem parts?_eq (text : List Char) : parts? (fragments text) = some (Run.ofText text).parts := by
  have hpieces := Run.pieces_ofFragments (alternating_fragments text) proper_of_mem_fragments
  have hworded := Run.worded_ofFragments (fragments text)
  unfold Run.ofText parts?
  generalize fragments text = pieces at hpieces hworded
  cases hrun : Run.ofFragments pieces with
  | blank leading =>
      rw [hrun] at hpieces
      subst hpieces
      cases leading with
      | nil => rfl
      | cons c rest => rfl
  | words leading first parted trailing =>
      rw [hrun] at hpieces hworded
      obtain ⟨hfirst, hparted⟩ := hworded
      have hrest := @partsFrom?_parted parted hparted trailing pieces (blankFragment leading) first
        ⟨leading, [], [], []⟩ hpieces.symm rfl
      have hstart := partsFrom?_leading pieces leading
        (first ++ (Run.partedPieces parted ++ blankFragment trailing))
      have hwhole : blankFragment leading ++
          (first ++ (Run.partedPieces parted ++ blankFragment trailing)) = pieces := hpieces
      rw [hwhole] at hstart
      rw [hstart, partsFrom?_word _ _ hfirst]
      exact hrest

end Markup.Text
