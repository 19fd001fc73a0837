import Markup.Tag.Reading
import Markup.Proofs.Tree.Extent

/-!
# Cutting at byte offsets

A reader of bytes finds the ends of the pieces it reads as byte offsets, and cuts the pieces out of
the text afterwards. A cut can go wrong: an offset may lie beyond the end of the text or inside a
character, and two offsets may be out of order. `slice?` gives a piece only where nothing of that is
the case, which is `slice?_eq_some_iff`. That a reader of bytes stops at the ends of characters is
due to what it looks for: the bytes of a character beyond ASCII are never taken for a character of
ASCII, so that a class which keeps such characters together is followed through the bytes as through
the characters, which is `takeWhile_octets`.
-/

namespace Markup.Text

/-! ## Cuts that may go wrong -/

/-- The part of a text between two byte offsets, if they are in order and both at ends of
characters. -/
def slice? (text : List Char) (start stop : Nat) : Option (List Char) :=
  let piece := takeBytes (stop - start) (dropBytes start text)
  if floorBoundary text start = start ∧ start + byteSize piece = stop then some piece else none

/-- The part of a text from a byte offset on. -/
def sliceFrom? (text : List Char) (start : Nat) : Option (List Char) :=
  slice? text start (byteSize text)

/-- The part of a text up to a byte offset. -/
def sliceTo? (text : List Char) (stop : Nat) : Option (List Char) :=
  slice? text 0 stop

/-- The elements of a list between two indices, if these are in order and not beyond the end. -/
def range? {α : Type} (list : List α) (start stop : Nat) : Option (List α) :=
  if start ≤ stop ∧ stop ≤ list.length then some ((list.drop start).take (stop - start)) else none

/-- The difference of two numbers, if it is not negative. -/
def minus? (first second : Nat) : Option Nat :=
  if second ≤ first then some (first - second) else none

theorem minus?_of_le {first second : Nat} (hle : second ≤ first) :
    minus? first second = some (first - second) :=
  if_pos hle

theorem range?_append {α : Type} (before piece after : List α) :
    range? (before ++ (piece ++ after)) before.length (before.length + piece.length) =
      some piece := by
  have hbounds : before.length ≤ before.length + piece.length ∧
      before.length + piece.length ≤ (before ++ (piece ++ after)).length := by
    simp only [List.length_append]
    omega
  rw [range?, if_pos hbounds]
  simp

theorem floorBoundary_append (before after : List Char) :
    floorBoundary (before ++ after) (byteSize before) = byteSize before := by
  rw [floorBoundary, (takeBytes_byteSize_append before after).1]

/-- A text is cut at the ends of its parts. -/
theorem slice?_append (before piece after : List Char) :
    slice? (before ++ (piece ++ after)) (byteSize before) (byteSize before + byteSize piece) =
      some piece := by
  unfold slice?
  rw [Nat.add_sub_cancel_left, (takeBytes_byteSize_append before _).2,
    (takeBytes_byteSize_append piece after).1, floorBoundary_append]
  exact if_pos ⟨rfl, rfl⟩

theorem slice?_of_eq {text front piece rest : List Char} (htext : text = front ++ piece ++ rest) :
    slice? text (byteSize front) (byteSize (front ++ piece)) = some piece := by
  rw [htext, List.append_assoc, byteSize_append]
  exact slice?_append front piece rest

/-- A text is cut just where the two offsets are ends of characters and in order; the piece then
lies between them. -/
theorem slice?_eq_some_iff {text piece : List Char} {start stop : Nat} :
    slice? text start stop = some piece ↔ Span.Cuts ⟨start, stop⟩ text piece := by
  constructor
  · intro hslice
    unfold slice? at hslice
    obtain ⟨⟨hstart, hstop⟩, hpiece⟩ := Option.ite_none_right_eq_some.mp hslice
    cases hpiece
    refine ⟨takeBytes start text, dropBytes (stop - start) (dropBytes start text), ?_,
      hstart.symm, ?_⟩
    · rw [takeBytes_append_dropBytes, takeBytes_append_dropBytes]
    · rw [← floorBoundary, hstart, hstop]
  · rintro ⟨before, after, rfl, hstart, hstop⟩
    obtain rfl : start = byteSize before := hstart
    obtain rfl : stop = byteSize before + byteSize piece := hstop
    exact slice?_append before piece after

theorem sliceFrom?_of_eq {text front rest : List Char} (htext : text = front ++ rest) :
    sliceFrom? text (byteSize front) = some rest := by
  have hslice := slice?_of_eq (htext.trans (List.append_nil _).symm)
  rwa [← htext] at hslice

@[simp]
theorem sliceFrom?_append (before after : List Char) :
    sliceFrom? (before ++ after) (byteSize before) = some after := by
  exact sliceFrom?_of_eq rfl

@[simp]
theorem sliceTo?_append (before after : List Char) :
    sliceTo? (before ++ after) (byteSize before) = some before := by
  have hslice := slice?_append [] before after
  rwa [byteSize_nil, Nat.zero_add] at hslice

/-! ## Bytes -/

/-- The bytes of a text, each given as the character with its number. -/
def octets (text : List Char) : List Char :=
  text.flatMap fun c => (String.utf8EncodeChar c).map Char.ofUInt8

@[simp]
theorem octets_nil : octets [] = [] := rfl

theorem octets_cons (c : Char) (rest : List Char) :
    octets (c :: rest) = octets [c] ++ octets rest := by
  simp [octets]

@[simp]
theorem octets_append (first second : List Char) :
    octets (first ++ second) = octets first ++ octets second :=
  List.flatMap_append

@[simp]
theorem length_octets (text : List Char) : (octets text).length = byteSize text := by
  induction text with
  | nil => rfl
  | cons c rest ih =>
      rw [octets_cons, List.length_append, ih]
      simp [octets]

theorem drop_octets (before after : List Char) :
    (octets (before ++ after)).drop (byteSize before) = octets after := by
  rw [octets_append, ← length_octets, List.drop_left]

theorem toNat_ofUInt8 (byte : UInt8) : (Char.ofUInt8 byte).toNat = byte.toNat :=
  UInt8.toNat_toUInt32 byte

/-- A character of ASCII is a byte of its own. -/
theorem octets_cons_of_lt {c : Char} (hascii : c.toNat < 128) (rest : List Char) :
    octets (c :: rest) = c :: octets rest := by
  have hle : c.val ≤ 127 := by
    rw [UInt32.le_iff_toNat_le]
    exact Nat.le_of_lt_succ hascii
  have hencode := String.utf8EncodeChar_eq_singleton (Char.utf8Size_eq_one_iff.mpr hle)
  have hbyte : Char.ofUInt8 c.val.toUInt8 = c := by
    apply Char.ext
    apply UInt32.toNat_inj.mp
    have hlt : c.val.toNat < 128 := hascii
    refine (toNat_ofUInt8 _).trans ?_
    rw [UInt32.toNat_toUInt8]
    omega
  rw [octets, List.flatMap_cons, hencode, List.map_singleton, hbyte]
  rfl

theorem byteSize_concat_of_lt {c : Char} (hascii : c.toNat < 128) (text : List Char) :
    byteSize (text ++ [c]) = byteSize text + 1 := by
  rw [byteSize_append, ← length_octets [c], octets_cons_of_lt hascii]
  rfl

/-- No byte of a character beyond ASCII is a character of ASCII. -/
theorem le_toNat_of_mem_octets {c b : Char} (hbeyond : 128 ≤ c.toNat) (hmem : b ∈ octets [c]) :
    128 ≤ b.toNat := by
  have hlow : ¬c.val.toNat ≤ 127 := by
    have hval : c.val.toNat = c.toNat := rfl
    omega
  have hbyte : ∀ number, 128 ≤ number → number < 256 →
      128 ≤ (Char.ofUInt8 (UInt8.ofNat number)).toNat := by
    intro number hle hlt
    have hmod : number % 256 = number := Nat.mod_eq_of_lt hlt
    rw [toNat_ofUInt8]
    simpa [hmod] using hle
  have hbound := c.val.toNat_lt
  simp only [octets, List.flatMap_cons, List.flatMap_nil, List.append_nil, List.mem_map] at hmem
  obtain ⟨byte, hmem, rfl⟩ := hmem
  unfold String.utf8EncodeChar at hmem
  dsimp only at hmem
  rw [if_neg hlow] at hmem
  -- the first byte tells how many follow, and each of them is marked
  split at hmem
  next h2 =>
    simp only [List.mem_cons, List.not_mem_nil, or_false] at hmem
    rcases hmem with rfl | rfl <;> apply hbyte <;> omega
  next =>
    split at hmem
    next h3 =>
      simp only [List.mem_cons, List.not_mem_nil, or_false] at hmem
      rcases hmem with rfl | rfl | rfl <;> apply hbyte <;> omega
    next =>
      simp only [List.mem_cons, List.not_mem_nil, or_false] at hmem
      rcases hmem with rfl | rfl | rfl | rfl <;> apply hbyte <;> omega

theorem octets_singleton_ne_nil (c : Char) : octets [c] ≠ [] := by
  have hsize := length_octets [c]
  have hpos := c.utf8Size_pos
  intro hnil
  rw [hnil, byteSize_cons, List.length_nil] at hsize
  omega

theorem ofUInt8_injective : Function.Injective Char.ofUInt8 := by
  intro first second heq
  have hval := congrArg Char.toNat heq
  rwa [toNat_ofUInt8, toNat_ofUInt8, UInt8.toNat_inj] at hval

/-- The bytes of a character say where they end. -/
theorem eq_of_octets_append_eq {c d : Char} {first second : List Char}
    (heq : octets [c] ++ first = octets (d :: second)) : c = d := by
  have hmap : octets (d :: second) =
      (String.utf8EncodeChar d ++ second.flatMap String.utf8EncodeChar).map Char.ofUInt8 := by
    simp [octets, List.map_flatMap]
  rw [hmap] at heq
  obtain ⟨head, tail, hsplit, hhead, -⟩ := List.map_eq_append_iff.mp heq.symm
  have hbytes : head = String.utf8EncodeChar c := by
    apply (List.map_inj_right fun _ _ heq => ofUInt8_injective heq).mp
    rw [hhead]
    simp [octets]
  -- both characters are what decoding gives of the same bytes
  have hdecode := congrArg (fun bytes => bytes.toByteArray.utf8DecodeChar? 0) hsplit
  simp only [hbytes, List.toByteArray_append, ByteArray.utf8DecodeChar?_utf8EncodeChar_append,
    Option.some.injEq] at hdecode
  exact hdecode.symm

/-- A text whose bytes begin with those of another begins with that other text. -/
theorem isPrefix_of_octets {pattern text : List Char} (hbegins : octets pattern <+: octets text) :
    pattern <+: text := by
  induction pattern generalizing text with
  | nil => exact List.nil_prefix
  | cons p pattern ih =>
      obtain ⟨after, hafter⟩ := hbegins
      rw [octets_cons p, List.append_assoc] at hafter
      cases text with
      | nil =>
          have hnil := List.append_eq_nil_iff.mp hafter
          exact absurd hnil.1 (octets_singleton_ne_nil p)
      | cons c rest =>
          obtain rfl := eq_of_octets_append_eq hafter
          rw [octets_cons p rest] at hafter
          obtain ⟨tail, rfl⟩ := ih ⟨after, List.append_cancel_left hafter⟩
          exact ⟨tail, rfl⟩

/-! ## Classes of bytes -/

/-- A class of characters to which all characters beyond ASCII belong, or none of them. -/
def Coarse (inClass : Char → Bool) : Prop :=
  ∀ c d : Char, 128 ≤ c.toNat → 128 ≤ d.toNat → inClass c = inClass d

theorem coarse_of_lt {inClass : Char → Bool} (hascii : ∀ c, inClass c = true → c.toNat < 128) :
    Coarse inClass := by
  have hout : ∀ c : Char, 128 ≤ c.toNat → inClass c = false := by
    intro c hbeyond
    apply Bool.eq_false_iff.mpr
    intro hclass
    exact absurd (hascii c hclass) (Nat.not_lt.mpr hbeyond)
  intro c d hc hd
  rw [hout c hc, hout d hd]

theorem Coarse.not {inClass : Char → Bool} (hcoarse : Coarse inClass) :
    Coarse fun c => !inClass c :=
  fun c d hc hd => congrArg (!·) (hcoarse c d hc hd)

theorem Coarse.and {first second : Char → Bool} (hfirst : Coarse first) (hsecond : Coarse second) :
    Coarse fun c => first c && second c := by
  intro c d hc hd
  show (first c && second c) = (first d && second d)
  rw [hfirst c d hc hd, hsecond c d hc hd]

theorem coarse_beq {d : Char} (hascii : d.toNat < 128) : Coarse (· == d) := by
  apply coarse_of_lt
  intro c heq
  rwa [beq_iff_eq.mp heq]

theorem coarse_isBlank : Coarse isBlank := by
  apply coarse_of_lt
  intro c hblank
  simp only [isBlank, Bool.or_eq_true, beq_iff_eq] at hblank
  rcases hblank with (((rfl | rfl) | rfl) | rfl) | rfl <;> decide

theorem coarse_inBareValue : Coarse Attribute.inBareValue :=
  coarse_isBlank.not.and (coarse_beq (by decide)).not

theorem coarse_inTagName : Coarse Attribute.inTagName :=
  coarse_inBareValue.and (coarse_beq (by decide)).not

/-- A class is followed through the bytes of a text as through its characters. -/
theorem takeWhile_octets {inClass : Char → Bool} (hcoarse : Coarse inClass) (text : List Char) :
    (octets text).takeWhile inClass = octets (text.takeWhile inClass) := by
  induction text with
  | nil => rfl
  | cons c rest ih =>
      by_cases hascii : c.toNat < 128
      · rw [octets_cons_of_lt hascii, List.takeWhile_cons, List.takeWhile_cons]
        split
        next => rw [ih, octets_cons_of_lt hascii]
        next => rfl
      · have hbeyond := Nat.not_lt.mp hascii
        have hsame : ∀ b ∈ octets [c], inClass b = inClass c := fun b hmem =>
          hcoarse b c (le_toNat_of_mem_octets hbeyond hmem) hbeyond
        rw [octets_cons, List.takeWhile_cons]
        split
        next hin =>
          rw [List.takeWhile_append_of_pos fun b hmem =>
            (hsame b hmem).trans hin, ih, ← octets_cons]
        next hout =>
          cases hbytes : octets [c] with
          | nil => exact absurd hbytes (octets_singleton_ne_nil c)
          | cons b others =>
              have hstop : inClass b = false := by
                rw [hsame b (by simp [hbytes])]
                simpa using hout
              simp [hstop]

theorem dropWhile_octets {inClass : Char → Bool} (hcoarse : Coarse inClass) (text : List Char) :
    (octets text).dropWhile inClass = octets (text.dropWhile inClass) := by
  have hwhole := List.takeWhile_append_dropWhile (p := inClass) (l := octets text)
  rw [takeWhile_octets hcoarse] at hwhole
  have htext : octets (text.takeWhile inClass) ++ octets (text.dropWhile inClass) =
      octets text := by
    rw [← octets_append, List.takeWhile_append_dropWhile]
  exact List.append_cancel_left (hwhole.trans htext.symm)

/-- Two characters that no class tells apart which keeps those beyond ASCII together. -/
def Alike (b c : Char) : Prop :=
  ∀ inClass : Char → Bool, Coarse inClass → inClass b = inClass c

theorem Alike.eq_iff {b c d : Char} (halike : Alike b c) (hascii : d.toNat < 128) :
    b = d ↔ c = d := by
  have hsame := halike (· == d) (coarse_beq hascii)
  rw [← beq_iff_eq (a := b), ← beq_iff_eq (a := c), hsame]

/-- The first byte of a text is in the classes that its first character is in. -/
theorem exists_octets_cons (c : Char) (rest : List Char) :
    ∃ b bytes, octets (c :: rest) = b :: bytes ∧ Alike b c := by
  by_cases hascii : c.toNat < 128
  · exact ⟨c, octets rest, octets_cons_of_lt hascii rest, fun _ _ => rfl⟩
  · have hbeyond := Nat.not_lt.mp hascii
    obtain ⟨b, others, hbytes⟩ := List.exists_cons_of_ne_nil (octets_singleton_ne_nil c)
    have hfirst := le_toNat_of_mem_octets hbeyond (b := b) (by simp [hbytes])
    refine ⟨b, others ++ octets rest, ?_, fun inClass hcoarse => hcoarse b c hfirst hbeyond⟩
    rw [octets_cons, hbytes]
    rfl

/-- A character of ASCII is the first byte just where it is the first character. -/
theorem head?_octets_eq_some_iff {d : Char} (hascii : d.toNat < 128) (text : List Char) :
    (octets text).head? = some d ↔ text.head? = some d := by
  cases text with
  | nil => simp
  | cons c rest =>
      obtain ⟨b, bytes, hbytes, halike⟩ := exists_octets_cons c rest
      rw [hbytes, List.head?_cons, List.head?_cons, Option.some.injEq, Option.some.injEq,
        halike.eq_iff hascii]

theorem any_head?_octets {inClass : Char → Bool} (hcoarse : Coarse inClass) (text : List Char) :
    (octets text).head?.any inClass = text.head?.any inClass := by
  cases text with
  | nil => rfl
  | cons c rest =>
      obtain ⟨b, bytes, hbytes, halike⟩ := exists_octets_cons c rest
      rw [hbytes]
      exact halike inClass hcoarse

theorem getLast?_of_octets {d : Char} (hascii : d.toNat < 128) {text : List Char}
    (hlast : (octets text).getLast? = some d) : text.getLast? = some d := by
  obtain rfl | ⟨front, c, rfl⟩ := text.eq_nil_or_concat
  · cases hlast
  · rw [List.concat_eq_append, octets_append] at hlast
    have hmem : d ∈ octets [c] := by
      have hown := List.getLast?_eq_some_getLast (octets_singleton_ne_nil c)
      rw [List.getLast?_append, hown, Option.some_or, Option.some.injEq] at hlast
      exact hlast ▸ List.mem_of_getLast? hown
    by_cases hlow : c.toNat < 128
    · rw [octets_cons_of_lt hlow, octets_nil, List.mem_singleton] at hmem
      simp [hmem]
    · exact absurd hascii (Nat.not_lt.mpr (le_toNat_of_mem_octets (Nat.not_lt.mp hlow) hmem))

theorem getElem?_octets (before after : List Char) :
    (octets (before ++ after))[byteSize before]? = (octets after).head? := by
  rw [← List.head?_drop, drop_octets]

theorem exists_getElem?_octets {text front rest : List Char} {c : Char}
    (htext : text = front ++ c :: rest) :
    ∃ b, (octets text)[byteSize front]? = some b ∧ Alike b c := by
  obtain ⟨b, bytes, hbytes, halike⟩ := exists_octets_cons c rest
  refine ⟨b, ?_, halike⟩
  rw [htext, getElem?_octets, hbytes]
  rfl

theorem getElem?_octets_eq_some_iff {text front rest : List Char} (htext : text = front ++ rest)
    {d : Char} (hascii : d.toNat < 128) :
    (octets text)[byteSize front]? = some d ↔ rest.head? = some d := by
  rw [htext, getElem?_octets, head?_octets_eq_some_iff hascii]

theorem getElem?_octets_end (text : List Char) : (octets text)[byteSize text]? = none := by
  rw [← length_octets]
  exact List.getElem?_eq_none (Nat.le_refl _)

theorem getElem?_octets_of_lt {text front rest : List Char} {c : Char}
    (htext : text = front ++ c :: rest) (hascii : c.toNat < 128) :
    (octets text)[byteSize front]? = some c := by
  rw [htext, getElem?_octets, octets_cons_of_lt hascii]
  rfl

theorem rangeFrom?_octets (before after : List Char) :
    range? (octets (before ++ after)) (byteSize before) (byteSize (before ++ after)) =
      some (octets after) := by
  have hrange := range?_append (octets before) (octets after) []
  simpa using hrange

/-! ## Looking for bytes -/

/-- Where a reader stops that goes on from a byte offset through the bytes of a class. -/
def scan (inClass : Char → Bool) (text : List Char) (offset : Nat) : Nat :=
  offset + (((octets text).drop offset).takeWhile inClass).length

/-- A reader stops at the end of a character. -/
theorem scan_of_eq {inClass : Char → Bool} (hcoarse : Coarse inClass) {text front rest : List Char}
    (htext : text = front ++ rest) :
    scan inClass text (byteSize front) = byteSize (front ++ rest.takeWhile inClass) := by
  rw [htext, byteSize_append, scan, drop_octets, takeWhile_octets hcoarse, length_octets]

/-- The offset of the first place where a pattern stands in a text. -/
def find? (pattern text : List Char) : Option Nat :=
  (splitAround pattern text).map fun (before, _) => byteSize before

/-- The offset of the last line feed of a text. -/
def findLineFeed? (text : List Char) : Option Nat :=
  if text.contains '\n' then some (byteSize (beforeLastLine text)) else none

end Markup.Text
