import Markup.Proofs.Tag.Grammar
import Markup.Proofs.Text.Spacing
import Markup.Proofs.Offsets.Slice
import Markup.Token

/-!
# Tags by byte offsets

A start tag is read byte by byte, and its pieces are cut out of the source as their ends are found;
the end tag of a raw text element is looked for by comparing bytes. Main statements:
`StartTag.readAt?_of_eq` and `Token.endFrom?_of_eq`, by which no cut goes wrong, whatever the source
has there: the tags are those that are read character by character, and end where their texts do.
-/

namespace Markup

open Markup.Text

/-! ## Names -/

namespace Attribute

theorem coarse_inName : Coarse inName :=
  (coarse_isBlank.not.and (coarse_beq (by decide)).not).and (coarse_beq (by decide)).not

theorem inClass_of_mem_octets {inClass : Char → Bool} (hcoarse : Coarse inClass) {text : List Char}
    (hall : ∀ c ∈ text, inClass c = true) : ∀ b ∈ octets text, inClass b = true := by
  have hwhole : text.takeWhile inClass = text := List.takeWhile_eq_self_iff.mpr hall
  have hbytes := takeWhile_octets hcoarse text
  rw [hwhole] at hbytes
  exact List.takeWhile_eq_self_iff.mp hbytes

theorem stopsName_octets (text : List Char) : stopsName (octets text) = stopsName text := by
  cases text with
  | nil => rfl
  | cons c rest =>
      by_cases hascii : c.toNat < 128
      · have hnext : ((octets rest).head? == some '>') = (rest.head? == some '>') := by
          rw [Bool.eq_iff_iff, beq_iff_eq, beq_iff_eq, head?_octets_eq_some_iff (by decide)]
        rw [octets_cons_of_lt hascii, stopsName, stopsName, hnext]
      · obtain ⟨b, bytes, hbytes, halike⟩ := exists_octets_cons c rest
        have hslash : (c == '/') = false := by
          apply beq_eq_false_iff_ne.mpr
          rintro rfl
          exact hascii (by decide)
        have hother : (b == '/') = (c == '/') := halike _ (coarse_beq (by decide))
        have hblank : isBlank b = isBlank c := halike _ coarse_isBlank
        have hsign : (b == '=') = (c == '=') := halike _ (coarse_beq (by decide))
        have hclose : (b == '>') = (c == '>') := halike _ (coarse_beq (by decide))
        simp [hbytes, stopsName, hblank, hsign, hclose, hslash, hother]

/-- A name is split off the bytes of a text where it is split off its characters. -/
theorem splitName_octets (text : List Char) :
    splitName (octets text) = (octets (splitName text).1, octets (splitName text).2) := by
  obtain ⟨htext, hname, hends⟩ := splitName_eq_iff.mp (show splitName text = (_, _) from rfl)
  apply splitName_eq_iff.mpr
  refine ⟨?_, inClass_of_mem_octets coarse_inName hname, ?_, ?_⟩
  · rw [← octets_append, ← htext]
  · rw [stopsName_octets]
    exact hends.stop
  · intro hlast hclose
    exact hends.slash (getLast?_of_octets (by decide) hlast)
      ((head?_octets_eq_some_iff (by decide) _).mp hclose)

/-- Where the name of an attribute ends that begins at a byte offset. A character that cannot be in
a name is a name of its own. -/
def nameStop (source : List Char) (offset : Nat) : Nat :=
  let stop := offset + (splitName ((octets source).drop offset)).1.length
  if stop = offset then offset + 1 else stop

/-- Reads the value behind a name that ends at a byte offset. The result is nothing inside where the
source ends too early. -/
def valueAt? (source name : List Char) (offset : Nat) :
    Option (Option (Option AttributeValue × Nat)) :=
  let sign := scan isBlank source offset
  if (octets source)[sign]? = some '=' ∧ name ≠ ['='] then
    let begins := scan isBlank source (sign + 1)
    match (octets source)[begins]? with
    | none => some none
    | some b => do
        let before ← slice? source offset begins
        match Quote.ofChar? b with
        | some quote => do
            let rest ← sliceFrom? source (begins + 1)
            match find? [quote.char] rest with
            | none => return none
            | some close => do
                let raw ← slice? source (begins + 1) (begins + 1 + close)
                return some (some ⟨before, raw, some quote⟩, begins + 1 + close + 1)
        | none => do
            let stop := scan inBareValue source begins
            let raw ← slice? source begins stop
            return some (some ⟨before, raw, none⟩, stop)
  else some (some (none, offset))

theorem ofChar?_of_alike {b c : Char} (halike : Alike b c) : Quote.ofChar? b = Quote.ofChar? c := by
  simp only [Quote.ofChar?, halike.eq_iff (show '"'.toNat < 128 by decide),
    halike.eq_iff (show '\''.toNat < 128 by decide)]

/-- The blanks behind a sign are passed over. -/
theorem scan_sign {source front after afterSign : List Char} (hsource : source = front ++ after)
    (hsign : after.dropWhile isBlank = '=' :: afterSign) :
    let before := after.takeWhile isBlank ++ '=' :: afterSign.takeWhile isBlank
    scan isBlank source (byteSize (front ++ after.takeWhile isBlank) + 1) =
      byteSize (front ++ before) ∧ source = front ++ before ++ afterSign.dropWhile isBlank := by
  intro before
  have hpast : source = front ++ after.takeWhile isBlank ++ ['='] ++ afterSign := by
    rw [hsource, List.append_assoc _ ['='], List.singleton_append, ← hsign, List.append_assoc,
      List.takeWhile_append_dropWhile]
  have hsize : front ++ after.takeWhile isBlank ++ ['='] ++ afterSign.takeWhile isBlank =
      front ++ before := by simp [before]
  have hbegins := scan_of_eq coarse_isBlank hpast
  rw [hsize, byteSize_concat_of_lt (by decide)] at hbegins
  refine ⟨hbegins, ?_⟩
  rw [← hsize, List.append_assoc _ (afterSign.takeWhile isBlank),
    List.takeWhile_append_dropWhile, hpast]

/-- A value in quotes is cut out between them. -/
theorem slice?_quoted {source front before rest raw next : List Char} {quote : Quote}
    (hsource : source = front ++ before ++ quote.char :: rest)
    (hsplit : splitAround [quote.char] rest = some (raw, next)) :
    let begins := byteSize (front ++ before)
    slice? source (begins + 1) (begins + 1 + byteSize raw) = some raw ∧
      begins + 1 + byteSize raw + 1 =
        byteSize (front ++ valueText (some ⟨before, raw, some quote⟩)) := by
  intro begins
  have hascii : quote.char.toNat < 128 := by cases quote <;> decide
  have hraw : source = front ++ before ++ [quote.char] ++ raw ++ (quote.char :: next) := by
    rw [hsource, ← splitAround_append hsplit]
    simp
  have hcut := slice?_of_eq hraw
  rw [byteSize_append (_ ++ [quote.char]), byteSize_concat_of_lt hascii] at hcut
  have hone : byteSize [quote.char] = 1 := byteSize_concat_of_lt hascii []
  refine ⟨hcut, ?_⟩
  simp only [begins, valueText, AttributeValue.text, quoteText, byteSize_append, hone]
  omega

/-- The value behind a name is cut out of the source, and the reader stops behind it. -/
theorem valueAt?_of_eq {source front after : List Char} (hsource : source = front ++ after)
    {name : List Char} (hname : name ≠ ['=']) :
    valueAt? source name (byteSize front) =
      some ((readValue? after).map fun (value, _) =>
        (value, byteSize (front ++ valueText value))) := by
  have hblanks : scan isBlank source (byteSize front) =
      byteSize (front ++ after.takeWhile isBlank) := scan_of_eq coarse_isBlank hsource
  have hparts : source = front ++ after.takeWhile isBlank ++ after.dropWhile isBlank := by
    rw [List.append_assoc, List.takeWhile_append_dropWhile, hsource]
  have hsign := getElem?_octets_eq_some_iff hparts (show '='.toNat < 128 by decide)
  unfold valueAt? readValue?
  simp only [hblanks, hsign]
  split
  next hfound =>
    obtain ⟨afterSign, hrest⟩ := List.head?_eq_some_iff.mp hfound.1
    obtain ⟨hbegins, hvalue⟩ := scan_sign hsource hrest
    rw [hrest]
    simp only
    -- the sign with the blanks around it
    generalize
      after.takeWhile isBlank ++ '=' :: afterSign.takeWhile isBlank = before at hbegins hvalue
    have hslice := slice?_of_eq hvalue
    simp only [hbegins]
    cases hrest : afterSign.dropWhile isBlank with
    | nil =>
        rw [hrest, List.append_nil] at hvalue
        rw [← hvalue, getElem?_octets_end]
        rfl
    | cons c rest =>
        rw [hrest] at hvalue
        obtain ⟨b, hfirst, halike⟩ := exists_getElem?_octets hvalue
        simp only [hfirst, hslice, ofChar?_of_alike halike]
        cases hquote : Quote.ofChar? c with
        | some quote =>
            obtain rfl := (Quote.ofChar?_eq_some_iff c quote).mp hquote
            have hafter : source = front ++ before ++ [quote.char] ++ rest := by simp [hvalue]
            have hahead := sliceFrom?_of_eq hafter
            rw [byteSize_concat_of_lt (by cases quote <;> decide)] at hahead
            simp only [Option.bind_eq_bind, Option.bind_some, hahead, find?]
            cases hsplit : splitAround [quote.char] rest with
            | none => rfl
            | some split =>
                obtain ⟨hcut, hstop⟩ := slice?_quoted hvalue hsplit
                simp only [Option.map_some, hcut, hstop, Option.bind_some, Option.pure_def]
        | none =>
            have hbare := scan_of_eq coarse_inBareValue hvalue
            have hraw : source = front ++ before ++ (c :: rest).takeWhile inBareValue ++
                (c :: rest).dropWhile inBareValue := by
              rw [List.append_assoc _ ((c :: rest).takeWhile inBareValue),
                List.takeWhile_append_dropWhile, hvalue]
            simp [-byteSize_append, -List.append_assoc, hbare, slice?_of_eq hraw, valueText,
              AttributeValue.text, quoteText]
            rw [List.append_assoc]
  next hnone =>
    have hhead : (after.dropWhile isBlank).head? ≠ some '=' := fun hhead => hnone ⟨hhead, hname⟩
    split
    next afterSign hrest =>
      rw [hrest] at hhead
      exact absurd rfl hhead
    next => simp [valueText]

/-- Reads an attribute that begins at a byte offset. -/
def readAt? (source gap : List Char) (offset : Nat) : Option (Option (Attribute × Nat)) := do
  let stop := nameStop source offset
  let name ← slice? source offset stop
  let found ← valueAt? source name stop
  return found.map fun (value, next) => (⟨gap, name, value⟩, next)

theorem nameStop_of_stopsName {source front rest : List Char} {c : Char}
    (hsource : source = front ++ c :: rest) (hascii : c.toNat < 128)
    (hstop : stopsName (c :: rest) = true) :
    nameStop source (byteSize front) = byteSize (front ++ [c]) := by
  have hnone : (splitName (octets (c :: rest))).1 = [] := by
    rw [splitName_octets, splitName_of_stopsName hstop]
    rfl
  rw [nameStop, hsource, drop_octets, hnone, byteSize_concat_of_lt hascii]
  exact if_pos rfl

theorem nameStop_of_not_stopsName {source front rest : List Char} {c : Char}
    (hsource : source = front ++ c :: rest) (hstop : stopsName (c :: rest) = false) :
    nameStop source (byteSize front) = byteSize (front ++ c :: (splitName rest).1) := by
  have hsplit : (splitName (octets (c :: rest))).1 = octets (c :: (splitName rest).1) := by
    rw [splitName_octets, splitName_cons_of_not_stopsName hstop]
  have hpos := c.utf8Size_pos
  have hforward : byteSize front + byteSize (c :: (splitName rest).1) ≠ byteSize front := by
    rw [byteSize_cons]
    omega
  rw [nameStop, hsource, drop_octets, hsplit, length_octets, byteSize_append]
  exact if_neg hforward

/-- An attribute is cut out of the source, and the reader stops behind it. -/
theorem readAt?_of_eq {source front rest : List Char} {c : Char}
    (hsource : source = front ++ c :: rest) (gap : List Char)
    (hbegins : c = '=' ∨ stopsName (c :: rest) = false) :
    readAt? source gap (byteSize front) =
      some ((read? gap c rest).map fun (attr, _) => (attr, byteSize (front ++ attr.body))) := by
  unfold readAt? read?
  by_cases hsign : c = '='
  · subst hsign
    have hwhole : source = front ++ ['='] ++ rest := by simp [hsource]
    have hstop := nameStop_of_stopsName hsource (by decide) (by simp [stopsName])
    simp [-byteSize_append, hstop, slice?_of_eq hwhole, valueAt?, body, valueText]
  · have hplain := hbegins.resolve_left hsign
    have hstop := nameStop_of_not_stopsName hsource hplain
    have hwhole : source = front ++ c :: (splitName rest).1 ++ (splitName rest).2 := by
      rw [List.append_assoc, List.cons_append, splitName_append, hsource]
    have hne : c :: (splitName rest).1 ≠ ['='] := by
      intro heq
      exact hsign (List.cons.inj heq).1
    simp only [hstop, slice?_of_eq hwhole, Option.bind_eq_bind, Option.bind_some, if_neg hsign,
      valueAt?_of_eq hwhole hne, Option.pure_def, Option.map_map]
    congr 2
    funext found
    obtain ⟨value, after⟩ := found
    simp [body, Nat.add_assoc]

end Attribute

namespace StartTag

/-- Reads attributes from a byte offset on, no more of them than the limit. The result is nothing
inside where the source ends before the tag does. -/
def attributesAt? (source : List Char) :
    Nat → Nat → Option (Option (List Attribute × List Char × Ending × Nat))
  | 0, _ => none
  | limit + 1, offset => do
      let begins := scan isBlank source offset
      let gap ← slice? source offset begins
      match (octets source)[begins]? with
      | none => return none
      | some b =>
          if b = '>' then return some ([], gap, .plain, begins + 1)
          else if b = '/' ∧ (octets source)[begins + 1]? = some '>' then
            return some ([], gap, .selfClosing, begins + 2)
          else
            match ← Attribute.readAt? source gap begins with
            | none => return none
            | some (attr, next) => do
                let found ← attributesAt? source limit next
                return found.map fun (attributes, others) => (attr :: attributes, others)

/-- Reads a start tag whose angle bracket is at a byte offset, and gives the offset behind the
tag. -/
def readAt? (source : List Char) (position : Nat) : Option (Option (StartTag × Nat)) := do
  let stop := scan Attribute.inTagName source (position + 1)
  let name ← slice? source (position + 1) stop
  let found ← attributesAt? source (source.length + 1) stop
  return found.map fun (attributes, trailing, ending, after) =>
    (⟨name, attributes, trailing, ending⟩, after)

/-- Where a tag does not end, the reader of attributes reads one more. -/
theorem attributesAt?_step {source front text rest : List Char} {c : Char}
    (hsource : source = front ++ text) (htext : text.dropWhile isBlank = c :: rest)
    (hplain : c ≠ '>') (hslash : ∀ after, c = '/' → rest = '>' :: after → False) (limit : Nat) :
    attributesAt? source (limit + 1) (byteSize front) =
      match Attribute.read? (text.takeWhile isBlank) c rest with
      | none => some none
      | some (attr, _) => do
          let found ← attributesAt? source limit (byteSize (front ++ attr.text))
          return found.map fun (attributes, others) => (attr :: attributes, others) := by
  have hparts : source = front ++ text.takeWhile isBlank ++ c :: rest := by
    rw [List.append_assoc, ← htext, List.takeWhile_append_dropWhile, hsource]
  have hgap := slice?_of_eq hparts
  obtain ⟨b, hfirst, halike⟩ := exists_getElem?_octets hparts
  have hb : b ≠ '>' := (halike.eq_iff (by decide)).not.mpr hplain
  have hend : ¬(b = '/' ∧
      (octets source)[byteSize (front ++ text.takeWhile isBlank) + 1]? = some '>') := by
    rintro ⟨hmark, hnext⟩
    obtain rfl := (halike.eq_iff (by decide)).mp hmark
    have hpast : source = front ++ text.takeWhile isBlank ++ ['/'] ++ rest := by simpa using hparts
    rw [← byteSize_concat_of_lt (show '/'.toNat < 128 by decide),
      getElem?_octets_eq_some_iff hpast (by decide)] at hnext
    obtain ⟨after, rfl⟩ := List.head?_eq_some_iff.mp hnext
    exact hslash after rfl rfl
  have hbegins : c = '=' ∨ Attribute.stopsName (c :: rest) = false := by
    have hsolid := List.head_dropWhile_not isBlank (by rw [htext]; simp)
    simp only [htext, List.head_cons] at hsolid
    by_cases hsign : c = '='
    · exact .inl hsign
    · refine .inr ?_
      have hclose : ¬(c = '/' ∧ rest.head? = some '>') := by
        rintro ⟨hmark, hnext⟩
        obtain ⟨after, hrest⟩ := List.head?_eq_some_iff.mp hnext
        exact hslash after hmark hrest
      simpa [Attribute.stopsName, hsolid, hsign, hplain] using hclose
  have hattr := Attribute.readAt?_of_eq hparts (text.takeWhile isBlank) hbegins
  rw [attributesAt?, scan_of_eq coarse_isBlank hsource, hgap]
  simp only [Option.bind_eq_bind, Option.bind_some, hfirst, if_neg hb, if_neg hend, hattr]
  cases hread : Attribute.read? (text.takeWhile isBlank) c rest with
  | none => rfl
  | some found =>
      obtain ⟨attr, after⟩ := found
      obtain ⟨hown, -⟩ := Attribute.read?_append hread
      have hwhole : front ++ text.takeWhile isBlank ++ attr.body = front ++ attr.text := by
        rw [Attribute.text, hown, List.append_assoc]
      simp only [Option.map_some, hwhole]

theorem eq_append_blanks {source front text : List Char} (hsource : source = front ++ text) :
    source = front ++ text.takeWhile isBlank ++ text.dropWhile isBlank := by
  rw [List.append_assoc, List.takeWhile_append_dropWhile, hsource]

/-- Where the source ends before the tag does, the reader of attributes finds nothing. -/
theorem attributesAt?_end {source front text : List Char} (hsource : source = front ++ text)
    (htext : text.dropWhile isBlank = []) (limit : Nat) :
    attributesAt? source (limit + 1) (byteSize front) = some none := by
  have hparts := eq_append_blanks hsource
  have hgap := slice?_of_eq hparts
  rw [htext, List.append_nil] at hparts
  rw [attributesAt?, scan_of_eq coarse_isBlank hsource, hgap, ← hparts]
  simp

/-- Where the tag ends, the reader of attributes stops behind it. -/
theorem attributesAt?_ending {source front text rest : List Char} (ending : Ending)
    (hsource : source = front ++ text) (htext : text.dropWhile isBlank = ending.text ++ rest)
    (limit : Nat) :
    attributesAt? source (limit + 1) (byteSize front) =
      some (some ([], text.takeWhile isBlank, ending,
        byteSize (front ++ (text.takeWhile isBlank ++ ending.text)))) := by
  have hparts := eq_append_blanks hsource
  have hgap := slice?_of_eq hparts
  rw [htext] at hparts
  rw [attributesAt?, scan_of_eq coarse_isBlank hsource, hgap, ← List.append_assoc front]
  cases ending with
  | plain =>
      have hfirst := getElem?_octets_of_lt hparts (by decide)
      have hstop := byteSize_concat_of_lt (show '>'.toNat < 128 by decide)
      simp only [Option.bind_eq_bind, Option.bind_some, hfirst, if_true, Ending.text, hstop,
        Option.pure_def]
  | selfClosing =>
      have hfirst := getElem?_octets_of_lt hparts (by decide)
      have hpast : source = front ++ text.takeWhile isBlank ++ ['/'] ++ '>' :: rest := by
        simpa [Ending.text] using hparts
      have hsecond := getElem?_octets_of_lt hpast (by decide)
      rw [byteSize_concat_of_lt (by decide)] at hsecond
      rw [byteSize_append (front ++ _)]
      simp only [Option.bind_eq_bind, Option.bind_some, hfirst, hsecond, Option.pure_def]
      rfl

/-- Attributes are cut out of the source up to the end of their tag. -/
theorem attributesAt?_of_eq {source : List Char} (after : List Char) :
    ∀ {front : List Char} {limit : Nat}, source = front ++ after → after.length < limit →
      attributesAt? source limit (byteSize front) =
        some ((readAttributes? after).map fun (attributes, trailing, ending, _) =>
          (attributes, trailing, ending,
            byteSize
              (front ++ (attributes.flatMap Attribute.text ++ (trailing ++ ending.text))))) := by
  fun_induction readAttributes? after with
  | @case1 text htext =>
      intro front limit hsource hlimit
      obtain ⟨limit, rfl⟩ := Nat.exists_eq_add_one_of_ne_zero (Nat.ne_zero_of_lt hlimit)
      exact attributesAt?_end hsource htext limit
  | @case2 text gap tail htext =>
      intro front limit hsource hlimit
      obtain ⟨limit, rfl⟩ := Nat.exists_eq_add_one_of_ne_zero (Nat.ne_zero_of_lt hlimit)
      exact attributesAt?_ending .plain hsource htext limit
  | @case3 text gap tail htext =>
      intro front limit hsource hlimit
      obtain ⟨limit, rfl⟩ := Nat.exists_eq_add_one_of_ne_zero (Nat.ne_zero_of_lt hlimit)
      exact attributesAt?_ending .selfClosing hsource htext limit
  | @case4 text gap c rest hplain hslash htext hread =>
      intro front limit hsource hlimit
      obtain ⟨limit, rfl⟩ := Nat.exists_eq_add_one_of_ne_zero (Nat.ne_zero_of_lt hlimit)
      have hnone : Attribute.read? (text.takeWhile isBlank) c rest = none := hread
      rw [attributesAt?_step hsource htext hplain hslash, hnone]
      rfl
  | @case5 text gap c rest hplain hslash htext attr after hread ih =>
      intro front limit hsource hlimit
      obtain ⟨limit, rfl⟩ := Nat.exists_eq_add_one_of_ne_zero (Nat.ne_zero_of_lt hlimit)
      have hfound : Attribute.read? (text.takeWhile isBlank) c rest = some (attr, after) := hread
      obtain ⟨hown, hbody⟩ := Attribute.read?_append hfound
      have hpast : source = front ++ attr.text ++ after := by
        rw [hsource, Attribute.text, hown, List.append_assoc front, List.append_assoc, hbody,
          ← htext, List.takeWhile_append_dropWhile]
      have hshorter : after.length < limit := by
        have hstep := Attribute.read?_length_le hfound
        have hwhole :=
          congrArg List.length (List.takeWhile_append_dropWhile (p := isBlank) (l := text))
        simp only [htext, List.length_append, List.length_cons] at hwhole
        omega
      rw [attributesAt?_step hsource htext hplain hslash, hfound]
      simp only [ih hpast hshorter, Option.bind_eq_bind, Option.bind_some, Option.map_map,
        Option.pure_def]
      congr 2
      funext found
      obtain ⟨attributes, trailing, ending, behind⟩ := found
      simp only [Function.comp_apply, List.flatMap_cons, List.append_assoc]

/-- Every cut that reading a start tag makes goes right. -/
theorem readAt?_of_eq {source front rest : List Char} (hsource : source = front ++ '<' :: rest) :
    readAt? source (byteSize front) =
      some ((read? rest).map fun (tag, _) => (tag, byteSize (front ++ tag.text))) := by
  have hname : source = front ++ ['<'] ++ rest := by simp [hsource]
  have hstop := scan_of_eq coarse_inTagName hname
  have hparts : source = front ++ ['<'] ++ rest.takeWhile Attribute.inTagName ++
      rest.dropWhile Attribute.inTagName := by
    rw [List.append_assoc (front ++ ['<']), List.takeWhile_append_dropWhile, hname]
  have hslice := slice?_of_eq hparts
  have hlimit : (rest.dropWhile Attribute.inTagName).length < source.length + 1 := by
    have hlength := congrArg List.length hparts
    simp only [List.length_append] at hlength
    omega
  rw [byteSize_concat_of_lt (by decide)] at hstop hslice
  unfold readAt? read?
  simp only [hstop, hslice, attributesAt?_of_eq _ hparts hlimit, Option.bind_eq_bind,
    Option.bind_some, Option.map_map, Option.pure_def]
  congr 2
  funext ⟨attributes, trailing, ending, after⟩
  simp [text, body]

end StartTag

/-! ## End tags -/

/-- The name in the text of an end tag. -/
def EndTag.nameOf? (raw : List Char) : Option (List Char) := do
  let body ← sliceFrom? raw 2
  sliceTo? body (byteSize (body.takeWhile Attribute.inTagName))

/-- The end tag that stands between two byte offsets. -/
def EndTag.cut? (source : List Char) (start stop : Nat) : Option EndTag := do
  let raw ← slice? source start stop
  let name ← nameOf? raw
  return ⟨name, raw⟩

theorem EndTag.cut?_of_eq {source front body rest : List Char}
    (hsource : source = front ++ '<' :: '/' :: body ++ rest) :
    cut? source (byteSize front) (byteSize (front ++ '<' :: '/' :: body)) =
      some (Token.endTagOf ('<' :: '/' :: body)) := by
  have hbody : sliceFrom? ('<' :: '/' :: body) 2 = some body := sliceFrom?_append ['<', '/'] body
  have hname := sliceTo?_append (body.takeWhile Attribute.inTagName)
    (body.dropWhile Attribute.inTagName)
  rw [List.takeWhile_append_dropWhile] at hname
  simp [-byteSize_append, cut?, nameOf?, slice?_of_eq hsource, hbody, hname, Token.endTagOf]

namespace Token

/-- Whether a name ends an end tag that has it from a byte offset on. -/
def endsAt? (source name : List Char) (start : Nat) : Option Bool :=
  let stop := start + byteSize name
  if stop ≤ byteSize source then do
    let bytes ← range? (octets source) start stop
    return sameName bytes (octets name) &&
      match (octets source)[stop]? with
      | none => true
      | some b => isBlank b || b == '>' || b == '/'
  else some false

/-- The offset of the first end tag with a name, from a byte offset on. No more places are looked at
than the limit. -/
def endFrom? (source name : List Char) : Nat → Nat → Option (Option Nat)
  | 0, _ => none
  | limit + 1, offset => do
      let rest ← sliceFrom? source offset
      match find? ['<', '/'] rest with
      | none => return none
      | some i =>
          let position := offset + i
          if ← endsAt? source name (position + 2) then return some position
          else endFrom? source name limit (position + 2)

theorem toLower_toNat_lt {c : Char} (hascii : c.toNat < 128) : c.toLower.toNat < 128 := by
  have hall : ∀ number < 128, (Char.ofNat number).toLower.toNat < 128 := by decide
  have hself := hall c.toNat hascii
  rwa [Char.ofNat_toNat] at hself

theorem toLower_of_le {c : Char} (hbeyond : 128 ≤ c.toNat) : c.toLower = c := by
  unfold Char.toLower
  split
  next hupper =>
    have hle : c.val.toNat ≤ 90 := UInt32.le_iff_toNat_le.mp hupper.2
    exact absurd (Nat.le_trans hbeyond hle) (by decide)
  next => rfl

/-- Changing the case of letters does the same to bytes as to characters. -/
theorem octets_map_toLower (text : List Char) :
    octets (text.map Char.toLower) = (octets text).map Char.toLower := by
  induction text with
  | nil => rfl
  | cons c rest ih =>
      rw [List.map_cons, octets_cons, ih, octets_cons c rest, List.map_append]
      congr 1
      by_cases hascii : c.toNat < 128
      · rw [octets_cons_of_lt hascii, octets_cons_of_lt (toLower_toNat_lt hascii)]
        rfl
      · have hbeyond := Nat.not_lt.mp hascii
        have hbytes : (octets [c]).map Char.toLower = octets [c] := by
          rw [List.map_congr_left fun b hmem => toLower_of_le (le_toNat_of_mem_octets hbeyond hmem)]
          exact List.map_id _
        rw [toLower_of_le hbeyond, hbytes]

theorem byteSize_map_toLower (text : List Char) :
    byteSize (text.map Char.toLower) = byteSize text := by
  rw [← length_octets, octets_map_toLower, List.length_map, length_octets]

/-- Bytes that are those of a name up to case begin a text that begins with the name up to case. -/
theorem sameName_take_of_octets {name text : List Char} {bytes : List Char}
    (hbytes : bytes <+: octets text) (hsame : sameName bytes (octets name) = true) :
    sameName (text.take name.length) name = true := by
  simp only [sameName, beq_iff_eq] at hsame ⊢
  have hlower : octets (name.map Char.toLower) <+: octets (text.map Char.toLower) := by
    rw [octets_map_toLower, octets_map_toLower, ← hsame]
    exact hbytes.map _
  have hbegins := isPrefix_of_octets hlower
  have htake := List.prefix_iff_eq_take.mp hbegins
  rw [List.length_map] at htake
  rw [List.map_take, ← htake]

theorem sameName_octets {first second : List Char} (hsame : sameName first second = true) :
    sameName (octets first) (octets second) = true ∧ byteSize first = byteSize second := by
  simp only [sameName, beq_iff_eq] at hsame ⊢
  rw [← octets_map_toLower, ← octets_map_toLower, hsame]
  exact ⟨rfl, by rw [← byteSize_map_toLower first, hsame, byteSize_map_toLower]⟩

/-- A name ends an end tag among the bytes just where it does among the characters. -/
theorem endsAt?_of_eq {source front after : List Char} (name : List Char)
    (hsource : source = front ++ ['<', '/'] ++ after) :
    endsAt? source name (byteSize front + 2) = some (endsHere name ('<' :: '/' :: after)) := by
  have hstart : byteSize front + 2 = byteSize (front ++ ['<', '/']) := by
    rw [byteSize_append]
    rfl
  have hhere : dropStart? ['<', '/'] ('<' :: '/' :: after) = some after := rfl
  generalize front ++ ['<', '/'] = begins at hsource hstart
  rw [endsHere, hhere, hstart, endsAt?]
  dsimp only
  cases hsame : sameName (after.take name.length) name with
  | true =>
      obtain ⟨hbytes, hsize⟩ := sameName_octets hsame
      have hparts : source = begins ++ after.take name.length ++ after.drop name.length := by
        rw [List.append_assoc, List.take_append_drop, hsource]
      have hrange := range?_append (octets begins) (octets (after.take name.length))
        (octets (after.drop name.length))
      rw [← octets_append, ← octets_append, ← List.append_assoc, ← hparts, length_octets,
        length_octets, ← byteSize_append] at hrange
      have hstop : byteSize begins + byteSize name =
          byteSize (begins ++ after.take name.length) := by
        rw [byteSize_append, hsize]
      have hin : byteSize (begins ++ after.take name.length) ≤ byteSize source := by
        rw [hparts, byteSize_append _ (after.drop name.length)]
        exact Nat.le_add_right _ _
      simp only [hstop, if_pos hin, hrange, Option.bind_eq_bind, Option.bind_some, hbytes,
        Bool.true_and, Option.pure_def]
      cases htail : after.drop name.length with
      | nil =>
          rw [htail, List.append_nil] at hparts
          rw [← hparts, getElem?_octets_end]
      | cons c rest =>
          rw [htail] at hparts
          obtain ⟨b, hnext, halike⟩ := exists_getElem?_octets hparts
          have hblank : isBlank b = isBlank c := halike _ coarse_isBlank
          have hclose : (b == '>') = (c == '>') := halike _ (coarse_beq (by decide))
          have hslash : (b == '/') = (c == '/') := halike _ (coarse_beq (by decide))
          simp only [hnext, hblank, hclose, hslash]
  | false =>
      by_cases hin : byteSize begins + byteSize name ≤ byteSize source
      · rw [if_pos hin, range?, if_pos ⟨Nat.le_add_right _ _, by rwa [length_octets]⟩, hsource,
          drop_octets, Nat.add_sub_cancel_left]
        have hbytes : sameName ((octets after).take (byteSize name)) (octets name) = false := by
          apply Bool.eq_false_iff.mpr
          intro hbytes
          rw [sameName_take_of_octets (List.take_prefix _ _) hbytes] at hsame
          cases hsame
        simp [hbytes]
      · rw [if_neg hin]
        rfl

theorem endsHere_eq_false {text : List Char} (hnone : dropStart? ['<', '/'] text = none)
    (name : List Char) : endsHere name text = false := by
  rw [endsHere, hnone]

theorem splitAtEnd_cons_of_not {c : Char} {rest : List Char}
    (hnone : dropStart? ['<', '/'] (c :: rest) = none) (name : List Char) :
    splitAtEnd name (c :: rest) =
      (splitAtEnd name rest).map fun (content, close) => (c :: content, close) := by
  rw [splitAtEnd, endsHere_eq_false hnone]
  rfl

/-- The first end tag with a name is at the first place where any end tag is, or behind it. -/
theorem splitAtEnd_of_splitAround {name text before after : List Char}
    (hsplit : splitAround ['<', '/'] text = some (before, after)) :
    splitAtEnd name text =
      if endsHere name ('<' :: '/' :: after) then some (before, '<' :: '/' :: after)
      else (splitAtEnd name after).map fun (content, close) =>
        (before ++ '<' :: '/' :: content, close) := by
  induction text generalizing before with
  | nil => cases hsplit
  | cons c rest ih =>
      unfold splitAround at hsplit
      split at hsplit
      next found hfound =>
        obtain ⟨rfl, rfl⟩ := Prod.mk.inj (Option.some.inj hsplit)
        rw [dropStart?_eq_some_iff.mp hfound, List.cons_append, List.cons_append, List.nil_append,
          splitAtEnd, splitAtEnd_cons_of_not rfl, Option.map_map]
        rfl
      next hnone =>
        obtain ⟨⟨front, tail⟩, hrest, heq⟩ := Option.map_eq_some_iff.mp hsplit
        obtain ⟨rfl, rfl⟩ := Prod.mk.inj heq
        rw [splitAtEnd_cons_of_not hnone, ih hrest]
        split
        next => rfl
        next =>
          rw [Option.map_map]
          rfl

theorem splitAtEnd_eq_none {name text : List Char} (hnone : splitAround ['<', '/'] text = none) :
    splitAtEnd name text = none := by
  induction text with
  | nil => rfl
  | cons c rest ih =>
      unfold splitAround at hnone
      split at hnone
      next => cases hnone
      next hfirst =>
        rw [splitAtEnd_cons_of_not hfirst, ih (Option.map_eq_none_iff.mp hnone), Option.map_none]

/-- Every cut that looking for an end tag makes goes right. -/
theorem endFrom?_of_eq {source : List Char} (name : List Char) {limit : Nat} :
    ∀ {front after : List Char}, source = front ++ after → after.length < limit →
      endFrom? source name limit (byteSize front) =
        some ((splitAtEnd name after).map fun (content, _) => byteSize (front ++ content)) := by
  induction limit with
  | zero =>
      intro front after hsource hlimit
      cases hlimit
  | succ limit ih =>
      intro front after hsource hlimit
      rw [endFrom?, sliceFrom?_of_eq hsource]
      cases hsplit : splitAround ['<', '/'] after with
      | none => simp [find?, hsplit, splitAtEnd_eq_none hsplit]
      | some parts =>
          obtain ⟨before, tail⟩ := parts
          have hparts : source = front ++ before ++ ['<', '/'] ++ tail := by
            rw [hsource, ← splitAround_append hsplit]
            simp
          have hends := endsAt?_of_eq name hparts
          have hpast : byteSize (front ++ before) + 2 =
              byteSize (front ++ before ++ ['<', '/']) := by
            rw [byteSize_append _ ['<', '/']]
            rfl
          have hshorter : tail.length < limit := by
            have hlength := congrArg List.length (splitAround_append hsplit)
            simp only [List.length_append, List.length_cons] at hlength
            omega
          have hrest := ih hparts hshorter
          rw [splitAtEnd_of_splitAround hsplit]
          simp only [find?, hsplit, Option.map_some, Option.bind_eq_bind, Option.bind_some,
            ← byteSize_append, hends]
          split
          next => rfl
          next =>
            rw [hpast, hrest, Option.map_map]
            congr 2
            funext ⟨content, close⟩
            simp

end Token

end Markup
