import Markup.Proofs.Offsets.Tag
import Markup.Proofs.Offsets.Words
import Markup.Proofs.Tree.Extent

/-!
# Reading a source by byte offsets

A scanner goes through its source by byte offsets. It does not hold back any text but the offset at
which the text that waits begins, and cuts a node out of the source when the node ends. Main
statement: `Scanner.document?_eq`, by which every cut goes right for every source: the tree is the
one that is built from the tokens of the source.
-/

namespace Markup

open Markup.Text

/-- A tree under construction, by byte offsets: the number of the next node, and the offset at which
the text begins that waits to become a node, if there is any. -/
structure Scanner where
  next : Nat := 0
  waiting : Option Nat := none
  nesting : Nesting := {}
  reports : List Report := []
  deriving Inhabited

namespace Scanner

/-- Holds back the text from a byte offset on, unless text from further in front is held back. -/
def mark (scanner : Scanner) (offset : Nat) : Scanner :=
  { scanner with waiting := some (scanner.waiting.getD offset) }

/-- Adds a leaf that is cut out between two byte offsets. -/
def addLeaf? (source : List Char) (scanner : Scanner) (kind : LeafKind) (start stop : Nat) :
    Option Scanner := do
  let raw ← slice? source start stop
  return { scanner with
    next := scanner.next + 1
    nesting := scanner.nesting.append (.leaf ⟨kind, scanner.next, raw, ⟨start, stop⟩⟩) }

/-- Makes a node of the text that waits, which ends at a byte offset, and cuts it into fragments. -/
def flush? (source : List Char) (scanner : Scanner) (stop : Nat) : Option Scanner :=
  match scanner.waiting with
  | none => some scanner
  | some start =>
      if start < stop then do
        let raw ← slice? source start stop
        let _ ← fragments? raw
        addLeaf? source { scanner with waiting := none } .text start stop
      else some { scanner with waiting := none }

/-- Gives up on a construct that begins at a byte offset; the rest of the source becomes text. -/
def recover (source : List Char) (scanner : Scanner) (construct : Construct) (position : Nat) :
    Nat × Scanner :=
  let report : Report := ⟨position, construct⟩
  (byteSize source, { scanner.mark position with reports := scanner.reports ++ [report] })

/-- Reads a leaf that is not text from one byte offset to another, if its end has been found. -/
def leaf? (source : List Char) (scanner : Scanner) (kind : LeafKind) (construct : Construct)
    (position : Nat) : Option Nat → Option (Nat × Scanner)
  | none => some (scanner.recover source construct position)
  | some stop => do
      let flushed ← scanner.flush? source position
      let added ← flushed.addLeaf? source kind position stop
      return (stop, added)

/-- Reads an end tag from a byte offset on. -/
def endTag? (source : List Char) (scanner : Scanner) (position : Nat) :
    Option (Nat × Scanner) := do
  let rest ← sliceFrom? source position
  match find? ['>'] rest with
  | none => return scanner.recover source .endTag position
  | some i => do
      let stop := position + i + 1
      let tag ← EndTag.cut? source position stop
      match scanner.nesting.inside? tag.name with
      | none => return (stop, scanner.mark position)
      | some count => do
          let flushed ← scanner.flush? source position
          let nesting := (flushed.nesting.popMany position count).pop (some tag) ⟨position, stop⟩
          return (stop, { flushed with nesting := nesting })

/-- Where the content of a raw text element ends that begins at a byte offset, and where the end tag
ends, if it has one. -/
def rawEnd? (source name : List Char) (start : Nat) : Option (Option (Nat × Nat)) := do
  match ← Token.endFrom? source name (source.length + 1) start with
  | none => return none
  | some position => do
      let rest ← sliceFrom? source position
      return (find? ['>'] rest).map fun i => (position, position + i + 1)

/-- The content of a raw text element between two byte offsets as its children. -/
def rawChildren? (source : List Char) (id start stop : Nat) : Option (List Node) :=
  if start < stop then
    (slice? source start stop).map fun raw => [.leaf ⟨.verbatim, id, raw, ⟨start, stop⟩⟩]
  else some []

/-- The end tag between two byte offsets, if there is one. -/
def close? (source : List Char) : Option (Nat × Nat) → Option (Option EndTag)
  | none => some none
  | some (start, stop) => (EndTag.cut? source start stop).map some

/-- Adds an element with raw text as its content, from the end of its start tag on. -/
def rawElement? (source : List Char) (scanner : Scanner) (tag : StartTag) (opened : Span) :
    Option (Nat × Scanner) := do
  let close ← rawEnd? source tag.name opened.stop
  let contentStop := (close.map (·.1)).getD (byteSize source)
  let stop := (close.map (·.2)).getD (byteSize source)
  let children ← rawChildren? source (scanner.next + 1) opened.stop contentStop
  let endTag ← close? source close
  return (stop, { scanner with
    next := scanner.next + 1 + children.length
    nesting := scanner.nesting.append
      (.element ⟨scanner.next, tag, endTag, opened, ⟨contentStop, stop⟩⟩ children) })

/-- Opens an element between the byte offsets of its start tag, or adds all of it if it has no
content or its content is raw text. -/
def addElement? (source : List Char) (scanner : Scanner) (tag : StartTag) (opened : Span) :
    Option (Nat × Scanner) :=
  if tag.ending = .selfClosing || Tag.isVoid tag.name then
    some (opened.stop, { scanner with
      next := scanner.next + 1
      nesting := scanner.nesting.append
        (.element ⟨scanner.next, tag, none, opened, ⟨opened.stop, opened.stop⟩⟩ []) })
  else if Tag.isRawText tag.name then scanner.rawElement? source tag opened
  else
    some (opened.stop, { scanner with
      next := scanner.next + 1
      nesting := scanner.nesting.push ⟨scanner.next, tag, opened, #[]⟩ })

/-- Reads an element from a byte offset on: its start tag, and all of it if its content is raw
text. -/
def element? (source : List Char) (scanner : Scanner) (position : Nat) :
    Option (Except TooDeep (Nat × Scanner)) := do
  match ← StartTag.readAt? source position with
  | none => return .ok (scanner.recover source .startTag position)
  | some (tag, stop) => do
      let flushed ← scanner.flush? source position
      let nesting := flushed.nesting.popImplied position tag.name
      if maximumDepth ≤ nesting.depth then return .error ⟨position⟩
      else do
        let added ← { flushed with nesting := nesting }.addElement? source tag ⟨position, stop⟩
        return .ok added

/-- Reads what begins with the angle bracket at a byte offset, and gives the offset behind it. -/
def markup? (source : List Char) (scanner : Scanner) (position : Nat) :
    Option (Except TooDeep (Nat × Scanner)) := do
  let rest ← sliceFrom? source position
  let second := (octets rest)[1]?
  let third := (octets rest)[2]?
  if (dropStart? ['<', '!', '-', '-'] rest).isSome then do
    let body ← sliceFrom? rest 4
    let stop := (find? ['-', '-', '>'] body).map fun i => position + 4 + i + 3
    let read ← scanner.leaf? source .comment .comment position stop
    return .ok read
  else if (dropStart? ['<', '!', '[', 'C', 'D', 'A', 'T', 'A', '['] rest).isSome then do
    let stop := (find? [']', ']', '>'] rest).map fun i => position + i + 3
    let read ← scanner.leaf? source .verbatim .cdata position stop
    return .ok read
  else if second = some '!' ∨ second = some '?' then do
    let stop := (find? ['>'] rest).map fun i => position + i + 1
    let read ← scanner.leaf? source .doctype .declaration position stop
    return .ok read
  else if second = some '/' ∧ third.any Char.isAlpha then do
    let read ← scanner.endTag? source position
    return .ok read
  else if second.any Char.isAlpha then scanner.element? source position
  else return .ok (position + 1, scanner.mark position)

/-- Reads a source from a byte offset to its end, no more constructs of it than the limit. -/
def readFrom? (source : List Char) : Nat → Nat → Scanner → Option (Except TooDeep Scanner)
  | 0, _, _ => none
  | limit + 1, offset, scanner =>
      if offset < byteSize source then do
        let rest ← sliceFrom? source offset
        match find? ['<'] rest with
        | none => return .ok (scanner.mark offset)
        | some i => do
            let position := offset + i
            let marked := if offset < position then scanner.mark offset else scanner
            match ← marked.markup? source position with
            | .error failure => return .error failure
            | .ok (next, after) => readFrom? source limit next after
      else return .ok scanner

/-- Reads a source as a tree. -/
def document? (source : List Char) : Option (Except TooDeep Document) := do
  match ← readFrom? source (source.length + 1) 0 {} with
  | .error failure => return .error failure
  | .ok scanner => do
      let flushed ← scanner.flush? source (byteSize source)
      return .ok ⟨source, flushed.nesting.finish (byteSize source), flushed.next, flushed.reports⟩

end Scanner

/-! ## The scanner and the builder -/

namespace Builder

/-- What a scanner has where a builder stands. -/
def scanner (builder : Builder) : Scanner :=
  ⟨builder.next, if builder.waiting = [] then none else some builder.position, builder.nesting,
    builder.reports⟩

/-- The builder has read this part of its source, of which the text held back is the end. -/
def HasRead (builder : Builder) (front : List Char) : Prop :=
  ∃ read, front = read ++ builder.waiting ∧ builder.position = byteSize read

variable {builder : Builder} {source front rest : List Char}

theorem HasRead.offset (hread : builder.HasRead front) : builder.offset = byteSize front := by
  obtain ⟨read, rfl, hposition⟩ := hread
  rw [Builder.offset, hposition, byteSize_append]

theorem HasRead.hold (hread : builder.HasRead front) (raw : List Char) :
    (builder.hold raw).HasRead (front ++ raw) := by
  obtain ⟨read, rfl, hposition⟩ := hread
  exact ⟨read, by simp [Builder.hold], hposition⟩

theorem hasRead_of_waiting (hwaiting : builder.waiting = [])
    (hposition : builder.position = byteSize front) :
    builder.HasRead front :=
  ⟨front, by simp [hwaiting], hposition⟩

theorem HasRead.position_flush (hread : builder.HasRead front) :
    builder.flush.position = byteSize front := by
  obtain ⟨read, rfl, hposition⟩ := hread
  unfold flush
  split
  next hnil => simp [hnil, hposition]
  next c rest hcons => simp [addLeaf, hcons, hposition]

/-- Holding text back is marking where it begins. -/
theorem HasRead.scanner_hold (hread : builder.HasRead front) {raw : List Char} (hne : raw ≠ []) :
    (builder.hold raw).scanner = builder.scanner.mark (byteSize front) := by
  obtain ⟨read, rfl, hposition⟩ := hread
  unfold scanner Builder.hold Scanner.mark
  by_cases hwaiting : builder.waiting = []
  · simp [hwaiting, hne, hposition]
  · simp [hwaiting]

theorem addLeaf?_of_eq (hwaiting : builder.waiting = [])
    (hposition : builder.position = byteSize front) {raw : List Char}
    (hsource : source = front ++ raw ++ rest) (kind : LeafKind) :
    builder.scanner.addLeaf? source kind (byteSize front) (byteSize (front ++ raw)) =
      some (builder.addLeaf kind raw).scanner := by
  unfold Scanner.addLeaf?
  rw [slice?_of_eq hsource, byteSize_append]
  simp [scanner, addLeaf, hwaiting, hposition]

/-- When text ends, the scanner cuts it out and makes the node that the builder makes. -/
theorem HasRead.flush? (hread : builder.HasRead front) (hsource : source = front ++ rest) :
    builder.scanner.flush? source (byteSize front) = some builder.flush.scanner := by
  obtain ⟨read, rfl, hposition⟩ := hread
  cases hwaiting : builder.waiting with
  | nil => simp [Scanner.flush?, flush, scanner, hwaiting]
  | cons c others =>
      rw [hwaiting] at hsource
      have hpos := c.utf8Size_pos
      have hlt : byteSize read < byteSize (read ++ c :: others) := by
        rw [byteSize_append, byteSize_cons]
        omega
      have hleaf := @addLeaf?_of_eq { builder with waiting := [] } source read rest rfl hposition
        (c :: others) hsource .text
      have hstart : builder.scanner.waiting = some (byteSize read) := by
        simp [scanner, hwaiting, hposition]
      have hflush : builder.flush = { builder with waiting := [] }.addLeaf .text (c :: others) := by
        simp [flush, hwaiting]
      rw [Scanner.flush?, hstart, hflush]
      simp only [if_pos hlt, slice?_of_eq hsource, fragments?_eq, Option.bind_eq_bind,
        Option.bind_some]
      exact hleaf

theorem HasRead.leaf? (hread : builder.HasRead front) {raw : List Char}
    (hsource : source = front ++ raw ++ rest) (kind : LeafKind) (construct : Construct) :
    builder.scanner.leaf? source kind construct (byteSize front) (some (byteSize (front ++ raw))) =
      some (byteSize (front ++ raw), (builder.flush.addLeaf kind raw).scanner) := by
  have hrest : source = front ++ (raw ++ rest) := by rw [hsource, List.append_assoc]
  rw [Scanner.leaf?, hread.flush? hrest]
  simp only [Option.bind_eq_bind, Option.bind_some,
    addLeaf?_of_eq builder.waiting_flush hread.position_flush hsource, Option.pure_def]

theorem HasRead.recover (hread : builder.HasRead front) {raw : List Char} (hne : raw ≠ [])
    (hsource : source = front ++ raw) (construct : Construct) :
    builder.scanner.recover source construct (byteSize front) =
      (byteSize (front ++ raw),
        (Builder.hold { builder with
          reports := builder.reports ++ [Report.mk builder.offset construct] } raw).scanner) := by
  have hmark := hread.scanner_hold hne
  rw [hread.offset, hsource]
  simp only [Scanner.recover, ← hmark]
  rfl

/-- Where a scanner stands behind a token, and what it has, if the builder can add the token. -/
def behind (builder : Builder) (front : List Char) (token : Token) :
    Except TooDeep (Nat × Scanner) :=
  (builder.add token).map fun added => (byteSize (front ++ token.source), added.scanner)

/-- A construct that goes on until a pattern ends it is cut out, or given up on. -/
theorem HasRead.readUntil (hread : builder.HasRead front) {opening body : List Char}
    (hopening : opening ≠ []) (hsource : source = front ++ (opening ++ body)) (pattern : List Char)
    {kind : LeafKind} (construct : Construct) {token : List Char → Token}
    (htext : ∀ raw, (token raw).source = raw)
    (hadd : ∀ raw, builder.add (token raw) = .ok (builder.flush.addLeaf kind raw))
    {stop : Nat → Nat}
    (hstop : ∀ i, stop i = byteSize front + byteSize opening + i + byteSize pattern) :
    ((builder.scanner.leaf? source kind construct (byteSize front)
        ((find? pattern body).map stop)).bind fun read => some (Except.ok read)) =
      some (builder.behind front (Token.readUntil construct token opening pattern body).1) := by
  unfold Token.readUntil behind find?
  cases hsplit : splitAround pattern body with
  | none =>
      have hne : opening ++ body ≠ [] := by simp [hopening]
      have hrecover := hread.recover hne hsource construct
      exact congrArg (fun read => some (Except.ok read)) hrecover
  | some parts =>
      obtain ⟨inner, after⟩ := parts
      have hraw : source = front ++ (opening ++ (inner ++ pattern)) ++ after := by
        rw [hsource, ← splitAround_append hsplit]
        simp
      have hend : stop (byteSize inner) = byteSize (front ++ (opening ++ (inner ++ pattern))) := by
        simp only [hstop, byteSize_append, Nat.add_assoc]
      have hleaf := hread.leaf? hraw kind construct
      simp only [Option.map_some, hend, hleaf, hadd, htext, Option.bind_some]
      rfl

theorem find?_cons_of_ne {p c : Char} (hne : p ≠ c) (pattern text : List Char) :
    find? (p :: pattern) (c :: text) = (find? (p :: pattern) text).map (c.utf8Size + ·) := by
  have hnone : dropStart? (p :: pattern) (c :: text) = none := if_neg hne
  rw [find?, find?, splitAround, hnone, Option.map_map, Option.map_map]
  rfl

theorem HasRead.scanner_endElement (hread : builder.HasRead front) {tag : EndTag}
    (hne : tag.raw ≠ []) :
    (builder.endElement tag).scanner =
      match builder.nesting.inside? tag.name with
      | none => builder.scanner.mark (byteSize front)
      | some count =>
          { builder.flush.scanner with
            nesting := (builder.flush.nesting.popMany (byteSize front) count).pop (some tag)
              ⟨byteSize front, byteSize (front ++ tag.raw)⟩ } := by
  unfold endElement
  cases hfound : builder.nesting.inside? tag.name with
  | none => exact hread.scanner_hold hne
  | some count =>
      simp only [scanner, hread.position_flush, builder.waiting_flush, byteSize_append]
      rfl

/-- An end tag is cut out, and ends the elements that it ends for the builder. -/
theorem HasRead.endTag? (hread : builder.HasRead front) {body : List Char} {c : Char}
    (hsource : source = front ++ '<' :: '/' :: c :: body) (halpha : c.isAlpha = true) :
    ∃ read, builder.scanner.endTag? source (byteSize front) = some read ∧
      builder.behind front (Token.readMarkup ('/' :: c :: body)).1 = .ok read := by
  rw [Token.readMarkup_endTag halpha, Scanner.endTag?, sliceFrom?_of_eq hsource]
  unfold Token.readEndTag?
  simp only [Option.bind_eq_bind, Option.bind_some, find?]
  cases hsplit : splitAround ['>'] ('<' :: '/' :: c :: body) with
  | none =>
      have hrecover := hread.recover (List.cons_ne_nil '<' ('/' :: c :: body)) hsource .endTag
      exact ⟨_, congrArg some hrecover, rfl⟩
  | some parts =>
      obtain ⟨raw, after⟩ := parts
      obtain ⟨inner, hinner⟩ : ∃ inner, raw ++ ['>'] = '<' :: '/' :: inner := by
        have hparts := splitAround_append hsplit
        rcases raw with _ | ⟨first, _ | ⟨second, others⟩⟩
        · cases hparts
        · cases hparts
        · obtain ⟨rfl, htail⟩ := List.cons.inj hparts
          obtain ⟨rfl, -⟩ := List.cons.inj htail
          exact ⟨others ++ ['>'], rfl⟩
      have hraw : source = front ++ '<' :: '/' :: inner ++ after := by
        rw [hsource, ← splitAround_append hsplit, hinner]
        simp
      have hstop : byteSize front + byteSize raw + 1 = byteSize (front ++ '<' :: '/' :: inner) := by
        rw [← hinner, ← List.append_assoc, byteSize_concat_of_lt (by decide), byteSize_append]
      have hrest : source = front ++ ('<' :: '/' :: inner ++ after) := by
        rw [hraw, List.append_assoc]
      have hflush := hread.flush? hrest
      have htag := hread.scanner_endElement
        (show (Token.endTagOf ('<' :: '/' :: inner)).raw ≠ [] from List.cons_ne_nil _ _)
      simp only [Option.map_some, hstop, EndTag.cut?_of_eq hraw, hinner, Option.bind_some, hflush]
      unfold behind
      simp only [add, Except.map, htag]
      have hnesting : builder.scanner.nesting = builder.nesting := rfl
      rw [hnesting]
      split
      next => exact ⟨_, rfl, rfl⟩
      next => exact ⟨_, rfl, rfl⟩

/-! ## Elements -/

theorem rawEnd?_of_eq {after : List Char} (name : List Char) (hsource : source = front ++ after) :
    Scanner.rawEnd? source name (byteSize front) =
      some ((Token.readRawText name after).2.1.map fun tag =>
        (byteSize (front ++ (Token.readRawText name after).1),
          byteSize (front ++ (Token.readRawText name after).1 ++ tag.raw))) := by
  have hlimit : after.length < source.length + 1 := by
    have hlength := congrArg List.length hsource
    rw [List.length_append] at hlength
    omega
  rw [Scanner.rawEnd?, Token.endFrom?_of_eq name hsource hlimit]
  unfold Token.readRawText Token.readEndTag? find?
  cases hsplit : Token.splitAtEnd name after with
  | none => rfl
  | some parts =>
      obtain ⟨content, close⟩ := parts
      have hclose : source = front ++ content ++ close := by
        rw [hsource, ← Token.splitAtEnd_append hsplit, List.append_assoc]
      simp only [Option.map_some, Option.bind_eq_bind, Option.bind_some, sliceFrom?_of_eq hclose]
      cases hfound : splitAround ['>'] close with
      | none => rfl
      | some found =>
          obtain ⟨raw, rest⟩ := found
          have hstop : byteSize (front ++ content) + byteSize raw + 1 =
              byteSize (front ++ content ++ (raw ++ ['>'])) := by
            rw [← List.append_assoc, byteSize_concat_of_lt (by decide), byteSize_append _ raw]
          simp only [Option.map_some, hstop]
          rfl

/-- The end tag of a raw text element has the text of one. -/
theorem exists_raw_of_readRawText {name after : List Char} {tag : EndTag}
    (hclose : (Token.readRawText name after).2.1 = some tag) :
    ∃ inner, tag = Token.endTagOf ('<' :: '/' :: inner) := by
  unfold Token.readRawText at hclose
  split at hclose
  next => cases hclose
  next content close hsplit =>
    split at hclose
    next => cases hclose
    next found rest hread =>
      cases hclose
      have hhere := Token.endsHere_of_splitAtEnd hsplit
      unfold Token.endsHere at hhere
      split at hhere
      next => cases hhere
      next tail htail =>
        obtain rfl := dropStart?_eq_some_iff.mp htail
        obtain ⟨body, -, htag, -⟩ := Token.readEndTag?_eq_some_iff.mp hread
        exact ⟨body ++ ['>'], htag⟩

/-- The content of a raw text element as its children. -/
def rawChildren (id : Nat) (content : List Char) (start : Nat) : List Node :=
  match content with
  | [] => []
  | _ :: _ => [.leaf ⟨.verbatim, id, content, ⟨start, start + byteSize content⟩⟩]

theorem scanner_addRawElement (hwaiting : builder.waiting = [])
    (hposition : builder.position = byteSize front) (tag : StartTag) (content : List Char)
    (close : Option EndTag) :
    (builder.addRawElement tag content close).scanner =
      let contentStart := byteSize (front ++ tag.text)
      let contentStop := byteSize (front ++ tag.text ++ content)
      let children := rawChildren (builder.next + 1) content contentStart
      { builder.scanner with
        next := builder.next + 1 + children.length
        nesting := builder.nesting.append
          (.element ⟨builder.next, tag, close, ⟨byteSize front, contentStart⟩,
            ⟨contentStop, byteSize (front ++ tag.text ++ content ++ Token.closeText close)⟩⟩
              children) } := by
  cases content with
  | nil =>
      simp [addRawElement, scanner, hwaiting, hposition, rawChildren, Nesting.push, Nesting.pop,
        OpenElement.close, Nat.add_assoc]
  | cons c rest =>
      simp [addRawElement, scanner, hwaiting, hposition, rawChildren, Nesting.push, Nesting.pop,
        Nesting.append, OpenElement.close, addLeaf, Nat.add_assoc]

/-- Raw text without an end tag goes on to the end of the source. -/
theorem fst_readRawText_of_none {name after : List Char}
    (hclose : (Token.readRawText name after).2.1 = none) :
    (Token.readRawText name after).1 = after := by
  unfold Token.readRawText at hclose ⊢
  split
  next => rfl
  next content close hsplit =>
    split
    next => rfl
    next tag rest hread =>
      rw [hsplit] at hclose
      simp only [hread] at hclose
      cases hclose

theorem rawChildren?_of_eq {content : List Char} (hsource : source = front ++ content ++ rest)
    (id : Nat) :
    Scanner.rawChildren? source id (byteSize front) (byteSize (front ++ content)) =
      some (rawChildren id content (byteSize front)) := by
  rw [Scanner.rawChildren?, slice?_of_eq hsource, byteSize_append]
  cases content with
  | nil => simp [rawChildren]
  | cons c others =>
      have hpos := c.utf8Size_pos
      rw [if_pos (by rw [byteSize_cons]; omega)]
      rfl

/-- An element with raw text is cut out piece by piece, and becomes the element of the builder. -/
theorem rawElement?_of_eq (hwaiting : builder.waiting = [])
    (hposition : builder.position = byteSize front) (tag : StartTag) {after : List Char}
    (hsource : source = front ++ tag.text ++ after) :
    builder.scanner.rawElement? source tag ⟨byteSize front, byteSize (front ++ tag.text)⟩ =
      some (byteSize (front ++ (Token.rawElement tag (Token.readRawText tag.name after).1
          (Token.readRawText tag.name after).2.1).source),
        (builder.addRawElement tag (Token.readRawText tag.name after).1
          (Token.readRawText tag.name after).2.1).scanner) := by
  have hwhole := Token.readRawText_append tag.name after
  have hraw := fun endTag => @exists_raw_of_readRawText tag.name after endTag
  have hopen := @fst_readRawText_of_none tag.name after
  rw [scanner_addRawElement hwaiting hposition, Scanner.rawElement?, rawEnd?_of_eq _ hsource]
  generalize (Token.readRawText tag.name after).1 = content at *
  generalize (Token.readRawText tag.name after).2.1 = close at *
  generalize (Token.readRawText tag.name after).2.2 = rest at *
  have hparts : source = front ++ tag.text ++ content ++ (Token.closeText close ++ rest) := by
    rw [hsource, ← hwhole, List.append_assoc (front ++ tag.text)]
  have hsourceOf : Token.source (.rawElement tag content close) =
      tag.text ++ (content ++ Token.closeText close) := rfl
  have hend : byteSize (front ++ Token.source (.rawElement tag content close)) =
      byteSize (front ++ tag.text ++ content ++ Token.closeText close) := by
    simp [hsourceOf]
  have hchildren := rawChildren?_of_eq hparts (builder.next + 1)
  rw [hend]
  cases close with
  | none =>
      obtain rfl := hopen rfl
      have hstop : byteSize source = byteSize (front ++ tag.text ++ content) := by rw [← hsource]
      simp only [Option.map_none, Option.bind_eq_bind, Option.bind_some, Option.getD_none, hstop]
      simp only [show builder.scanner.next = builder.next from rfl, hchildren, Option.bind_some,
        Scanner.close?, Option.pure_def, Token.closeText, List.append_nil]
      rfl
  | some endTag =>
      obtain ⟨inner, htag⟩ := hraw endTag rfl
      have hcut : EndTag.cut? source (byteSize (front ++ tag.text ++ content))
          (byteSize (front ++ tag.text ++ content ++ endTag.raw)) = some endTag := by
        have hraw : endTag.raw = '<' :: '/' :: inner := by rw [htag]; rfl
        rw [Token.closeText, hraw, ← List.append_assoc] at hparts
        rw [hraw, EndTag.cut?_of_eq hparts, htag]
      simp only [Option.map_some, Option.bind_eq_bind, Option.bind_some, Option.getD_some]
      simp only [show builder.scanner.next = builder.next from rfl, hchildren, Option.bind_some,
        Scanner.close?, hcut, Option.map_some, Option.pure_def, Token.closeText]
      rfl

theorem HasRead.prepare (hread : builder.HasRead front) (name : List Char) :
    builder.prepare name =
      if maximumDepth ≤ (builder.flush.nesting.popImplied (byteSize front) name).depth then
        .error ⟨byteSize front⟩
      else .ok { builder.flush with
        nesting := builder.flush.nesting.popImplied (byteSize front) name } := by
  rw [← hread.position_flush]
  rfl

theorem scanner_startElement (hwaiting : builder.waiting = [])
    (hposition : builder.position = byteSize front) (tag : StartTag) :
    (builder.startElement tag).scanner = { builder.scanner with
      next := builder.next + 1
      nesting :=
        if tag.ending = .selfClosing || Tag.isVoid tag.name then
          builder.nesting.append (.element ⟨builder.next, tag, none,
            ⟨byteSize front, byteSize (front ++ tag.text)⟩,
            ⟨byteSize (front ++ tag.text), byteSize (front ++ tag.text)⟩⟩ [])
        else builder.nesting.push
          ⟨builder.next, tag, ⟨byteSize front, byteSize (front ++ tag.text)⟩, #[]⟩ } := by
  unfold startElement scanner
  rw [byteSize_append, hposition, if_pos hwaiting]
  split
  next => rfl
  next => rfl

/-- The token of an element whose start tag has been read. -/
def elementToken (tag : StartTag) (after : List Char) : Token :=
  if tag.takesRawText then
    .rawElement tag (Token.readRawText tag.name after).1 (Token.readRawText tag.name after).2.1
  else .startTag tag

/-- What a token of an element adds to a builder that is prepared for it. -/
def addElement (builder : Builder) (tag : StartTag) (after : List Char) : Builder :=
  if tag.takesRawText then
    builder.addRawElement tag (Token.readRawText tag.name after).1
      (Token.readRawText tag.name after).2.1
  else builder.startElement tag

theorem add_elementToken (builder : Builder) (tag : StartTag) (after : List Char) :
    builder.add (elementToken tag after) =
      (builder.prepare tag.name).map (addElement · tag after) := by
  unfold elementToken addElement
  split
  next => rfl
  next => rfl

theorem fst_readStartTag {body after : List Char} {tag : StartTag}
    (htag : StartTag.read? body = some (tag, after)) :
    (Token.readStartTag body).1 = elementToken tag after := by
  unfold Token.readStartTag elementToken StartTag.takesRawText
  simp only [htag]
  split
  next => rfl
  next => rfl

theorem addElement?_of_eq (hwaiting : builder.waiting = [])
    (hposition : builder.position = byteSize front) (tag : StartTag) {after : List Char}
    (hsource : source = front ++ tag.text ++ after) :
    builder.scanner.addElement? source tag ⟨byteSize front, byteSize (front ++ tag.text)⟩ =
      some (byteSize (front ++ (elementToken tag after).source),
        (builder.addElement tag after).scanner) := by
  have hstart := scanner_startElement hwaiting hposition tag
  have hcontent := rawElement?_of_eq hwaiting hposition tag hsource
  unfold elementToken addElement Scanner.addElement? StartTag.takesRawText
  by_cases hleaf : (tag.ending = .selfClosing || Tag.isVoid tag.name) = true
  · have hplain : (tag.ending = .plain && !Tag.isVoid tag.name && Tag.isRawText tag.name) =
        false := by
      rcases Bool.or_eq_true_iff.mp hleaf with hself | hvoid
      · simp [of_decide_eq_true hself]
      · simp [hvoid]
    rw [if_pos hleaf]
    rw [if_pos hleaf] at hstart
    simp only [hplain, Bool.false_eq_true, if_false, hstart]
    rfl
  · obtain ⟨hself, hvoid⟩ : tag.ending ≠ .selfClosing ∧ Tag.isVoid tag.name = false := by
      simpa using hleaf
    have hending : tag.ending = .plain := by
      cases hcase : tag.ending with
      | plain => rfl
      | selfClosing => exact absurd hcase hself
    rw [if_neg hleaf]
    rw [if_neg hleaf] at hstart
    by_cases hraw : Tag.isRawText tag.name = true
    · rw [if_pos hraw]
      simp only [hending, hvoid, hraw]
      exact hcontent
    · rw [if_neg hraw]
      simp only [Bool.not_eq_true] at hraw
      simp only [hending, hvoid, hraw, Bool.and_false, Bool.false_eq_true, if_false, hstart]
      rfl

/-- An element is read as the builder adds its token, and refused where the builder refuses it. -/
theorem HasRead.element? (hread : builder.HasRead front) {body : List Char}
    (hsource : source = front ++ '<' :: body) :
    builder.scanner.element? source (byteSize front) =
      some (builder.behind front (Token.readStartTag body).1) := by
  rw [Scanner.element?, StartTag.readAt?_of_eq hsource]
  cases htag : StartTag.read? body with
  | none =>
      have hrecover := hread.recover (List.cons_ne_nil '<' body) hsource .startTag
      simp only [Option.map_none, Option.bind_eq_bind, Option.bind_some, hrecover, Option.pure_def]
      rw [Token.readStartTag, htag]
      rfl
  | some found =>
      obtain ⟨tag, after⟩ := found
      have htext : source = front ++ tag.text ++ after := by
        rw [hsource, ← StartTag.read?_append htag, StartTag.text]
        simp
      have hnesting : builder.flush.scanner.nesting = builder.flush.nesting := rfl
      rw [fst_readStartTag htag, behind, add_elementToken, hread.prepare]
      simp only [Option.map_some, Option.bind_eq_bind, Option.bind_some,
        hread.flush? hsource, hnesting]
      generalize builder.flush.nesting.popImplied (byteSize front) tag.name = nesting
      split
      next => rfl
      next =>
        have hadded := @addElement?_of_eq { builder.flush with nesting := nesting } source front
          builder.waiting_flush hread.position_flush tag after htext
        simp only [scanner] at hadded ⊢
        simp only [hadded, Option.bind_some, Except.map, Option.pure_def]

/-! ## Markup -/

theorem dropStart?_bracket (pattern body : List Char) :
    dropStart? ('<' :: pattern) ('<' :: body) = dropStart? pattern body :=
  if_pos rfl

theorem getElem?_octets_one (body : List Char) : (octets ('<' :: body))[1]? = (octets body).head? :=
  getElem?_octets ['<'] body

theorem getElem?_octets_two (body : List Char) :
    (octets ('<' :: '/' :: body))[2]? = (octets body).head? :=
  getElem?_octets ['<', '/'] body

/-- What an angle bracket begins is read as the builder adds its token, and refused where the
builder refuses it. -/
theorem HasRead.markup? (hread : builder.HasRead front) {body : List Char}
    (hsource : source = front ++ '<' :: body) :
    builder.scanner.markup? source (byteSize front) =
      some (builder.behind front (Token.readMarkup body).1) := by
  rw [Scanner.markup?, sliceFrom?_of_eq hsource]
  simp only [Option.bind_eq_bind, Option.bind_some, dropStart?_bracket, getElem?_octets_one,
    head?_octets_eq_some_iff (by decide : '!'.toNat < 128),
    head?_octets_eq_some_iff (by decide : '?'.toNat < 128),
    head?_octets_eq_some_iff (by decide : '/'.toNat < 128), any_head?_octets coarse_isAlpha]
  rcases Token.opens_cases body with hplain | ⟨inner, rfl⟩ | ⟨inner, rfl⟩ | hdeclares |
    ⟨c, inner, halpha, rfl⟩ | ⟨c, inner, halpha, rfl⟩
  · -- the bracket is text
    have hmark := hread.scanner_hold (List.cons_ne_nil '<' [])
    have hstop : byteSize (front ++ ['<']) = byteSize front + 1 :=
      byteSize_concat_of_lt (by decide) _
    rw [Token.readMarkup_of_not_opens hplain]
    simp only [behind, add, Except.map, Token.source, hmark, hstop]
    cases body with
    | nil => simp [dropStart?]
    | cons c tail =>
        simp only [Token.opens, Bool.or_eq_false_iff, beq_eq_false_iff_ne, Bool.and_eq_false_imp,
          beq_iff_eq] at hplain
        obtain ⟨⟨⟨hmark, hquery⟩, halpha⟩, hslash⟩ := hplain
        have hend : ¬(c = '/' ∧ (octets ('<' :: c :: tail))[2]?.any Char.isAlpha = true) := by
          rintro ⟨rfl, hthird⟩
          rw [getElem?_octets_two, any_head?_octets coarse_isAlpha, hslash rfl] at hthird
          cases hthird
        simp [dropStart?, hmark, hmark.symm, hquery, halpha, hend]
  · -- a comment
    have hopens : (dropStart? ['!', '-', '-'] ('!' :: '-' :: '-' :: inner)).isSome = true := rfl
    have hbody : sliceFrom? ('<' :: '!' :: '-' :: '-' :: inner) 4 = some inner :=
      sliceFrom?_append ['<', '!', '-', '-'] inner
    rw [if_pos hopens, hbody, Token.readMarkup_comment]
    exact hread.readUntil (List.cons_ne_nil _ _) hsource _ _ (fun _ => rfl) (fun _ => rfl)
      fun i => rfl
  · -- character data
    have hcomment : ¬(dropStart? ['!', '-', '-']
        (['!', '[', 'C', 'D', 'A', 'T', 'A', '['] ++ inner)).isSome = true := by
      simp [dropStart?]
    have hopens : (dropStart? ['!', '[', 'C', 'D', 'A', 'T', 'A', '[']
        (['!', '[', 'C', 'D', 'A', 'T', 'A', '['] ++ inner)).isSome = true := rfl
    rw [if_neg hcomment, if_pos hopens, find?_cons_of_ne (by decide), Token.readMarkup_cdata,
      Option.map_map]
    refine hread.readUntil (List.cons_ne_nil '<' []) hsource _ _ (fun _ => rfl) (fun _ => rfl) ?_
    intro i
    exact congrArg (· + 3) (Nat.add_assoc (byteSize front) 1 i).symm
  · -- any other declaration
    have hcomment : ¬(dropStart? ['!', '-', '-'] body).isSome = true := by simp [hdeclares.comment]
    have hcdata : ¬(dropStart? ['!', '[', 'C', 'D', 'A', 'T', 'A', '['] body).isSome = true := by
      simp [hdeclares.cdata]
    rw [if_neg hcomment, if_neg hcdata, if_pos hdeclares.mark, find?_cons_of_ne (by decide),
      Token.readMarkup_declaration hdeclares, Option.map_map]
    refine hread.readUntil (List.cons_ne_nil '<' []) hsource _ _ (fun _ => rfl) (fun _ => rfl) ?_
    intro i
    exact congrArg (· + 1) (Nat.add_assoc (byteSize front) 1 i).symm
  · -- an end tag
    obtain ⟨read, htag, hbehind⟩ := hread.endTag? hsource halpha
    simp [dropStart?, getElem?_octets_two, any_head?_octets coarse_isAlpha, halpha, htag, hbehind]
  · -- a start tag
    have hmark := ne_of_isAlpha halpha (by decide : '!'.isAlpha = false)
    have hquery := ne_of_isAlpha halpha (by decide : '?'.isAlpha = false)
    have hslash := ne_of_isAlpha halpha (by decide : '/'.isAlpha = false)
    rw [Token.readMarkup_startTag halpha, ← hread.element? hsource]
    simp [dropStart?, halpha, hmark, hquery, hslash, hmark.symm]

/-! ## Token after token -/

theorem HasRead.position_prepare (hread : builder.HasRead front) {prepared : Builder}
    {name : List Char} (hprepare : builder.prepare name = .ok prepared) :
    prepared.position = byteSize front := by
  rw [hread.prepare] at hprepare
  split at hprepare
  next => cases hprepare
  next =>
    cases hprepare
    exact hread.position_flush

theorem HasRead.addLeaf_flush (hread : builder.HasRead front) (kind : LeafKind) (raw : List Char) :
    (builder.flush.addLeaf kind raw).HasRead (front ++ raw) := by
  refine hasRead_of_waiting builder.waiting_flush ?_
  rw [byteSize_append, ← hread.position_flush]
  rfl

theorem HasRead.endElement (hread : builder.HasRead front) (tag : EndTag) :
    (builder.endElement tag).HasRead (front ++ tag.raw) := by
  unfold Builder.endElement
  split
  next => exact hread.hold tag.raw
  next =>
    exact hasRead_of_waiting builder.waiting_flush (by rw [byteSize_append, ← hread.position_flush])

theorem hasRead_startElement (hwaiting : builder.waiting = [])
    (hposition : builder.position = byteSize front)
    (tag : StartTag) : (builder.startElement tag).HasRead (front ++ tag.text) := by
  unfold startElement
  split
  next => exact hasRead_of_waiting hwaiting (by rw [byteSize_append, ← hposition])
  next => exact hasRead_of_waiting hwaiting (by rw [byteSize_append, ← hposition])

theorem hasRead_addRawElement (hwaiting : builder.waiting = [])
    (hposition : builder.position = byteSize front) (tag : StartTag) (content : List Char)
    (close : Option EndTag) :
    (builder.addRawElement tag content close).HasRead
      (front ++ (tag.text ++ (content ++ Token.closeText close))) := by
  cases content with
  | nil =>
      refine hasRead_of_waiting hwaiting ?_
      simp [addRawElement, hposition, Nat.add_assoc]
  | cons c rest =>
      refine hasRead_of_waiting hwaiting ?_
      simp [addRawElement, addLeaf, hposition, Nat.add_assoc]

/-- A builder that has added a token has read its source. -/
theorem HasRead.add (hread : builder.HasRead front) {token : Token} {added : Builder}
    (hadd : builder.add token = .ok added) : added.HasRead (front ++ token.source) := by
  cases token with
  | text raw => cases hadd; exact hread.hold raw
  | comment raw => cases hadd; exact hread.addLeaf_flush .comment raw
  | cdata raw => cases hadd; exact hread.addLeaf_flush .verbatim raw
  | declaration raw => cases hadd; exact hread.addLeaf_flush .doctype raw
  | unterminated construct raw => cases hadd; exact hread.hold raw
  | endTag tag => cases hadd; exact hread.endElement tag
  | startTag tag =>
      obtain ⟨prepared, hprepare, hstart⟩ := bind_eq_ok_iff.mp hadd
      cases hstart
      exact hasRead_startElement (waiting_prepare hprepare) (hread.position_prepare hprepare) tag
  | rawElement tag content close =>
      obtain ⟨prepared, hprepare, hstart⟩ := bind_eq_ok_iff.mp hadd
      cases hstart
      exact hasRead_addRawElement (waiting_prepare hprepare) (hread.position_prepare hprepare) tag
        content close

/-- A text without markup is one token, up to the markup behind it. -/
theorem ofText_plain {plain after : List Char} (hne : plain ≠ []) (hplain : '<' ∉ plain)
    (hafter : after.takeWhile (· != '<') = []) :
    Token.ofText (plain ++ after) = .text plain :: Token.ofText after := by
  obtain ⟨c, others, rfl⟩ := List.exists_cons_of_ne_nil hne
  have hin : ∀ d ∈ others, (d != '<') = true := by
    intro d hmem
    apply bne_iff_ne.mpr
    rintro rfl
    exact hplain (List.mem_cons_of_mem c hmem)
  have hfirst : c ≠ '<' := by
    rintro rfl
    exact hplain List.mem_cons_self
  have hrest : after.dropWhile (· != '<') = after := by
    have hwhole := List.takeWhile_append_dropWhile (p := (· != '<')) (l := after)
    rwa [hafter, List.nil_append] at hwhole
  rw [List.cons_append, Token.ofText_cons, Token.read, if_neg hfirst,
    List.takeWhile_append_of_pos hin, List.dropWhile_append_of_pos hin, hafter, hrest,
      List.append_nil]

/-- The text in front of markup is held back if there is any. -/
theorem hold_plain (hread : builder.HasRead front) {plain after : List Char} (hplain : '<' ∉ plain)
    (hafter : after.takeWhile (· != '<') = []) :
    ∃ held : Builder, held.HasRead (front ++ plain) ∧
      builder.addAll (Token.ofText (plain ++ after)) = held.addAll (Token.ofText after) ∧
      (if byteSize front < byteSize (front ++ plain) then builder.scanner.mark (byteSize front)
        else builder.scanner) = held.scanner := by
  cases plain with
  | nil => exact ⟨builder, by simpa using hread, rfl, by simp⟩
  | cons c others =>
      have hlt : byteSize front < byteSize (front ++ c :: others) := by
        have hpos := c.utf8Size_pos
        rw [byteSize_append, byteSize_cons]
        omega
      refine ⟨builder.hold (c :: others), hread.hold _, ?_, ?_⟩
      · rw [ofText_plain (List.cons_ne_nil c others) hplain hafter]
        rfl
      · rw [if_pos hlt, hread.scanner_hold (List.cons_ne_nil c others)]

theorem HasRead.addAll (hread : builder.HasRead front) {tokens : List Token} {final : Builder}
    (haddAll : builder.addAll tokens = .ok final) :
    final.HasRead (front ++ tokens.flatMap Token.source) := by
  induction tokens generalizing builder front with
  | nil =>
      cases haddAll
      rwa [List.flatMap_nil, List.append_nil]
  | cons token rest ih =>
      obtain ⟨added, hadd, hrest⟩ := addAll_eq_ok_cons.mp haddAll
      rw [List.flatMap_cons, ← List.append_assoc]
      exact ih (hread.add hadd) hrest

/-- The rest of a source is read as the builder adds its tokens. -/
theorem HasRead.readFrom? {limit : Nat} {after : List Char} (hread : builder.HasRead front)
    (hsource : source = front ++ after) (hlimit : after.length < limit) :
    Scanner.readFrom? source limit (byteSize front) builder.scanner =
      some ((builder.addAll (Token.ofText after)).map scanner) := by
  induction limit generalizing builder front after with
  | zero => cases hlimit
  | succ limit ih =>
      rw [Scanner.readFrom?]
      by_cases hnil : after = []
      · subst hnil
        rw [hsource, List.append_nil, if_neg (Nat.lt_irrefl _), Token.ofText]
        rfl
      · have hlt : byteSize front < byteSize source := by
          obtain ⟨c, rest, rfl⟩ := List.exists_cons_of_ne_nil hnil
          have hpos := c.utf8Size_pos
          rw [hsource, byteSize_append, byteSize_cons]
          omega
        rw [if_pos hlt, sliceFrom?_of_eq hsource]
        simp only [Option.bind_eq_bind, Option.bind_some, find?]
        cases hsplit : splitAround ['<'] after with
        | none =>
            have hplain := splitAround_singleton_eq_none_iff.mp hsplit
            have htokens := @ofText_plain after [] hnil hplain rfl
            rw [List.append_nil, Token.ofText] at htokens
            rw [htokens]
            exact congrArg (fun marked => some (Except.ok marked)) (hread.scanner_hold hnil).symm
        | some parts =>
            obtain ⟨plain, tail⟩ := parts
            obtain ⟨hplain, rfl⟩ := splitAround_singleton_iff.mp hsplit
            obtain ⟨held, hheld, haddAll, hscanner⟩ :=
              @hold_plain builder front hread plain ('<' :: tail) hplain rfl
            have hhere : source = front ++ plain ++ '<' :: tail := by
              rw [hsource, List.append_assoc]
            have hmarkup := hheld.markup? hhere
            have hloss := Token.readMarkup_append tail
            have hforward := Token.readMarkup_source_ne_nil tail
            have hposition : byteSize front + byteSize plain = byteSize (front ++ plain) :=
              (byteSize_append front plain).symm
            rw [haddAll, Token.ofText_bracket]
            simp only [Option.map_some, hposition, hscanner, hmarkup, Option.bind_some]
            unfold behind Builder.addAll
            rw [List.foldlM_cons]
            cases hadd : held.add (Token.readMarkup tail).1 with
            | error failure => rfl
            | ok added =>
                have hnext : source = front ++ plain ++ (Token.readMarkup tail).1.source ++
                    (Token.readMarkup tail).2 := by
                  rw [hhere, ← hloss, List.append_assoc _ (Token.source _)]
                -- each token takes something off the text, so the limit lasts
                refine ih (hheld.add hadd) hnext ?_
                have hlength := congrArg List.length hloss
                have hpos := List.length_pos_iff.mpr hforward
                simp only [List.length_append, List.length_cons] at hlength hlimit
                omega

end Builder

/-- Every source is read by byte offsets, without a cut that goes wrong, as its tokens are. -/
theorem Scanner.document?_eq (text : List Char) : document? text = some (parse text) := by
  have hempty : ({} : Builder).HasRead [] := Builder.hasRead_of_waiting rfl rfl
  have hloop : readFrom? text (text.length + 1) 0 {} =
      some ((Builder.addAll {} (Token.ofText text)).map Builder.scanner) :=
    hempty.readFrom? rfl (Nat.lt_succ_self _)
  unfold document? parse
  rw [hloop]
  cases haddAll : Builder.addAll {} (Token.ofText text) with
  | error failure => rfl
  | ok final =>
      have hread := hempty.addAll haddAll
      rw [Token.flatMap_source_ofText, List.nil_append] at hread
      have hflush := hread.flush? (List.append_nil text).symm
      simp only [Except.map, Option.bind_eq_bind, Option.bind_some, hflush, Option.pure_def]
      unfold Builder.document
      rw [← hread.position_flush]
      rfl

end Markup
