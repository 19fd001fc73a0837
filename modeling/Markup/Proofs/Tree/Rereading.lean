import Markup.Proofs.Tree.Closing
import Markup.Proofs.Tree.Depth

/-!
# Readers that are used again

A reader forgets everything when it goes to the start of a text. Between two such calls it can be
read from any number of times. Reading to the end leaves nothing to read, and a reading that fails
leaves a tree that is not the one it began with: nodes in front of the refused start tag have been
made and elements have ended, the same running text becomes a node each time, and numbers go on. It
does leave as many elements open as may be, the innermost of which the start tag does not end, in
front of running text and the tag itself, which is why every further reading fails at the same
offset. What is left to read is always what the text has from the reader's offset on. Main
statements: `Reader.tokens_after` and `Reader.read_after`.
-/

namespace Markup

open Markup.Text

/-! ## The tree that a refused tag leaves -/

namespace Nesting

/-- What the start of an element leaves open it would not end. -/
theorem parent?_popImplied (open_ : Nesting) (offset : Nat) (name : List Char) :
    ∀ outer ∈ (open_.popImplied offset name).parent?, Tag.impliesEnd outer name = false := by
  intro outer houter
  have hdrop : ∀ ends : OpenElement → Bool,
      open_.stack.drop (open_.stack.takeWhile ends).length = open_.stack.dropWhile ends := by
    intro ends
    calc open_.stack.drop (open_.stack.takeWhile ends).length
        = (open_.stack.takeWhile ends ++ open_.stack.dropWhile ends).drop
            (open_.stack.takeWhile ends).length := by rw [List.takeWhile_append_dropWhile]
      _ = open_.stack.dropWhile ends := List.drop_left
  rw [parent?, popImplied, stack_popMany, ← List.map_drop, hdrop, List.head?_map] at houter
  obtain ⟨tag, htag, rfl⟩ := Option.map_eq_some_iff.mp houter
  obtain ⟨element, helement, rfl⟩ := Option.map_eq_some_iff.mp htag
  have hhead := List.head?_dropWhile_not
    (fun element : OpenElement => Tag.impliesEnd element.tag.name name) open_.stack
  rw [helement] at hhead
  simpa using hhead

theorem popImplied_of_parent? {open_ : Nesting} {name : List Char}
    (hparent : ∀ outer ∈ open_.parent?, Tag.impliesEnd outer name = false) (offset : Nat) :
    open_.popImplied offset name = open_ := by
  obtain ⟨stack, finished⟩ := open_
  cases stack with
  | nil => rfl
  | cons inner outer =>
      have hinner : Tag.impliesEnd inner.tag.name name = false := hparent _ rfl
      simp [popImplied, hinner, popMany]

end Nesting

namespace Builder

theorem position_flush (builder : Builder) : builder.flush.position = builder.offset := by
  unfold flush offset
  split
  next hwaiting => simp [hwaiting]
  next hwaiting => simp [addLeaf, hwaiting]

/-- A start tag is refused where as many elements are open as may be and it ends none of them. -/
theorem prepare_of_full {builder : Builder} {name : List Char}
    (hfull : maximumDepth ≤ builder.nesting.depth)
    (hparent : ∀ outer ∈ builder.nesting.parent?, Tag.impliesEnd outer name = false) :
    builder.prepare name = .error ⟨builder.offset⟩ := by
  have hdepth : builder.flush.nesting.depth = builder.nesting.depth := by
    simpa [Nesting.depth] using congrArg List.length builder.stack_flush
  have hsame : builder.flush.nesting.parent? = builder.nesting.parent? := by
    rw [Nesting.parent?, stack_flush, ← Nesting.parent?]
  rw [prepare_eq_error_iff, ready, Nesting.popImplied_of_parent? (hsame ▸ hparent), hdepth]
  exact ⟨hfull, by rw [← position_flush]⟩

/-- Running text is held back. -/
theorem addAll_run {builder : Builder} {run : List Token}
    (hrun : ∀ token ∈ run, token.isRun = true) (tokens : List Token) :
    builder.addAll (run ++ tokens) = (builder.hold (run.flatMap Token.source)).addAll tokens := by
  induction run generalizing builder with
  | nil => simp [hold]
  | cons token rest ih =>
      obtain ⟨hfirst, hothers⟩ := List.forall_mem_cons.mp hrun
      cases token with
      | text raw =>
          have hheld : builder.addAll (.text raw :: (rest ++ tokens)) =
              (builder.hold raw).addAll (rest ++ tokens) := rfl
          rw [List.cons_append, hheld, ih hothers]
          simp [hold, Token.source]
      | _ => cases hfirst

/-- A token that was refused is refused again, at the same offset, behind the same running text. -/
theorem addAll_refuse {builder : Builder} {token : Token} {failure : TooDeep}
    (hrefused : builder.add token = .error failure) {passed : Nat} {run : List Token}
    (hrun : ∀ token ∈ run, token.isRun = true)
    (hpassed : passed + byteSize (run.flatMap Token.source) = builder.offset) (rest : List Token) :
    Builder.addAll { builder.refuse token with position := passed } (run ++ token :: rest) =
      .error failure := by
  obtain ⟨tag, htag, hprepare⟩ := add_eq_error_iff.mp hrefused
  obtain ⟨hfull, rfl⟩ := prepare_eq_error_iff.mp hprepare
  have hready : builder.refuse token = builder.ready tag.name := by
    rw [refuse, Option.mem_def.mp htag]
  rw [hready, addAll_run hrun]
  have hparent := builder.flush.nesting.parent?_popImplied builder.flush.position tag.name
  have hoffset : (hold { builder.ready tag.name with position := passed }
      (run.flatMap Token.source)).offset = (builder.ready tag.name).position := by
    have hempty : (builder.ready tag.name).waiting = [] := builder.waiting_flush
    have hposition : (builder.ready tag.name).position = builder.offset := builder.position_flush
    simpa [offset, hold, hempty, hposition] using hpassed
  have hagain : (hold { builder.ready tag.name with position := passed }
      (run.flatMap Token.source)).prepare tag.name =
        .error ⟨(builder.ready tag.name).position⟩ := by
    rw [← hoffset]
    exact prepare_of_full hfull hparent
  rw [addAll, List.foldlM_cons, add_eq_error_iff.mpr ⟨tag, htag, hagain⟩]
  rfl

/-- What a failed reading leaves fails in the same way. -/
theorem addAll_of_readAll_eq_error {passed : Nat} {run tokens : List Token} {builder : Builder}
    {refusal : Refusal} (hrun : ∀ token ∈ run, token.isRun = true)
    (hpassed : passed + byteSize (run.flatMap Token.source) = builder.offset)
    (hread : builder.readAll passed run tokens = .error refusal) :
    refusal.builder.addAll refusal.tokens = .error refusal.failure := by
  induction tokens generalizing passed run builder with
  | nil => cases hread
  | cons token rest ih =>
      rw [readAll] at hread
      cases hadd : builder.add token with
      | error failure =>
          rw [hadd] at hread
          cases hread
          exact addAll_refuse hadd hrun hpassed rest
      | ok added =>
          rw [hadd] at hread
          dsimp only at hread
          split at hread
          next htoken =>
            refine ih (List.forall_mem_append.mpr ⟨hrun, by simpa using htoken⟩) ?_ hread
            cases token with
            | text raw =>
                cases hadd
                rw [List.flatMap_append, byteSize_append, ← Nat.add_assoc, hpassed]
                simp [offset, hold, Token.source, Nat.add_assoc]
            | _ => cases htoken
          next => exact ih (by simp) (by simp) hread

/-- A failed reading goes back to a place between two tokens, behind the ones it has passed. -/
theorem exists_passed_of_readAll_eq_error {front run tokens : List Token} {builder : Builder}
    {refusal : Refusal} (hread : builder.HasRead ((front ++ run).flatMap Token.source))
    (hfail : builder.readAll (byteSize (front.flatMap Token.source)) run tokens = .error refusal) :
    ∃ passed, front ++ (run ++ tokens) = passed ++ refusal.tokens ∧
      refusal.builder.HasRead (passed.flatMap Token.source) := by
  induction tokens generalizing front run builder with
  | nil => cases hfail
  | cons token rest ih =>
      rw [readAll] at hfail
      cases hadd : builder.add token with
      | error failure =>
          rw [hadd] at hfail
          cases hfail
          obtain ⟨tag, htag, -⟩ := add_eq_error_iff.mp hadd
          have hempty : (builder.refuse token).waiting = [] := by
            rw [refuse, Option.mem_def.mp htag]
            exact builder.waiting_flush
          exact ⟨front, rfl, hasRead_of_waiting hempty rfl⟩
      | ok added =>
          rw [hadd] at hfail
          dsimp only at hfail
          have hadded : added.HasRead ((front ++ run ++ [token]).flatMap Token.source) := by
            simpa using hread.add hadd
          split at hfail
          next =>
            obtain ⟨passed, hpassed, hback⟩ := ih (by simpa using hadded) hfail
            exact ⟨passed, by simpa using hpassed, hback⟩
          next =>
            rw [hadded.offset] at hfail
            obtain ⟨passed, hpassed, hback⟩ := ih (by simpa using hadded) hfail
            exact ⟨passed, by simpa using hpassed, hback⟩

end Builder

/-! ## Reading again -/

namespace Reader

/-- A reader with nothing left to read, the next number given. -/
def Exhausted (reader : Reader) (count : Nat) : Prop :=
  reader.tokens = [] ∧ ∃ position, reader.builder = { position := position, next := count }

/-- A reader that what is left cannot be read from. -/
def Refused (reader : Reader) (failure : TooDeep) : Prop :=
  reader.builder.addAll reader.tokens = .error failure

theorem read_eq_ok {reader : Reader} {builder : Builder}
    (haddAll : reader.builder.addAll reader.tokens = .ok builder) :
    reader.read.1 = .ok (builder.document reader.source) ∧
      reader.read.2.source = reader.source ∧
      reader.read.2.Exhausted (builder.document reader.source).count := by
  rw [← Builder.mapError_readAll reader.builder.offset [], mapError_eq_ok_iff] at haddAll
  rw [read, haddAll]
  exact ⟨rfl, rfl, rfl, _, rfl⟩

/-- Reading where nothing is left to read. -/
theorem Exhausted.read {reader : Reader} {count : Nat} (hexhausted : reader.Exhausted count) :
    reader.read.1 = .ok ⟨reader.source, [], count, []⟩ ∧
      reader.read.2.source = reader.source ∧ reader.read.2.Exhausted count := by
  obtain ⟨htokens, position, hbuilder⟩ := hexhausted
  have haddAll : reader.builder.addAll reader.tokens =
      .ok { position := position, next := count } := by
    rw [htokens, hbuilder]
    rfl
  exact read_eq_ok haddAll

/-- Reading where the rest cannot be read. -/
theorem Refused.read {reader : Reader} {failure : TooDeep} (hrefused : reader.Refused failure) :
    reader.read.1 = .error failure ∧ reader.read.2.Refused failure := by
  have hreads := Builder.mapError_readAll reader.builder.offset [] reader.builder reader.tokens
  unfold Refused at hrefused
  rw [hrefused] at hreads
  cases hread : reader.builder.readAll reader.builder.offset [] reader.tokens with
  | ok builder => rw [hread] at hreads; cases hreads
  | error refusal =>
      rw [hread] at hreads
      cases hreads
      rw [Reader.read, hread]
      exact ⟨rfl, Builder.addAll_of_readAll_eq_error (by simp) (by simp) hread⟩

/-- What can be asked of a reader. -/
inductive Call where
  | restart (text : List Char)
  | read

def step (reader : Reader) : Call → Reader
  | .restart text => reader.restart text
  | .read => reader.read.2

/-- A reader after calls in order. -/
def after (reader : Reader) (calls : List Call) : Reader :=
  calls.foldl step reader

/-! ### What is left to read -/

/-- A reader stands between two tokens of its source. -/
def Stands (reader : Reader) : Prop :=
  ∃ front, Token.ofText reader.source = front ++ reader.tokens ∧
    reader.builder.HasRead (front.flatMap Token.source)

theorem stands_restart (reader : Reader) (text : List Char) : (reader.restart text).Stands :=
  ⟨[], rfl, Builder.hasRead_of_waiting rfl rfl⟩

theorem Stands.read {reader : Reader} (hstands : reader.Stands) : reader.read.2.Stands := by
  obtain ⟨front, hcut, hread⟩ := hstands
  have hreads := Builder.mapError_readAll reader.builder.offset [] reader.builder reader.tokens
  unfold Reader.read
  cases hresult : reader.builder.readAll reader.builder.offset [] reader.tokens with
  | ok builder =>
      rw [hresult] at hreads
      have hall := hread.addAll hreads.symm
      rw [← List.flatMap_append] at hall
      exact ⟨front ++ reader.tokens, by simpa using hcut,
        Builder.hasRead_of_waiting rfl hall.offset⟩
  | error refusal =>
      rw [hread.offset] at hresult
      have hbegun : reader.builder.HasRead ((front ++ []).flatMap Token.source) := by
        simpa using hread
      obtain ⟨passed, hpassed, hback⟩ := Builder.exists_passed_of_readAll_eq_error hbegun hresult
      exact ⟨passed, hcut.trans hpassed, hback⟩

theorem Stands.after {reader : Reader} (hstands : reader.Stands) (calls : List Call) :
    (reader.after calls).Stands := by
  induction calls generalizing reader with
  | nil => exact hstands
  | cons call rest ih =>
      cases call with
      | restart text => exact ih (reader.stands_restart text)
      | read => exact ih hstands.read

/-- What a reader has left, after readings that went well and readings that failed, are the tokens
of its source from the offset on that it stands at. -/
theorem tokens_after (calls : List Call) :
    let reader := ({} : Reader).after calls
    ∃ front rest, reader.source = front ++ rest ∧ reader.builder.offset = byteSize front ∧
      reader.tokens = Token.ofText rest := by
  intro reader
  have hempty : ({} : Reader).Stands :=
    ⟨[], by simp [Token.ofText], Builder.hasRead_of_waiting rfl rfl⟩
  obtain ⟨front, hcut, hread⟩ := hempty.after calls
  exact ⟨front.flatMap Token.source, reader.tokens.flatMap Token.source,
    flatMap_source_of_cut hcut, hread.offset, (Token.ofText_flatMap_source_of_suffix hcut).symm⟩

/-! ### The same answer each time -/

theorem Exhausted.after {reader : Reader} {count : Nat} (hexhausted : reader.Exhausted count)
    (times : Nat) : (reader.after (List.replicate times .read)).source = reader.source ∧
      (reader.after (List.replicate times .read)).Exhausted count := by
  induction times generalizing reader with
  | zero => exact ⟨rfl, hexhausted⟩
  | succ times ih =>
      obtain ⟨-, hsource, hnext⟩ := hexhausted.read
      obtain ⟨hrest, hlast⟩ := ih hnext
      exact ⟨hrest.trans hsource, hlast⟩

theorem Refused.after {reader : Reader} {failure : TooDeep} (hrefused : reader.Refused failure)
    (times : Nat) : (reader.after (List.replicate times .read)).Refused failure := by
  induction times generalizing reader with
  | zero => exact hrefused
  | succ times ih => exact ih hrefused.read.2

/-- Whatever has been asked of a reader, the first reading of a text is that of the text alone.
Every further reading gives a document without nodes and the same numbers, or fails at the same
offset as the first. -/
theorem read_after (before : List Call) (text : List Char) :
    let reader := (({} : Reader).after before).restart text
    reader.read.1 = parse text ∧
      ∀ times, (reader.after (List.replicate (times + 1) .read)).read.1 =
        match parse text with
        | .ok document => .ok ⟨text, [], document.count, []⟩
        | .error failure => .error failure := by
  intro reader
  have hreader : reader = start text := rfl
  clear_value reader
  subst hreader
  refine ⟨read_start text, fun times => ?_⟩
  cases hadd : Builder.addAll {} (Token.ofText text) with
  | ok builder =>
      have hparse : parse text = .ok (builder.document text) :=
        parse_eq_ok_iff.mpr ⟨_, hadd, rfl⟩
      have haddAll : (start text).builder.addAll (start text).tokens = .ok builder := hadd
      obtain ⟨-, hsource, hnext⟩ := read_eq_ok haddAll
      obtain ⟨hlater, hlast⟩ := hnext.after times
      have hread := hlast.read.1
      rw [hlater, hsource] at hread
      rw [hparse]
      exact hread
  | error failure =>
      have hrefused : (start text).Refused failure := hadd
      have hparse : parse text = .error failure := by rw [← read_start, hrefused.read.1]
      rw [hparse]
      exact (hrefused.after (times + 1)).read.1

end Reader

end Markup
