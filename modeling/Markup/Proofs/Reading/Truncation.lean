import Markup.Proofs.Offsets.Reader
import Markup.Proofs.Reading.Acceptance
import Markup.Proofs.Tree.Tiling

/-!
# A text that is cut off

Where a token ends may depend on the text behind it: running text goes up to the next angle bracket,
what follows a bracket decides whether it begins markup, and a construct that never ends takes all
there is. None of it changes when the text is cut off between two tokens. Main statement:
`ofText_flatMap_source`, by which the tokens of a text up to a place are the tokens of the text up
to that place, and `parse_of_cut`, by which the tree so far is the tree of the text so far.
-/

namespace Markup

open Markup.Text

namespace Token

/-- A bracket that begins no markup begins none when the text behind it is cut off. -/
theorem opens_eq_false_of_cut {rest after : List Char} (hopens : opens rest = false)
    (hstarts : after <+: rest) : opens after = false := by
  obtain ⟨more, rfl⟩ := hstarts
  refine Bool.eq_false_iff.mpr fun hafter => ?_
  rw [opens_append hafter] at hopens
  cases hopens

theorem ofText_readMarkup_append {rest after : List Char}
    (hstarts : after <+: (readMarkup rest).2) :
    ofText ((readMarkup rest).1.source ++ after) = (readMarkup rest).1 :: ofText after := by
  -- a token that takes all there is has nothing behind it that could be cut off
  have hwhole : (readMarkup rest).2 = [] →
      ofText ((readMarkup rest).1.source ++ after) = (readMarkup rest).1 :: ofText after := by
    intro hend
    have htext := readMarkup_append rest
    rw [hend] at hstarts htext
    rw [List.prefix_nil.mp hstarts, htext, ofText_bracket, hend]
  by_cases hfinal : (readMarkup rest).1.isFinal = true
  · exact hwhole (readMarkup_of_isFinal hfinal)
  · have hread := readAs_readMarkup rest
    generalize hfound : readMarkup rest = found at *
    cases hread with
    | bracket hopens =>
        change ofText ('<' :: after) = text ['<'] :: ofText after
        rw [ofText_bracket, readMarkup_of_not_opens (opens_eq_false_of_cut hopens hstarts)]
    | hanging construct => exact hwhole rfl
    | @markup token left hmarkup hfits =>
        refine legible_of_fits hmarkup hfits ?_ after
        rintro tag content rfl
        exact hfinal rfl

/-- A token is read alike when the text behind it is cut off. -/
theorem ofText_read_append {c : Char} {rest after : List Char}
    (hstarts : after <+: (read c rest).2) :
    ofText ((read c rest).1.source ++ after) = (read c rest).1 :: ofText after := by
  unfold read at hstarts ⊢
  split
  next hc => exact ofText_readMarkup_append (by rwa [if_pos hc] at hstarts)
  next hc =>
    rw [if_neg hc] at hstarts
    dsimp only [source] at hstarts ⊢
    refine Builder.ofText_plain (List.cons_ne_nil _ _) ?_ ?_
    · rw [List.mem_cons, not_or]
      exact ⟨Ne.symm hc, fun hmem => by simpa using List.mem_takeWhile_imp hmem⟩
    · cases after with
      | nil => rfl
      | cons d others =>
          obtain ⟨more, hmore⟩ := hstarts
          have hhead := List.head?_dropWhile_not (fun c : Char => c != '<') rest
          rw [← hmore] at hhead
          rw [List.takeWhile_cons_of_neg]
          simpa using hhead

/-- The tokens of a text up to a place are the tokens of the text up to that place. -/
theorem ofText_flatMap_source {text : List Char} {front back : List Token}
    (hcut : ofText text = front ++ back) : ofText (front.flatMap source) = front := by
  induction front generalizing text with
  | nil => rw [List.flatMap_nil, ofText]
  | cons token front ih =>
      cases text with
      | nil => simp [ofText] at hcut
      | cons c rest =>
          rw [ofText_cons, List.cons_append] at hcut
          obtain ⟨rfl, hrest⟩ := List.cons.inj hcut
          have hstarts : front.flatMap source <+: (read c rest).2 := by
            rw [← flatMap_source_ofText (read c rest).2, hrest, List.flatMap_append]
            exact List.prefix_append _ _
          rw [List.flatMap_cons, ofText_read_append hstarts, ih hrest]

/-- The tokens from a place on are the tokens of the text from that place on. -/
theorem ofText_flatMap_source_of_suffix {text : List Char} {front back : List Token}
    (hcut : ofText text = front ++ back) : ofText (back.flatMap source) = back := by
  induction front generalizing text with
  | nil =>
      rw [List.nil_append] at hcut
      rw [← hcut, flatMap_source_ofText]
  | cons token front ih =>
      cases text with
      | nil => simp [ofText] at hcut
      | cons c rest =>
          rw [ofText_cons, List.cons_append] at hcut
          exact ih (List.cons.inj hcut).2

end Token

namespace Builder

theorem addAll_append (builder : Builder) (front back : List Token) :
    builder.addAll (front ++ back) = builder.addAll front >>= fun added => added.addAll back := by
  simp [Builder.addAll, List.foldlM_append]

theorem addAll_append_eq_ok_iff {builder final : Builder} {front back : List Token} :
    builder.addAll (front ++ back) = .ok final ↔
      ∃ added, builder.addAll front = .ok added ∧ added.addAll back = .ok final := by
  rw [addAll_append, bind_eq_ok_iff]

/-- Adding tokens fails at one of them, before which it goes well. -/
theorem exists_of_addAll_eq_error {builder : Builder} {tokens : List Token} {failure : TooDeep}
    (haddAll : builder.addAll tokens = .error failure) :
    ∃ front token back added, tokens = front ++ token :: back ∧
      builder.addAll front = .ok added ∧ added.add token = .error failure := by
  induction tokens generalizing builder with
  | nil => cases haddAll
  | cons token rest ih =>
      cases hadd : builder.add token with
      | error reason =>
          rw [addAll, List.foldlM_cons, hadd] at haddAll
          cases haddAll
          exact ⟨[], token, rest, builder, rfl, rfl, hadd⟩
      | ok added =>
          rw [addAll, List.foldlM_cons, hadd] at haddAll
          obtain ⟨front, refused, back, last, rfl, hfront, hrefused⟩ := ih haddAll
          exact ⟨token :: front, refused, back, last, rfl,
            addAll_eq_ok_cons.mpr ⟨added, hadd, hfront⟩, hrefused⟩

/-- A builder has read its tokens from the start. -/
theorem hasRead_of_addAll {builder : Builder} {tokens : List Token}
    (haddAll : Builder.addAll {} tokens = .ok builder) :
    builder.HasRead (tokens.flatMap Token.source) := by
  have hempty : ({} : Builder).HasRead [] := hasRead_of_waiting rfl rfl
  simpa using hempty.addAll haddAll

end Builder

theorem parse_eq_error_iff {text : List Char} {failure : TooDeep} :
    parse text = .error failure ↔ Builder.addAll {} (Token.ofText text) = .error failure := by
  unfold parse
  cases Builder.addAll {} (Token.ofText text) <;> simp [bind, Except.bind, pure, Except.pure]

/-- A text that is cut off between two tokens is read as the tree so far. -/
theorem parse_of_cut {text : List Char} {front back : List Token} {builder : Builder}
    (hcut : Token.ofText text = front ++ back) (haddAll : Builder.addAll {} front = .ok builder) :
    parse (front.flatMap Token.source) = .ok (builder.document (front.flatMap Token.source)) := by
  refine parse_eq_ok_iff.mpr ⟨builder, ?_, rfl⟩
  rw [Token.ofText_flatMap_source hcut, haddAll]

/-- A text and its tokens are cut at the same place. -/
theorem flatMap_source_of_cut {text : List Char} {front back : List Token}
    (hcut : Token.ofText text = front ++ back) :
    text = front.flatMap Token.source ++ back.flatMap Token.source := by
  rw [← List.flatMap_append, ← hcut, Token.flatMap_source_ofText]

end Markup
