import Mathlib.Logic.Basic

/-!
# Computations that may fail

What it takes for a composed computation to give a result.
-/

namespace Markup

variable {ε α β : Type}

theorem bind_eq_ok_iff {first : Except ε α} {next : α → Except ε β} {result : β} :
    (first >>= next) = .ok result ↔ ∃ value, first = .ok value ∧ next value = .ok result := by
  cases first with
  | error failure => simp [bind, Except.bind]
  | ok value => simp [bind, Except.bind]

theorem map_eq_ok_iff {first : Except ε α} {change : α → β} {result : β} :
    first.map change = .ok result ↔ ∃ value, first = .ok value ∧ change value = result := by
  cases first with
  | error failure => simp [Except.map]
  | ok value => simp [Except.map]

@[simp]
theorem mapError_error {δ : Type} (failure : ε) (change : ε → δ) :
    (.error failure : Except ε α).mapError change = .error (change failure) :=
  rfl

@[simp]
theorem mapError_ok {δ : Type} (value : α) (change : ε → δ) :
    (.ok value : Except ε α).mapError change = .ok value :=
  rfl

theorem mapError_eq_ok_iff {δ : Type} {first : Except ε α} {change : ε → δ} {result : α} :
    first.mapError change = .ok result ↔ first = .ok result := by
  cases first with
  | error failure => exact ⟨nofun, nofun⟩
  | ok value => simp

theorem map_mapError {δ : Type} (first : Except ε α) (wrap : ε → δ) (change : α → β) :
    (first.mapError wrap).map change = (first.map change).mapError wrap := by
  cases first <;> rfl

theorem toOption_eq_some_iff {first : Except ε α} {result : α} :
    first.toOption = some result ↔ first = .ok result := by
  cases first with
  | error failure => simp [Except.toOption]
  | ok value => simp [Except.toOption]

/-- Two computations that fail with the same error, or both give a result, with related results. -/
inductive Agree (Related : α → α → Prop) : Except ε α → Except ε α → Prop
  | error (failure : ε) : Agree Related (.error failure) (.error failure)
  | ok {first second : α} : Related first second → Agree Related (.ok first) (.ok second)

theorem agree_of_map_eq {γ : Type} {first second : Except ε α} {change : α → γ}
    (hsame : first.map change = second.map change) :
    Agree (fun a b => change a = change b) first second := by
  cases first with
  | error failure =>
      cases second with
      | error reason =>
          cases hsame
          exact .error failure
      | ok b => cases hsame
  | ok a =>
      cases second with
      | error reason => cases hsame
      | ok b => exact .ok (Except.ok.inj hsame)

/-- Computations that come to the same under a change go on to come to the same, if what follows
does not tell their results apart. -/
theorem map_bind_congr {γ δ : Type} {first second : Except ε α} {next other : α → Except ε β}
    {change : α → γ} {last : β → δ} (hsame : first.map change = second.map change)
    (hnext : ∀ a b, change a = change b → (next a).map last = (other b).map last) :
    (first >>= next).map last = (second >>= other).map last := by
  cases agree_of_map_eq hsame with
  | error failure => rfl
  | ok hrelated => exact hnext _ _ hrelated

theorem map_map_congr {γ δ : Type} {first second : Except ε α} {next other : α → β} {change : α → γ}
    {last : β → δ} (hsame : first.map change = second.map change)
    (hnext : ∀ a b, change a = change b → last (next a) = last (other b)) :
    (first.map next).map last = (second.map other).map last := by
  cases agree_of_map_eq hsame with
  | error failure => rfl
  | ok hrelated => exact congrArg Except.ok (hnext _ _ hrelated)

theorem Agree.mono {Related Other : α → α → Prop} {first second : Except ε α}
    (hagree : Agree Related first second) (himplies : ∀ a b, Related a b → Other a b) :
    Agree Other first second := by
  cases hagree with
  | error failure => exact .error failure
  | ok hrelated => exact .ok (himplies _ _ hrelated)

theorem Agree.map {Related : α → α → Prop} {Other : β → β → Prop} {first second : Except ε α}
    {change : α → β} (hagree : Agree Related first second)
    (hchange : ∀ a b, Related a b → Other (change a) (change b)) :
    Agree Other (first.map change) (second.map change) := by
  cases hagree with
  | error failure => exact .error failure
  | ok hrelated => exact .ok (hchange _ _ hrelated)

theorem Agree.exists_ok {Related : α → α → Prop} {first second : Except ε α}
    (hagree : Agree Related first second) (hsome : first.toOption.isSome = true) :
    ∃ a b, first = .ok a ∧ second = .ok b ∧ Related a b := by
  cases hagree with
  | error failure => cases hsome
  | ok hrelated => exact ⟨_, _, rfl, rfl, hrelated⟩

end Markup
