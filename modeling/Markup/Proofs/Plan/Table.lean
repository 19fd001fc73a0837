import Markup.Plan.Basic

/-!
# Plans as tables

What is found in a plan after a decision has been set.
-/

namespace Markup.Plan

theorem get?_empty (count id : Nat) : (Plan.empty count).get? id = none := by
  unfold Plan.empty get?
  rw [Array.getElem?_replicate]
  split <;> rfl

variable {plan : Plan}

theorem get?_decide_of_ne {id wanted : Nat} (hne : id ≠ wanted) (decision : Decision) :
    (plan.decide id decision).get? wanted = plan.get? wanted := by
  rw [get?_decide, if_neg fun hand => hne hand.1]

/-- A decision that has been set is found, if any is. -/
theorem eq_of_get?_decide {id : Nat} {decision found : Decision} (hclear : plan.get? id = none)
    (hfound : (plan.decide id decision).get? id = some found) : found = decision := by
  rw [get?_decide] at hfound
  split at hfound
  next => exact (Option.some.inj hfound).symm
  next => simp [hclear] at hfound

theorem ending_modify (plan : Plan) (id : Nat) (change : Decision → Decision) :
    (plan.modify id change).ending = plan.ending := by
  unfold Plan.modify
  split <;> rfl

theorem size_modify (plan : Plan) (id : Nat) (change : Decision → Decision) :
    (plan.modify id change).decisions.size = plan.decisions.size := by
  unfold Plan.modify
  split
  next => rfl
  next => exact Array.size_setIfInBounds

end Markup.Plan
