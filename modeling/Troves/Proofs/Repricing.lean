/-
# Asking for the price again

What the feed decides rests on its status and the two readings.  The status it
decides on asks for the same decision of the same readings, so a second
request at the same moment answers with the same price and leaves the feed
alone.
-/
import Troves.Price.Feed

namespace Troves

namespace Price

variable {status : Status} {secondary : Reading} {p s : Nat} {d : Decision}

theorem onDisagreement_again :
    onDisagreement (onDisagreement status p s).status p s = onDisagreement status p s := by
  cases status <;> rfl

theorem onPrimaryBroken_again :
    onPrimaryBroken (onPrimaryBroken status secondary).status secondary =
      onPrimaryBroken status secondary := by
  cases secondary <;> cases status <;> rfl

theorem onPrimaryFrozen_again :
    onPrimaryFrozen (onPrimaryFrozen status secondary).status secondary =
      onPrimaryFrozen status secondary := by
  cases secondary <;> cases status <;> rfl

/-- The next status decides the same of the same readings. -/
theorem judge_again {primary : Reading} {maxDeviation : Nat}
    (h : judge status primary secondary maxDeviation = .ok d) :
    judge d.status primary secondary maxDeviation = .ok d := by
  cases primary with
  | broken =>
    cases h
    exact congrArg Except.ok onPrimaryBroken_again
  | frozen =>
    cases h
    exact congrArg Except.ok onPrimaryFrozen_again
  | live p =>
    cases secondary with
    | broken =>
      cases h
      rfl
    | frozen =>
      cases h
      cases status <;> rfl
    | live s =>
      simp only [judge, Checked.bind_eq_ok] at h ⊢
      obtain ⟨agreed, ha, h⟩ := h
      refine ⟨agreed, ha, ?_⟩
      cases agreed with
      | true => exact h
      | false =>
        cases h
        exact congrArg Except.ok onDisagreement_again

namespace Feed

variable {f : Feed} {round? : Option Round} {quote? : Option Quote} {now : Nat}

/-- A decision followed is decided again. -/
theorem decideAt_again (h : f.decideAt round? quote? now = .ok d) :
    (f.follow d).decideAt round? quote? now = .ok d := by
  simp only [decideAt, Checked.bind_eq_ok] at h ⊢
  obtain ⟨primary, hp, secondary, hs, hj⟩ := h
  exact ⟨primary, hp, secondary, hs, judge_again hj⟩

theorem follow_again : (f.follow d).follow d = f.follow d := by
  obtain ⟨status, choice⟩ := d
  cases choice <;> rfl

end Feed

end Price

end Troves
