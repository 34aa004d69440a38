/-
# What a reading rests on

A reading is live only for an answer that is positive, in range, dated, not from
the future and not older than its source allows, and then it is the answer at
eighteen decimal places, rounded down.

Whatever a report says, it can be read and two readings can be compared: the
numbers of a report have 64 bits at most, the powers of ten are bounded, and so
every product on the way is an amount.

| number | below |
|---|---|
| mantissa | `2 ^ 63` |
| confidence and its bound, in basis points | `2 ^ 127` |
| price | `2 ^ 63 * 10 ^ 36` |
| price with a deviation in eighteen places | `2 ^ 63 * 10 ^ 54` |
-/
import Troves.Price.Feed
import Troves.Proofs.Outcomes
import Mathlib.Algebra.Order.Floor.Semifield
import Mathlib.Data.Rat.Floor
import Mathlib.Tactic.FieldSimp
import Mathlib.Tactic.GCongr
import Mathlib.Tactic.NormNum

namespace Troves

namespace Price

/-! ## Scaling -/

/-- The first number that is no price. -/
def bound : Nat := 2 ^ 63 * 10 ^ 36

theorem powTen_ok {e : Nat} (h : e ≤ 36) : Amount.powTen e = .ok (10 ^ e) :=
  Amount.powTen_eq_ok.2 ⟨h.trans (by decide), rfl⟩

/-- Fewer than eighteen places: the mantissa is multiplied. -/
theorem scaled_up (mantissa k : Nat) :
    (mantissa : ℚ) * 10 ^ 18 / (10 : ℚ) ^ (18 - (k : ℤ)) = (mantissa * 10 ^ k : Nat) := by
  rw [zpow_sub₀ (by norm_num), zpow_natCast, div_div_eq_mul_div]
  push_cast
  field_simp
  norm_cast

/-- More than eighteen places: the mantissa is divided. -/
theorem scaled_down (mantissa k : Nat) :
    (mantissa : ℚ) * 10 ^ 18 / (10 : ℚ) ^ (18 + (k : ℤ)) = (mantissa : ℚ) / (10 ^ k : Nat) := by
  rw [zpow_add₀ (by norm_num), zpow_natCast]
  push_cast
  field_simp
  norm_cast

/-- A mantissa of 63 bits can be scaled from as many places as a source may
report. -/
theorem rescale_ok {mantissa : Nat} {places : Int} (fits : mantissa < 2 ^ 63)
    (least : -maxExponent ≤ places) (most : places ≤ maxDecimals) :
    ∃ price, rescale mantissa (-places) = .ok price ∧ price < bound ∧
      price = ⌊(mantissa : ℚ) * 10 ^ 18 / (10 : ℚ) ^ places⌋₊ := by
  rw [maxExponent] at least
  rw [maxDecimals] at most
  rw [rescale]
  split
  · next up =>
    obtain ⟨k, hk⟩ := Int.eq_ofNat_of_zero_le up
    have hplaces : places = 18 - (k : ℤ) := by omega
    have hpow : k ≤ 36 := by omega
    have hprice : mantissa * 10 ^ k < bound :=
      Nat.mul_lt_mul_of_lt_of_le fits (Nat.pow_le_pow_right (by decide) hpow) (by decide)
    have hlimit : mantissa * 10 ^ k < Amount.limit := hprice.trans (by decide +kernel)
    refine ⟨mantissa * 10 ^ k, ?_, hprice, ?_⟩
    · rw [hk, Int.toNat_natCast, powTen_ok hpow]
      exact Amount.mul_eq_ok.2 ⟨hlimit, rfl⟩
    · rw [hplaces, scaled_up, Nat.floor_natCast]
  · next down =>
    obtain ⟨k, hk⟩ : ∃ k : Nat, -(18 + -places) = k := Int.eq_ofNat_of_zero_le (by omega)
    have hplaces : places = 18 + (k : ℤ) := by omega
    have hpow : k ≤ 36 := by omega
    have hprice : mantissa / 10 ^ k < bound :=
      (Nat.div_le_self _ _).trans_lt (fits.trans_le (by decide +kernel))
    refine ⟨mantissa / 10 ^ k, ?_, hprice, ?_⟩
    · rw [hk, Int.toNat_natCast, powTen_ok hpow]
      exact Amount.div_eq_ok.2 ⟨(Nat.pow_pos (by decide)).ne', rfl⟩
    · rw [hplaces, scaled_down, Nat.floor_div_eq_div]

/-! ## Answers -/

/-- What a source answers: a mantissa with its decimal places, and since when. -/
structure Answer where
  mantissa : Int
  places : Int
  givenAt : Nat

/-- The answer in a round. -/
def Round.told (r : Round) : Answer where
  mantissa := r.answer.toInt
  places := r.decimals.toNat
  givenAt := r.updatedAt.toNat

/-- The answer in a quote. -/
def Quote.told (q : Quote) : Answer where
  mantissa := q.mantissa.toInt
  places := -q.exponent.toInt
  givenAt := q.publishedAt.toNat

/-- An answer that may be used at a time, and the price it gives: positive, in
range, not from the future, within the timeout, scaled to eighteen places. -/
structure Answer.Supports (a : Answer) (now timeout price : Nat) : Prop where
  positive : 0 < a.mantissa
  least : -maxExponent ≤ a.places
  most : a.places ≤ maxDecimals
  dated : a.givenAt ≠ 0
  past : a.givenAt ≤ now
  fresh : now ≤ a.givenAt + timeout
  price : price = ⌊(a.mantissa : ℚ) * 10 ^ 18 / (10 : ℚ) ^ a.places⌋₊

/-- A live reading has a price, and something to rest on. -/
def Reading.RestsOn (reading : Reading) (P : Nat → Prop) : Prop :=
  ∀ price, reading = .live price → price ≠ 0 ∧ price < bound ∧ P price

namespace Reading

variable {P : Nat → Prop}

theorem restsOn_broken : broken.RestsOn P := nofun

theorem restsOn_frozen : frozen.RestsOn P := nofun

theorem restsOn_ofPrice {price : Nat} (hb : price < bound) (hP : P price) :
    (ofPrice price).RestsOn P := by
  intro p hp
  rw [ofPrice] at hp
  split at hp
  · cases hp
  · next hz =>
    cases hp
    exact ⟨hz, hb, hP⟩

end Reading

/-- A usable answer is read: frozen if it is too old, and else live with the
price that it supports, if there is any. -/
theorem Answer.meets_read {a : Answer} {exponent : Int} {now timeout : Nat} {P : Nat → Prop}
    (scale : exponent = -a.places) (fits : a.mantissa < 2 ^ 63) (positive : 0 < a.mantissa)
    (least : -maxExponent ≤ a.places) (most : a.places ≤ maxDecimals) (dated : a.givenAt ≠ 0)
    (past : a.givenAt ≤ now) (hP : ∀ price, a.Supports now timeout price → P price) :
    (do
      let age ← Amount.sub now a.givenAt
      if timeout < age then
        return .frozen
      return .ofPrice (← rescale a.mantissa.toNat exponent) : Checked Reading).Meets
      (·.RestsOn P) fun _ => False := by
  rw [Checked.meets_bind, Amount.meets_sub, if_pos past, Checked.meets_ite]
  split
  · exact Reading.restsOn_frozen
  · next young =>
    have hnat : a.mantissa.toNat < 2 ^ 63 := by omega
    obtain ⟨price, hprice, hbound, hfloor⟩ := rescale_ok hnat least most
    have hcast : ((a.mantissa.toNat : Nat) : ℚ) = (a.mantissa : ℚ) :=
      congrArg (Int.cast (R := ℚ)) (Int.toNat_of_nonneg positive.le)
    rw [hcast] at hfloor
    refine Checked.meets_bind.2 (Checked.meets_of_ok (scale ▸ hprice) ?_)
    exact Reading.restsOn_ofPrice hbound
      (hP price ⟨positive, least, most, dated, past, by omega, hfloor⟩)

/-- A round can be read, and only one that supports a price is live. -/
theorem readRound_meets {round? : Option Round} {now timeout : Nat} :
    (readRound round? now timeout).Meets
      (·.RestsOn fun price => ∃ r, round? = some r ∧ r.told.Supports now timeout price)
      fun _ => False := by
  cases round? with
  | none => exact Reading.restsOn_broken
  | some r =>
    rw [readRound]
    split
    · next sound =>
      simp only [Round.sound, Bool.and_eq_true, decide_eq_true_eq, bne_iff_ne, and_assoc]
        at sound
      obtain ⟨positive, dated, past, most⟩ := sound
      have hdated : r.updatedAt.toNat ≠ 0 := fun h => dated (UInt64.toNat_inj.1 h)
      have hleast : -maxExponent ≤ r.told.places := by
        show -18 ≤ (r.decimals.toNat : ℤ)
        omega
      exact Answer.meets_read (a := r.told) rfl r.answer.toInt_lt positive hleast
        (Int.ofNat_le.2 most) hdated past fun price h => ⟨r, rfl, h⟩
    · exact Reading.restsOn_broken

/-- A quote is certain enough if its confidence interval is within the bound. -/
def Quote.Certain (q : Quote) (terms : Terms) : Prop :=
  q.confidence.toNat * basisPoints ≤ q.mantissa.toInt.toNat * terms.maxConfidence

/-- A quote can be read, and only one of the right feed that is certain enough
and supports a price is live. -/
theorem readQuote_meets {quote? : Option Quote} {now : Nat} {terms : Terms}
    (fits : terms.maxConfidence < 2 ^ 64) :
    (readQuote quote? now terms).Meets
      (·.RestsOn fun price => ∃ q, quote? = some q ∧ q.feedId = terms.feedId ∧
        q.Certain terms ∧ q.told.Supports now terms.timeout price)
      fun _ => False := by
  cases quote? with
  | none => exact Reading.restsOn_broken
  | some q =>
    rw [readQuote]
    split
    · next sound =>
      simp only [Quote.sound, Bool.and_eq_true, decide_eq_true_eq, bne_iff_ne, beq_iff_eq,
        and_assoc] at sound
      obtain ⟨positive, dated, past, feed, most, least⟩ := sound
      have hdated : q.publishedAt.toNat ≠ 0 := fun h => dated (UInt64.toNat_inj.1 h)
      have hmantissa : q.mantissa.toInt.toNat < 2 ^ 63 := by
        have := q.mantissa.toInt_lt
        omega
      have hwidest : q.mantissa.toInt.toNat * terms.maxConfidence < Amount.limit :=
        (Nat.mul_lt_mul'' hmantissa fits).trans (by decide +kernel)
      have hwidth : q.confidence.toNat * basisPoints < Amount.limit :=
        (Nat.mul_lt_mul_of_pos_right q.confidence.toNat_lt (by decide)).trans (by decide +kernel)
      rw [Checked.meets_bind, Amount.meets_mul, if_pos hwidest, Checked.meets_bind,
        Amount.meets_mul, if_pos hwidth, Checked.meets_ite]
      split
      · exact Reading.restsOn_broken
      · next narrow =>
        have hmost : q.told.places ≤ maxDecimals := neg_le.1 most
        have hleast : -maxExponent ≤ q.told.places := neg_le_neg least
        exact Answer.meets_read (a := q.told) (neg_neg _).symm q.mantissa.toInt_lt positive hleast
          hmost hdated past fun price h => ⟨q, rfl, feed, Nat.le_of_not_lt narrow, h⟩
    · exact Reading.restsOn_broken

/-! ## Decisions -/

/-- The other source is broken, frozen or similar to a price. -/
def Reading.Yields (secondary : Reading) (price maxDeviation : Nat) : Prop :=
  match secondary with
  | .broken | .frozen => True
  | .live s => agree price s maxDeviation = .ok true

/-- How a decision relates to the readings: a fresh price is that of the source
it is taken from, the primary works only if it is live, and it is used whenever
it is live and the secondary does not stand against it. -/
structure Decision.Fits (d : Decision) (primary secondary : Reading) (maxDeviation : Nat) :
    Prop where
  ofPrimary : ∀ p, d.choice = .primary p → primary = .live p
  ofSecondary : ∀ s, d.choice = .secondary s → secondary = .live s
  working : d.status = .primaryWorking → ∃ p, primary = .live p
  preferred : ∀ p, primary = .live p → secondary.Yields p maxDeviation → d.choice = .primary p

variable {status : Status} {primary secondary : Reading} {p s maxDeviation : Nat}

theorem onDisagreement_fits (h : agree p s maxDeviation = .ok false) :
    (onDisagreement status p s).Fits (.live p) (.live s) maxDeviation := by
  cases status <;> constructor <;> simp [onDisagreement, Reading.Yields, h]

theorem onPrimaryBroken_fits :
    (onPrimaryBroken status secondary).Fits .broken secondary maxDeviation := by
  cases secondary <;> cases status <;> constructor <;> simp [onPrimaryBroken]

theorem onPrimaryFrozen_fits :
    (onPrimaryFrozen status secondary).Fits .frozen secondary maxDeviation := by
  cases secondary <;> cases status <;> constructor <;> simp [onPrimaryFrozen]

/-- Prices can be compared. -/
theorem agree_ok (hp : p < bound) (hs : s < bound) (maxDeviation : Nat) :
    ∃ agreed, agree p s maxDeviation = .ok agreed := by
  rw [agree]
  split
  · exact ⟨true, rfl⟩
  · next hmax =>
    have hdistance : Amount.distance p s < bound :=
      (Nat.sub_le _ _).trans_lt (max_lt hp hs)
    have hproduct : Amount.distance p s * Amount.one < Amount.limit :=
      (Nat.mul_lt_mul_of_pos_right hdistance (by decide)).trans (by decide +kernel)
    exact ⟨_, Checked.bind_eq_ok.2 ⟨_, Amount.mulDiv_eq_ok.2 ⟨hproduct, hmax, rfl⟩, rfl⟩⟩

/-- Two readings can be judged, and the decision fits them. -/
theorem judge_meets {P Q : Nat → Prop} (hp : primary.RestsOn P) (hs : secondary.RestsOn Q) :
    (judge status primary secondary maxDeviation).Meets
      (·.Fits primary secondary maxDeviation) fun _ => False := by
  cases primary with
  | broken => exact onPrimaryBroken_fits
  | frozen => exact onPrimaryFrozen_fits
  | live p =>
    cases secondary with
    | broken => constructor <;> simp
    | frozen => constructor <;> simp
    | live s =>
      obtain ⟨agreed, ha⟩ := agree_ok (hp p rfl).2.1 (hs s rfl).2.1 maxDeviation
      refine Checked.meets_bind.2 (Checked.meets_of_ok ha ?_)
      cases agreed with
      | true => constructor <;> simp
      | false => exact onDisagreement_fits ha

/-! ## The feed -/

/-- The reports vouch for a price at a time: the round does, or the quote, of
the feed that is asked for and certain enough. -/
def Settings.Vouch (f : Settings) (round? : Option Round) (quote? : Option Quote)
    (now price : Nat) : Prop :=
  (∃ r, round? = some r ∧ r.told.Supports now f.primaryTimeout.toNat price) ∨
    ∃ q, quote? = some q ∧ q.feedId = f.feedId ∧ q.Certain f.terms ∧
      q.told.Supports now f.secondaryTimeout.toNat price

namespace Feed

variable {f : Feed} {settings : Settings} {round? : Option Round} {quote? : Option Quote}
  {now : Nat} {d : Decision}

/-- What the feed makes of two reports: the readings they have, a decision that
fits these, and for a fresh price something that vouches for it. -/
structure Judges (f : Feed) (round? : Option Round) (quote? : Option Quote) (now : Nat)
    (d : Decision) : Prop where
  readings : ∃ primary secondary,
    readRound round? now f.settings.primaryTimeout.toNat = .ok primary ∧
      readQuote quote? now f.settings.terms = .ok secondary ∧
      d.Fits primary secondary f.settings.maxDeviation
  fresh : ∀ price, d.choice.price? = some price →
    price ≠ 0 ∧ f.settings.Vouch round? quote? now price

/-- The feed makes something of any two reports. -/
theorem decideAt_meets :
    (f.decideAt round? quote? now).Meets (f.Judges round? quote? now) fun _ => False := by
  have hconfidence : f.settings.terms.maxConfidence < 2 ^ 64 := f.settings.maxConfidence.toNat_lt
  rw [decideAt, Checked.meets_bind]
  refine readRound_meets.mono (fun primary hprimary onRound => ?_) fun _ => id
  rw [Checked.meets_bind]
  refine (readQuote_meets hconfidence).mono (fun secondary hsecondary onQuote => ?_) fun _ => id
  refine (judge_meets onRound onQuote).mono (fun d _ fits => ?_) fun _ => id
  refine ⟨⟨primary, secondary, hprimary, hsecondary, fits⟩, fun price hprice => ?_⟩
  cases hd : d.choice with
  | primary p =>
    rw [hd] at hprice
    cases hprice
    obtain ⟨hne, -, hr⟩ := onRound price (fits.ofPrimary price hd)
    exact ⟨hne, .inl hr⟩
  | secondary s =>
    rw [hd] at hprice
    cases hprice
    obtain ⟨hne, -, hq⟩ := onQuote price (fits.ofSecondary price hd)
    exact ⟨hne, .inr hq⟩
  | lastGood =>
    rw [hd] at hprice
    cases hprice

/-- What the feed decides it makes of the reports. -/
theorem judges_of_decideAt (h : f.decideAt round? quote? now = .ok d) :
    f.Judges round? quote? now d :=
  decideAt_meets.of_eq_ok h

/-- A feed starts with a price that the round vouches for. -/
theorem start_ok (h : start settings round? now = .ok f) :
    f.lastGood ≠ 0 ∧ f.settings.Vouch round? quote? now f.lastGood := by
  obtain ⟨reading, hr, h⟩ := Checked.bind_eq_ok.1 h
  have onRound := readRound_meets.of_eq_ok hr
  cases reading with
  | live price =>
    cases h
    obtain ⟨hne, -, hround⟩ := onRound price rfl
    exact ⟨hne, .inl hround⟩
  | _ => cases h

end Feed

end Price

end Troves
