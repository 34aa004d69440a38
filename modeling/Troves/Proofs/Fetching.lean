/-
# Fetching the price

No report makes the feed fail.  Reading two reports and judging them takes a few
sums and products of bounded numbers, and each is in range by a check that comes
before it:

| number | in range because |
|---|---|
| age of a report | the report is not from the future |
| price | the decimal places are at most 36 and the exponent is at most 18 |
| shift of an exponent | the exponent is from -36 to 18 |
| deviation of two prices | both are live, so neither is zero |

Fetching the price twice is fetching it once.  What the feed decides of two
readings it decides again in the status that it has come to, so until the
reports, the settings or the clock change, the price stays what it is and a
request for it changes nothing, whatever else happens in between.
-/
import Troves.Proofs.Provenance

namespace Troves

open Troves.Action

namespace Price

variable {settings : Settings} {status : Status} {round? : Option Round}
  {quote? : Option Quote} {now : Nat}

/-! ## The numbers of a report -/

/-- A number that is not negative is the same without its sign. -/
theorem toUInt64_toNat {x : Int64} (h : 0 ≤ x.toInt) : x.toUInt64.toNat = x.toInt.toNat := by
  have hsigned : x.toInt = x.toBitVec.toInt := rfl
  have hunsigned : x.toUInt64.toNat = x.toBitVec.toNat := rfl
  rw [hsigned, BitVec.toInt_eq_toNat_cond] at h ⊢
  rw [hunsigned]
  split at h <;> omega

theorem toInt_shift {x : Int32} (least : -(maxDecimals : Int) ≤ x.toInt)
    (most : x.toInt ≤ maxExponent) : (18 + x).toInt = 18 + x.toInt := by
  have heighteen : (18 : Int32).toInt = 18 := rfl
  rw [maxDecimals] at least
  rw [maxExponent] at most
  rw [Int32.toInt_add, heighteen]
  exact Int.bmod_eq_of_le (by omega) (by omega)

/-- The numbers of a report are the ones they are reckoned with: none wraps round
when it loses its sign, is shifted or is negated. -/
structure Exact (mantissa : Int64) (exponent : Int32) : Prop where
  mantissa : mantissa.toUInt64.toNat = mantissa.toInt.toNat
  shift : (18 + exponent).toInt = 18 + exponent.toInt
  negated : (-(18 + exponent)).toInt = -(18 + exponent.toInt)

theorem Quote.sound_exact {q : Quote} {feedId : String} (h : q.sound now feedId = true) :
    Exact q.mantissa q.exponent := by
  simp only [Quote.sound, Bool.and_eq_true, decide_eq_true_eq, and_assoc] at h
  obtain ⟨positive, -, -, -, least, most⟩ := h
  have hshift := toInt_shift least most
  refine ⟨toUInt64_toNat positive.le, hshift, ?_⟩
  rw [maxDecimals] at least
  rw [maxExponent] at most
  rw [Int32.toInt_neg, hshift]
  exact Int.bmod_eq_of_le (by omega) (by omega)

theorem Round.sound_exact {r : Round} (h : r.sound now = true) :
    r.answer.toUInt64.toNat = r.answer.toInt.toNat := by
  simp only [Round.sound, Bool.and_eq_true, decide_eq_true_eq, and_assoc] at h
  exact toUInt64_toNat h.1.le

/-- Whatever is reported can be read, no live reading is zero, and the readings
can be judged in any status. -/
theorem reports_judged (settings : Settings) (status : Status) (round? : Option Round)
    (quote? : Option Quote) (now : Nat) :
    ∃ primary secondary d,
      readRound round? now settings.primaryTimeout.toNat = .ok primary ∧
        readQuote quote? now settings.terms = .ok secondary ∧
        judge status primary secondary settings.maxDeviation = .ok d ∧
        primary ≠ .live 0 ∧ secondary ≠ .live 0 := by
  have hconfidence : settings.terms.maxConfidence < 2 ^ 64 := settings.maxConfidence.toNat_lt
  obtain ⟨primary, hp, onRound⟩ := readRound_meets.goes_through
  obtain ⟨secondary, hs, onQuote⟩ := (readQuote_meets hconfidence).goes_through
  obtain ⟨d, hd, -⟩ := (judge_meets onRound onQuote).goes_through
  exact ⟨primary, secondary, d, hp, hs, hd, fun h => (onRound 0 h).1 rfl,
    fun h => (onQuote 0 h).1 rfl⟩

/-! ## Deciding again -/

/-- Judging in the status just come to is judging once, whether it goes through or
not. -/
theorem judge_idem (status : Status) (primary secondary : Reading) (maxDeviation : Nat) :
    (do
      let d ← judge status primary secondary maxDeviation
      judge d.status primary secondary maxDeviation) =
      judge status primary secondary maxDeviation := by
  cases h : judge status primary secondary maxDeviation with
  | error e => rfl
  | ok d => exact judge_again h

/-- What a decision reports, in the status it was made in. -/
def Decision.reports (d : Decision) (status : Status) : List Event :=
  (if d.status ≠ status then [.statusChanged d.status] else [])
    ++ d.choice.price?.toList.map .priceTaken

theorem Decision.reports_again (d : Decision) (s : Status) :
    .statusChanged s ∉ d.reports d.status := by
  simp [reports]

end Price

/-! ## One request -/

/-- The feed follows its decision, and the answer is what it then has as the last
good price. -/
theorem Request.currentPrice_run {w : World} {d : Price.Decision} (caller : Address)
    (h : w.feed.decideAt w.round? w.quote? w.time = .ok d) :
    currentPrice.perform caller w =
      .ok ⟨.amount (w.feed.follow d).lastGood, { w with feed := w.feed.follow d },
        d.reports w.feed.status⟩ := by
  have hrun : Protocol.currentPrice w =
      .ok ⟨(w.feed.follow d).lastGood, { w with feed := w.feed.follow d },
        d.reports w.feed.status⟩ := by
    by_cases hs : d.status = w.feed.status <;> cases hp : d.choice.price? <;>
      simp [Protocol.currentPrice, Price.Decision.reports, bind_run, h, hs, hp, Except.map,
        -bind_pure_comp]
  simp [perform, bind_run, hrun, Except.map]

namespace World

variable {w w' : World} {ts : List Turn} {t : Turn}

/-- The feed and all that it reads are the same. -/
structure Still (w w' : World) : Prop where
  feed : w'.feed = w.feed
  round : w'.round? = w.round?
  quote : w'.quote? = w.quote?
  time : w'.time = w.time

/-- The feed has come to what it would decide now. -/
def Fetched (w : World) : Prop :=
  ∃ d, w.feed.decideAt w.round? w.quote? w.time = .ok d ∧ d.status = w.feed.status ∧
    w.feed.follow d = w.feed

theorem Still.trans {w₁ : World} (h : w.Still w₁) (h' : w₁.Still w') : w.Still w' :=
  ⟨h'.feed.trans h.feed, h'.round.trans h.round, h'.quote.trans h.quote, h'.time.trans h.time⟩

/-- Following a decision, the feed has come to it. -/
theorem fetched_follow {d : Price.Decision}
    (h : w.feed.decideAt w.round? w.quote? w.time = .ok d) :
    Fetched { w with feed := w.feed.follow d } :=
  ⟨d, Price.Feed.decideAt_again h, rfl, Price.Feed.follow_again⟩

theorem Fetched.still (h : w.Fetched) (same : w.Still w') : w'.Fetched := by
  rwa [Fetched, same.feed, same.round, same.quote, same.time]

/-- Fetched again, the price is the last good price, and nothing changes. -/
theorem Fetched.again (h : w.Fetched) (caller : Address) :
    ∃ o, Request.currentPrice.perform caller w = .ok o ∧
      o.value = .amount w.feed.lastGood ∧ o.world = w ∧
        ∀ s, .statusChanged s ∉ o.events := by
  obtain ⟨d, hd, hstatus, hfollow⟩ := h
  refine ⟨_, Request.currentPrice_run caller hd, ?_, ?_, ?_⟩
  · rw [hfollow]
  · rw [hfollow]
  · rw [← hstatus]
    exact d.reports_again

/-- Consulting a feed that has come to its decision leaves it there. -/
theorem Consulted.still (h : w.Consulted w') (fetched : w.Fetched) : w.Still w' := by
  refine ⟨?_, h.round, h.quote, h.time⟩
  rcases h.feed with hf | ⟨d, hd, hf⟩
  · exact hf
  · obtain ⟨d', hd', -, hfollow⟩ := fetched
    cases hd.symm.trans hd'
    rw [hf, hfollow]

end World

/-! ## Runs -/

/-- Whether a turn leaves the reports, the settings and the clock alone. -/
def Turn.leavesFeed : Turn → Prop
  | .call _ r => ¬ r.setsFeed
  | .wait _ => False

theorem Turn.take_still {w : World} {t : Turn} (fetched : w.Fetched) (leaves : t.leavesFeed) :
    w.Still (t.take w).1 := by
  cases t with
  | call caller request =>
    rcases take_call (Request.consults_perform leaves w) with h | h
    · rw [h]
      exact ⟨rfl, rfl, rfl, rfl⟩
    · exact h.still fetched
  | wait milliseconds => exact leaves.elim

theorem World.Fetched.after {w : World} (h : w.Fetched) {ts : List Turn}
    (leaves : ∀ t ∈ ts, t.leavesFeed) : w.Still (w.after ts) := by
  induction ts generalizing w with
  | nil => exact ⟨rfl, rfl, rfl, rfl⟩
  | cons t ts ih =>
    have hfirst := Turn.take_still h (leaves t List.mem_cons_self)
    exact hfirst.trans (ih (h.still hfirst) fun u hu => leaves u (List.mem_cons_of_mem _ hu))

/-- Fetching the price is idempotent.

Of any two readings, whatever their prices, the decision made in the status that a
decision has led to is that decision.  Hence in every state the price can be
fetched, only the feed changes by it, and whoever fetches it again, while the feed
and all that it reads are the same, gets the same price and changes nothing.  They
are the same as long as there is neither another report nor a pause nor a change of
the settings, whatever else is asked of the contracts. -/
theorem Request.currentPrice_idempotent :
    (∀ status primary secondary maxDeviation,
      (do
        let d ← Price.judge status primary secondary maxDeviation
        Price.judge d.status primary secondary maxDeviation) =
        Price.judge status primary secondary maxDeviation) ∧
    ∀ (w : World) (caller : Address), ∃ o, currentPrice.perform caller w = .ok o ∧
      o.world = { w with feed := o.world.feed } ∧
      (∀ w' caller', o.world.Still w' → ∃ o', currentPrice.perform caller' w' = .ok o' ∧
        o'.value = o.value ∧ o'.world = w' ∧ ∀ s, .statusChanged s ∉ o'.events) ∧
      ∀ ts, (∀ t ∈ ts, t.leavesFeed) → o.world.Still (o.world.after ts) := by
  refine ⟨Price.judge_idem, fun w caller => ?_⟩
  obtain ⟨d, hd, -⟩ : ∃ d, w.feed.decideAt w.round? w.quote? w.time = .ok d ∧
      w.feed.Judges w.round? w.quote? w.time d := Price.Feed.decideAt_meets.goes_through
  have fetched := World.fetched_follow hd
  refine ⟨_, currentPrice_run caller hd, rfl, fun w' caller' same => ?_, fun ts => fetched.after⟩
  obtain ⟨o', ho', hvalue, hworld, hevents⟩ := (fetched.still same).again caller'
  refine ⟨o', ho', ?_, hworld, hevents⟩
  rw [hvalue, same.feed]

/-- No report makes the feed fail.

Whatever the reports, the settings, the status and the time are, the reports can be
read and judged, no live reading is zero, and the numbers of a report that is not
broken are the ones they are reckoned with.  Hence once a feed has started, the
price can be fetched after any run, and it is not zero. -/
theorem World.price_always_fetched {w₀ : World} {settings : Price.Settings}
    (started : Price.Feed.start settings w₀.round? w₀.time = .ok w₀.feed) :
    (∀ (settings : Price.Settings) status round? quote? now, ∃ primary secondary d,
      Price.readRound round? now settings.primaryTimeout.toNat = .ok primary ∧
        Price.readQuote quote? now settings.terms = .ok secondary ∧
        Price.judge status primary secondary settings.maxDeviation = .ok d ∧
        primary ≠ .live 0 ∧ secondary ≠ .live 0) ∧
    (∀ (r : Price.Round) now, r.sound now = true →
      r.answer.toUInt64.toNat = r.answer.toInt.toNat) ∧
    (∀ (q : Price.Quote) now feedId, q.sound now feedId = true →
      Price.Exact q.mantissa q.exponent) ∧
    ∀ ts caller, ∃ o price, Request.currentPrice.perform caller (w₀.after ts) = .ok o ∧
      o.value = .amount price ∧ price ≠ 0 := by
  refine ⟨Price.reports_judged, fun r now => r.sound_exact, fun q now feedId => q.sound_exact,
    fun ts caller => ?_⟩
  obtain ⟨hne, hv⟩ := Price.Feed.start_ok started
  obtain ⟨o, ho, answered⟩ := Request.currentPrice_answered caller (w₀.after ts)
  have hnext : o.world = w₀.after (ts ++ [.call caller .currentPrice]) := by
    rw [after_snoc, Turn.take, ho]
  have origin := Vouches.origin ⟨hne, hv⟩ (ts ++ [.call caller .currentPrice])
  rw [← hnext] at origin
  exact ⟨o, _, ho, answered.lastGood, origin.ne_zero⟩

/-- Both sources report the largest number there is, with as few decimal places as
they may, and then nothing. -/
def Deployment.extremes : List Turn :=
  [.call (.account 0) (.reportRound (some {
      answer := 9223372036854775807
      decimals := 0
      updatedAt := 1000000 })),
   .call (.account 0) (.reportQuote (some {
      mantissa := 9223372036854775807
      confidence := 461168601842738790
      exponent := 18
      publishedAt := 1000000
      feedId := "" })),
   .call (.account 1) .currentPrice,
   .call (.account 0) (.reportRound none)]

theorem World.price_always_fetched_extremes :
    ∃ w₀, Deployment.plain.deploy = .ok w₀ ∧
      Price.Feed.start {} w₀.round? w₀.time = .ok w₀.feed ∧
      let w := w₀.after Deployment.extremes
      Price.readQuote w.quote? w.time w.feed.settings.terms =
        .ok (.live (9223372036854775807 * 10 ^ 36)) ∧
      ∀ caller, ∃ o price, Request.currentPrice.perform caller w = .ok o ∧
        o.value = .amount price ∧ price ≠ 0 := by
  obtain ⟨w₀, hw₀, started, hlive⟩ : ∃ w₀, Deployment.plain.deploy = .ok w₀ ∧
      Price.Feed.start {} w₀.round? w₀.time = .ok w₀.feed ∧
      let w := w₀.after Deployment.extremes
      Price.readQuote w.quote? w.time w.feed.settings.terms =
        .ok (.live (9223372036854775807 * 10 ^ 36)) :=
    Checked.exists_ok (by decide +kernel)
  obtain ⟨-, -, -, fetched⟩ := price_always_fetched started
  exact ⟨w₀, hw₀, started, hlive, fetched Deployment.extremes⟩

end Troves
