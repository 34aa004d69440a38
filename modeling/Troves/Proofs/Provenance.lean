/-
# Where the price comes from

Once a feed has started, whatever is asked of the contracts and however they
are wired, the last good price is never zero, and it is the scaled answer of a
source that could be used when it was stored: at the start, or in the turn since
which it is the last good price.

| turn | last good price |
|---|---|
| the oracles report, the settings change, time passes | stays |
| any other request | stays, or is the fresh price of a decision |

Asking for the price always goes through, and the answer is what is the last
good price afterwards.
-/
import Troves.Proofs.Consulting
import Troves.Proofs.Readings
import Troves.Proofs.Run

namespace Troves

open Troves.Action

namespace World

/-- What is reported at the moment vouches for a price, which is not zero. -/
structure Vouches (w : World) (price : Nat) : Prop where
  ne_zero : price ≠ 0
  vouched : w.feed.settings.Vouch w.round? w.quote? w.time price

/-- A turn from one world to another has stored a price: the feed follows a
decision for it, and at that moment the reports vouch for it. -/
structure Stored (w w' : World) (price : Nat) : Prop where
  decided : ∃ d, w.feed.decideAt w.round? w.quote? w.time = .ok d ∧
    d.choice.price? = some price ∧ w'.feed = w.feed.follow d
  vouches : w.Vouches price

/-- A price is the last good price now and after each of some turns. -/
def Serves (w : World) (price : Nat) (ts : List Turn) : Prop :=
  ∀ us, us <+: ts → (w.after us).feed.lastGood = price

/-- Where the last good price after some turns comes from: from the start, or
from the turn that stored it. -/
inductive Origin (w₀ : World) (ts : List Turn) (price : Nat) : Prop where
  | start (vouches : w₀.Vouches price) (since : w₀.Serves price ts)
  | turn (us : List Turn) (t : Turn) (vs : List Turn) (split : ts = us ++ t :: vs)
      (stored : (w₀.after us).Stored (t.take (w₀.after us)).1 price)
      (since : (t.take (w₀.after us)).1.Serves price vs)

/-- How a request for the price comes out: the answer is the last good price
from then on; it is the primary's price if that is live and the secondary
agrees or cannot tell; and the primary works only if it is live. -/
structure Answered (w : World) (o : Outcome Reply) : Prop where
  lastGood : o.value = .amount o.world.feed.lastGood
  readings : ∃ primary secondary,
    Price.readRound w.round? w.time w.feed.settings.primaryTimeout.toNat = .ok primary ∧
      Price.readQuote w.quote? w.time w.feed.settings.terms = .ok secondary ∧
      (∀ price, primary = .live price →
        secondary.Yields price w.feed.settings.maxDeviation → o.value = .amount price) ∧
      (o.world.feed.status = .primaryWorking → ∃ price, primary = .live price)

variable {w w' w₀ : World} {price : Nat} {ts : List Turn} {t : Turn}

/-! ## One turn -/

/-- A feed that has at most been consulted serves the price it served, or has
stored a fresh one. -/
theorem Consulted.lastGood (h : w.Consulted w') :
    w'.feed.lastGood = w.feed.lastGood ∨ w.Stored w' w'.feed.lastGood := by
  rcases h.feed with hf | ⟨d, hd, hf⟩
  · exact .inl (congrArg Price.Feed.lastGood hf)
  · cases hp : d.choice.price? with
    | none => exact .inl (by rw [hf, Price.Feed.follow, hp, Option.getD_none])
    | some price =>
      have hl : w'.feed.lastGood = price := by rw [hf, Price.Feed.follow, hp, Option.getD_some]
      obtain ⟨hne, hv⟩ := (Price.Feed.judges_of_decideAt hd).fresh price hp
      exact .inr (hl ▸ ⟨⟨d, hd, hp, hf⟩, ⟨hne, hv⟩⟩)

end World

/-- A request stores a fresh price, or the last good price stays. -/
theorem Request.ensures_lastGood {w : World} (caller : Address) (r : Request) :
    (r.perform caller).Ensures w fun _ w' =>
      w'.feed.lastGood = w.feed.lastGood ∨ w.Stored w' w'.feed.lastGood := by
  by_cases h : r.setsFeed
  · cases r with
    | reportRound round? => exact ensures_silent.2 (ensures_update.2 (.inl rfl))
    | reportQuote quote? => exact ensures_silent.2 (ensures_update.2 (.inl rfl))
    | configureFeed settings => simp [perform, Protocol.configureFeed, ensures_onlyAdmin]
    | _ => exact absurd h not_false
  · exact (consults_perform h w).mono fun _ _ h => h.lastGood

theorem Turn.take_lastGood (t : Turn) (w : World) :
    (t.take w).1.feed.lastGood = w.feed.lastGood ∨
      w.Stored (t.take w).1 (t.take w).1.feed.lastGood := by
  cases t with
  | call caller request =>
    rcases take_call (Request.ensures_lastGood caller request) with h | h
    · exact .inl (by rw [h])
    · exact h
  | wait milliseconds =>
    obtain ⟨time, h⟩ := take_wait (w := w)
    rw [h]
    exact .inl rfl

namespace World

variable {w w' w₀ : World} {price : Nat} {ts : List Turn} {t : Turn}

/-! ## Runs -/

theorem after_snoc (w : World) (ts : List Turn) (t : Turn) :
    w.after (ts ++ [t]) = (t.take (w.after ts)).1 :=
  w.after_append ts [t]

/-- A price that stays in one more turn is served through that turn as well. -/
theorem Serves.snoc (h : w.Serves price ts)
    (stays : (t.take (w.after ts)).1.feed.lastGood = price) : w.Serves price (ts ++ [t]) := by
  intro us hus
  rcases List.prefix_concat_iff.1 hus with rfl | hus
  · rwa [after_snoc]
  · exact h us hus

/-- If the last good price stays in a turn, so does its origin. -/
theorem Origin.snoc (h : w₀.Origin ts price)
    (stays : (t.take (w₀.after ts)).1.feed.lastGood = price) : w₀.Origin (ts ++ [t]) price := by
  cases h with
  | start vouches since => exact .start vouches (since.snoc stays)
  | turn us u vs split stored since =>
    subst split
    refine .turn us u (vs ++ [t]) (by simp) stored (since.snoc ?_)
    rwa [after_append, after_cons] at stays

/-- From a start that is vouched for every last good price has its origin. -/
theorem Vouches.origin (h : w₀.Vouches w₀.feed.lastGood) (ts : List Turn) :
    w₀.Origin ts (w₀.after ts).feed.lastGood := by
  induction ts using List.reverseRecOn with
  | nil => exact .start h fun us hus => by rw [List.prefix_nil.1 hus, after_nil]
  | append_singleton ts t ih =>
    rw [after_snoc]
    rcases t.take_lastGood (w₀.after ts) with stays | stored
    · exact (stays ▸ ih).snoc rfl
    · refine .turn ts t [] rfl stored fun us hus => ?_
      rw [List.prefix_nil.1 hus, after_nil]

theorem Origin.ne_zero (h : w₀.Origin ts price) : price ≠ 0 := by
  cases h with
  | start vouches => exact vouches.ne_zero
  | turn _ _ _ _ stored => exact stored.vouches.ne_zero

end World

/-! ## Asking for the price -/

/-- The price can be asked for at any time. -/
theorem Request.currentPrice_answered (caller : Address) (w : World) :
    ∃ o, currentPrice.perform caller w = .ok o ∧ w.Answered o := by
  have h : Protocol.currentPrice.Meets w
      (fun price w' => ∃ d, w.feed.Judges w.round? w.quote? w.time d ∧
        w'.feed = w.feed.follow d ∧ price = w'.feed.lastGood) fun _ => False :=
    Protocol.meets_currentPrice.2
      (Price.Feed.decideAt_meets.mono (fun d _ judged => ⟨d, judged, rfl, rfl⟩) fun _ => id)
  obtain ⟨o, ho, d, judged, hfeed, hprice⟩ := h.goes_through
  obtain ⟨primary, secondary, hp, hs, fits⟩ := judged.readings
  refine ⟨⟨.amount o.value, o.world, o.events ++ []⟩,
    bind_eq_ok.2 ⟨o, ho, ⟨_, o.world, []⟩, rfl, rfl⟩, congrArg Reply.amount hprice,
    primary, secondary, hp, hs, fun price live yields => ?_, fun working => ?_⟩
  · have hd := fits.preferred price live yields
    rw [hprice, hfeed, Price.Feed.follow, hd]
    rfl
  · rw [hfeed] at working
    exact fits.working working

/-- Whatever happens from the start of the feed on: the last good price is not
zero and has its origin in a report that vouched for it, and whoever asks for
the price gets what is the last good price afterwards. -/
theorem World.price_provenance {w₀ : World} {settings : Price.Settings}
    (started : Price.Feed.start settings w₀.round? w₀.time = .ok w₀.feed) (ts : List Turn) :
    let w := w₀.after ts
    w.feed.lastGood ≠ 0 ∧ w₀.Origin ts w.feed.lastGood ∧
      ∀ caller, ∃ o, Request.currentPrice.perform caller w = .ok o ∧
        o.world = w₀.after (ts ++ [.call caller .currentPrice]) ∧ w.Answered o := by
  obtain ⟨hne, hv⟩ := Price.Feed.start_ok started
  have origin := Vouches.origin ⟨hne, hv⟩ ts
  refine ⟨origin.ne_zero, origin, fun caller => ?_⟩
  obtain ⟨o, ho, answered⟩ := Request.currentPrice_answered caller (w₀.after ts)
  refine ⟨o, ho, ?_, answered⟩
  rw [after_snoc, Turn.take, ho]

/-- The primary falls silent, the price is that of a quote, and stays so when the
quote is gone and the settings are others. -/
def Deployment.fallenBack : List Turn :=
  [.wait 10800001,
   .call (.account 0) (.reportQuote (some {
      mantissa := 19000000000
      confidence := 10000000
      exponent := -8
      publishedAt := 11000000
      feedId := "" })),
   .call (.account 1) .currentPrice,
   .call (.account 0) (.reportQuote none),
   .call (.account 0) (.configureFeed { secondaryTimeout := 1 }),
   .call (.account 1) .currentPrice,
   .wait 1000]

theorem World.price_provenance_fallenBack :
    ∃ w₀, Deployment.plain.deploy = .ok w₀ ∧
      Price.Feed.start {} w₀.round? w₀.time = .ok w₀.feed ∧
      let ts := Deployment.fallenBack
      let w := w₀.after ts
      let caller := Address.account 1
      w.feed.lastGood = 190 * Amount.one ∧ w.feed.status = .secondaryUntrusted ∧
        w₀.Origin ts (190 * Amount.one) ∧
        ∃ o, Request.currentPrice.perform caller w = .ok o ∧
          o.world = w₀.after (ts ++ [.call caller .currentPrice]) ∧ w.Answered o := by
  obtain ⟨w₀, hw₀, started, hprice, hstatus⟩ : ∃ w₀, Deployment.plain.deploy = .ok w₀ ∧
      Price.Feed.start {} w₀.round? w₀.time = .ok w₀.feed ∧
      (w₀.after Deployment.fallenBack).feed.lastGood = 190 * Amount.one ∧
      (w₀.after Deployment.fallenBack).feed.status = .secondaryUntrusted :=
    Checked.exists_ok (by decide +kernel)
  obtain ⟨-, origin, answered⟩ := price_provenance started Deployment.fallenBack
  exact ⟨w₀, hw₀, started, hprice, hstatus, hprice ▸ origin, answered _⟩

end Troves
