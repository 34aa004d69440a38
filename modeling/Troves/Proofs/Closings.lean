/-
# What a liquidation request closes

The answer to a liquidation request adds up what it did and does not say to
whom.  The actions here make the very liquidations of a request and answer
with the list of them: each trove closed, by its owner and its split.  They go
through whenever the request does, and leave the same world behind.
-/
import Troves.Proofs.Run

namespace Troves

open Troves.Action
open Liquidation (Split Totals)

namespace Action

variable {α β γ : Type}

/-- Wherever `x` goes through, `y` does too, to the same world and with an
answer that `R` relates to that of `x`. -/
def Follows (y : Action β) (x : Action α) (w : World) (R : α → β → Prop) : Prop :=
  ∀ o, x w = .ok o → ∃ o', y w = .ok o' ∧ o'.world = o.world ∧ R o.value o'.value

theorem follows_pure {a : α} {b : β} {w : World} {R : α → β → Prop} (h : R a b) :
    (pure b : Action β).Follows (pure a) w R := by
  intro o ho
  cases ho
  exact ⟨_, rfl, rfl, h⟩

/-- Two actions that begin alike follow each other if what comes next does. -/
theorem follows_bind {x : Action γ} {f : γ → Action α} {g : γ → Action β} {w : World}
    {R : α → β → Prop} (h : ∀ c w', (g c).Follows (f c) w' R) :
    (x >>= g).Follows (x >>= f) w R := by
  intro o ho
  obtain ⟨r, hr, t, ht, rfl⟩ := bind_eq_ok.1 ho
  obtain ⟨t', ht', hw, hR⟩ := h _ _ t ht
  exact ⟨_, bind_eq_ok.2 ⟨r, hr, t', ht', rfl⟩, hw, hR⟩

/-- A check that only one of them makes does not matter. -/
theorem follows_ofChecked_bind {x : Checked γ} {f : γ → Action α} {y : Action β} {w : World}
    {R : α → β → Prop} (h : ∀ c, x = .ok c → y.Follows (f c) w R) :
    y.Follows (ofChecked x >>= f) w R := by
  intro o ho
  obtain ⟨r, hr, t, ht, rfl⟩ := bind_eq_ok.1 ho
  obtain ⟨c, hc, rfl⟩ := ofChecked_eq_ok.1 hr
  obtain ⟨t', ht', hw, hR⟩ := h c hc t ht
  exact ⟨t', ht', hw, hR⟩

theorem follows_world_bind {f : World → Action α} {y : Action β} {w : World} {R : α → β → Prop}
    (h : y.Follows (f w) w R) : y.Follows (world >>= f) w R := by
  intro o ho
  obtain ⟨r, hr, t, ht, rfl⟩ := bind_eq_ok.1 ho
  cases hr
  obtain ⟨t', ht', hw, hR⟩ := h t ht
  exact ⟨t', ht', hw, hR⟩

/-- What is done with the answer does not matter, as long as it leaves the
world alone. -/
theorem Follows.after {x : Action γ} {f : γ → Action α} {y : Action β} {w : World}
    {S : γ → β → Prop} {R : α → β → Prop} (h : y.Follows x w S)
    (hf : ∀ c b w' o, S c b → f c w' = .ok o → o.world = w' ∧ R o.value b) :
    y.Follows (x >>= f) w R := by
  intro o ho
  obtain ⟨r, hr, t, ht, rfl⟩ := bind_eq_ok.1 ho
  obtain ⟨o', ho', hw, hS⟩ := h r hr
  obtain ⟨hw', hR⟩ := hf _ _ _ t hS ht
  exact ⟨o', ho', hw.trans hw'.symm, hR⟩

/-- The answer may be made into another one. -/
theorem Follows.bind_pure {x : Action α} {y : Action γ} {w : World} {S : α → γ → Prop}
    {R : α → β → Prop} {k : γ → β} (h : y.Follows x w S) (hR : ∀ a c, S a c → R a (k c)) :
    (y >>= fun c => pure (k c)).Follows x w R := by
  intro o ho
  obtain ⟨o', ho', hw, hS⟩ := h o ho
  exact ⟨_, bind_eq_ok.2 ⟨o', ho', _, rfl, rfl⟩, hw, hR _ _ hS⟩

end Action

/-- A trove closed by a liquidation. -/
structure Closing where
  owner : Address
  split : Split
deriving DecidableEq, Repr

namespace Closing

/-- What a liquidation attempt adds to the list. -/
def tally (borrower : Address) (split? : Option Split) (rest : List Closing) : List Closing :=
  match split? with
  | some s => ⟨borrower, s⟩ :: rest
  | none => rest

/-- The totals with some closings. -/
def total : List Closing → Totals → Checked Totals
  | [], t => return t
  | c :: cs, t => do total cs (← t.add c.split)

theorem total_tally {borrower : Address} {split? : Option Split} {rest : List Closing}
    {t t₁ t' : Totals} (h : t.tally split? = .ok t₁) (hr : total rest t₁ = .ok t') :
    total (tally borrower split? rest) t = .ok t' := by
  cases split? with
  | none =>
    cases h
    exact hr
  | some s => exact Checked.bind_eq_ok.2 ⟨t₁, h, hr⟩

/-- The surplus of an owner in some closings. -/
def surplusOf (a : Address) : List Closing → Nat
  | [] => 0
  | c :: cs => (if c.owner = a then c.split.surplus else 0) + surplusOf a cs

end Closing

namespace Protocol

/-! ## The same liquidations, listed -/

/-- The closings of `liquidateEach`. -/
def closeEach (links : Ledger.Links) (price : Nat) (liquidator : Address) :
    List Address → Action (List Closing)
  | [] => return []
  | b :: bs => do
    let split? ← liquidateIfDue links b price liquidator
    return Closing.tally b split? (← closeEach links price liquidator bs)

/-- The closings of `liquidateFrom`. -/
def closeFrom (links : Ledger.Links) (price : Nat) (liquidator : Address) :
    Nat → Option Address → Action (List Closing)
  | 0, _ => return []
  | _ + 1, none => return []
  | n + 1, some b => do
    let next? ← via links.list .list "get_next" (return (← world).list.next? b)
    let l := (← world).ledger
    let ratio ← l.ratio b price
    let total ← l.totalRatio price
    if Liquidation.threshold total ≤ ratio then
      return []
    let split? ← liquidateIfDue links b price liquidator
    return Closing.tally b split? (← closeFrom links price liquidator n next?)

/-- The closings of a liquidation request; there are none in any other. -/
def close (caller : Address) : Request → Action (List Closing)
  | .liquidateOne b => do
    let links ← ledgerLinks
    closeEach links (← priceFrom links.feed) caller [b]
  | .liquidateAll bs => do
    let links ← ledgerLinks
    closeEach links (← priceFrom links.feed) caller bs
  | .liquidateRiskiest most => do
    let links ← ledgerLinks
    let price ← priceFrom links.feed
    let first? ← via links.list .list "get_first" (return (← world).list.head?)
    closeFrom links price caller most first?
  | _ => return []

variable {links : Ledger.Links} {price : Nat} {liquidator caller : Address} {w : World}

/-- The closings come to the totals. -/
def Listed (t : Totals) (t' : Totals) (cs : List Closing) : Prop :=
  Closing.total cs t = .ok t'

theorem closeEach_follows {bs : List Address} {t : Totals} :
    (closeEach links price liquidator bs).Follows (liquidateEach links price liquidator bs t) w
      (Listed t) := by
  induction bs generalizing w t with
  | nil => exact follows_pure rfl
  | cons b bs ih =>
    refine follows_bind fun split? w' => follows_ofChecked_bind fun t₁ ht => ?_
    exact ih.bind_pure fun _ _ hr => Closing.total_tally ht hr

theorem closeFrom_follows {most : Nat} {place? : Option Address} {t : Totals} :
    (closeFrom links price liquidator most place?).Follows
      (liquidateFrom links price liquidator most place? t) w (Listed t) := by
  induction most generalizing w place? t with
  | zero => exact follows_pure rfl
  | succ n ih =>
    cases place? with
    | none => exact follows_pure rfl
    | some b =>
      refine follows_bind fun next? _ => follows_bind fun w' _ => follows_bind fun ratio _ =>
        follows_bind fun total _ => ?_
      by_cases hstop : Liquidation.threshold total ≤ ratio
      · simp only [if_pos hstop]
        exact follows_pure rfl
      · simp only [if_neg hstop]
        refine follows_bind fun split? _ => follows_ofChecked_bind fun t₁ ht => ?_
        exact ih.bind_pure fun _ _ hr => Closing.total_tally ht hr

theorem conclude_ok {t : Totals} {o : Outcome Totals} (h : conclude liquidator t w = .ok o) :
    o.world = w ∧ o.value = t := by
  have hc : (conclude liquidator t).Ensures w fun t' w' => w' = w ∧ t' = t :=
    ensures_conclude.2 fun _ => ⟨rfl, rfl⟩
  exact hc o h

/-- What a liquidation request answers adds up what it closes. -/
theorem close_follows {r : Request} (hr : r.isLiquidation) :
    (close caller r).Follows (r.perform caller) w fun reply cs =>
      ∃ t, reply = .totals t ∧ Listed {} t cs := by
  have hanswer {x : Action Totals} {y : Action (List Closing)} (h : y.Follows x w (Listed {})) :
      y.Follows (do return Reply.totals (← x)) w fun reply cs =>
        ∃ t, reply = .totals t ∧ Listed {} t cs :=
    h.after fun t cs w' o hS ho => by
      cases ho
      exact ⟨rfl, t, rfl, hS⟩
  have hconclude {x : Action Totals} {y : Action (List Closing)} {w : World}
      (h : y.Follows x w (Listed {})) :
      y.Follows (x >>= conclude caller) w (Listed {}) :=
    h.after fun t cs w' o hS ho => by
      obtain ⟨hw, hv⟩ := conclude_ok ho
      exact ⟨hw, hv ▸ hS⟩
  cases r with
  | liquidateOne b =>
    refine hanswer (follows_world_bind (follows_ofChecked_bind fun _ _ => ?_))
    exact follows_bind fun links _ => follows_bind fun price _ => hconclude closeEach_follows
  | liquidateAll bs =>
    refine hanswer ?_
    exact follows_bind fun links _ => follows_bind fun price _ => hconclude closeEach_follows
  | liquidateRiskiest most =>
    refine hanswer (follows_ofChecked_bind fun _ _ => ?_)
    exact follows_bind fun links _ => follows_bind fun price _ => follows_bind fun first? _ =>
      hconclude closeFrom_follows
  | _ => exact hr.elim

/-! ## What the liquidations do -/

/-- The liquidations of one call, one after the other, with what they close. -/
inductive Swept (price : Nat) (liquidator : Address) : World → List Closing → World → Prop where
  | done {w : World} : Swept price liquidator w [] w
  | next {w w₁ w' : World} {cs : List Closing} {borrower : Address} {entire : Entire}
      {s : Split} (due : Due w borrower price entire s)
      (out : Liquidated w borrower liquidator entire.pending s w₁)
      (rest : Swept price liquidator w₁ cs w') :
      Swept price liquidator w (⟨borrower, s⟩ :: cs) w'

/-- An attempt and then the rest. -/
theorem Attempted.swept {w₁ w' : World} {b : Address} {split? : Option Split}
    {cs : List Closing} (h : Attempted price liquidator w b split? w₁)
    (rest : Swept price liquidator w₁ cs w') :
    Swept price liquidator w (Closing.tally b split? cs) w' := by
  cases split? with
  | none =>
    cases h
    exact rest
  | some s =>
    obtain ⟨entire, hd, hl⟩ := h
    exact .next hd hl rest

theorem ensures_closeEach (h : w.Wired) {bs : List Address} :
    (closeEach .usual price liquidator bs).Ensures w (Swept price liquidator w) := by
  induction bs generalizing w with
  | nil => exact ensures_pure.2 .done
  | cons b bs ih =>
    simp only [closeEach, ensures_bind, ensures_pure]
    refine (ensures_liquidateIfDue h).mono fun split? w₁ hs => ?_
    exact (ih (hs.wired h)).mono fun cs w' hr => hs.swept hr

theorem ensures_closeFrom (h : w.Wired) {most : Nat} {place? : Option Address} :
    (closeFrom .usual price liquidator most place?).Ensures w (Swept price liquidator w) := by
  induction most generalizing w place? with
  | zero => exact ensures_pure.2 .done
  | succ n ih =>
    cases place? with
    | none => exact ensures_pure.2 .done
    | some b =>
      simp only [closeFrom, via_list, ensures_bind, ensures_world, ensures_pure, liftM_eq_ofChecked,
        ensures_ofChecked, ensures_ite]
      refine fun ratio _ total _ => ⟨fun _ => .done, fun _ => ?_⟩
      refine (ensures_liquidateIfDue h).mono fun split? w₁ hs => ?_
      exact (ih (hs.wired h)).mono fun cs w' hr => hs.swept hr

/-- A liquidation request sweeps at the price that the feed gives it. -/
theorem ensures_close (h : w.Wired) {r : Request} (hr : r.isLiquidation) :
    (close caller r).Ensures w fun cs w' =>
      ∃ d, w.feed.decideAt w.round? w.quote? w.time = .ok d ∧
        Swept (w.feed.follow d).lastGood caller { w with feed := w.feed.follow d } cs w' := by
  have hw (d : Price.Decision) : World.Wired { w with feed := w.feed.follow d } :=
    h.withFeed _
  have heach (bs : List Address) :
      (do
        let links ← ledgerLinks
        closeEach links (← priceFrom links.feed) caller bs : Action (List Closing)).Ensures w
        fun cs w' => ∃ d, w.feed.decideAt w.round? w.quote? w.time = .ok d ∧
          Swept (w.feed.follow d).lastGood caller { w with feed := w.feed.follow d } cs w' := by
    simp only [ensures_bind, ensures_ledgerLinks h.ledger]
    exact ensures_priceFrom.2 fun d hd => (ensures_closeEach (hw d)).mono fun _ _ hs => ⟨d, hd, hs⟩
  cases r with
  | liquidateOne b => exact heach [b]
  | liquidateAll bs => exact heach bs
  | liquidateRiskiest most =>
    simp only [close, ensures_bind, ensures_ledgerLinks h.ledger, via_list]
    refine ensures_priceFrom.2 fun d hd => ensures_world.2 (ensures_pure.2 ?_)
    exact (ensures_closeFrom (hw d)).mono fun _ _ hs => ⟨d, hd, hs⟩
  | _ => exact hr.elim

end Protocol

/-! ## Turns -/

namespace Turn

/-- The troves that a turn closes. -/
def closings (t : Turn) (w : World) : List Closing :=
  match t with
  | call caller request =>
    match request.perform caller w, Protocol.close caller request w with
    | .ok _, .ok o => o.value
    | _, _ => []
  | wait _ => []

variable {w : World} {caller : Address} {r : Request}

theorem closings_of_not_liquidation (hr : ¬ r.isLiquidation) : (call caller r).closings w = [] := by
  rw [closings]
  cases r with
  | liquidateOne => exact absurd trivial hr
  | liquidateAll => exact absurd trivial hr
  | liquidateRiskiest => exact absurd trivial hr
  | _ =>
    split
    · next ho => cases ho; rfl
    · rfl

/-- What a liquidation request closes is swept. -/
theorem swept_closings (hw : w.Wired) (hr : r.isLiquidation) {o : Outcome Reply}
    (h : r.perform caller w = .ok o) :
    ∃ d, w.feed.decideAt w.round? w.quote? w.time = .ok d ∧
      Protocol.Swept (w.feed.follow d).lastGood caller { w with feed := w.feed.follow d }
        ((call caller r).closings w) o.world := by
  obtain ⟨o', ho, hsame, -⟩ := Protocol.close_follows hr o h
  have hc : (call caller r).closings w = o'.value := by
    simp only [closings, h, ho]
  rw [hc, ← hsame]
  exact Protocol.ensures_close hw hr o' ho

end Turn

end Troves
