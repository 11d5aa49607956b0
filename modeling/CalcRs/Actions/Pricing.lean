import CalcRs.Actions.Overflow

/-! The price by which a linear scalar scales a swap. The output is quoted for the whole swap amount, but divided
into what the balance allows of it. -/
namespace CalcRs

namespace Scaling

/-- The price at the configured size. -/
def fullPrice (x : Scaling) : ℕ := x.swap*Decimal.fractional/x.expected

/-- The amount to swap at the factor of the price at the configured size. -/
def due (x : Scaling) : ℕ := min x.balance (max (x.scaledAt x.fullPrice) x.least)

/-- Every number on the way to the amount due fits. -/
structure DueFits (x : Scaling) : Prop where
  base : x.basePrice<2^128
  price : x.fullPrice<2^128
  positive : x.basePrice≠0
  delta : x.deltaAt x.fullPrice<2^128
  scaledDelta : x.scaledDeltaAt x.fullPrice<2^128
  scaled : x.scaledAt x.fullPrice<2^128

variable {x : Scaling} {price price' : ℕ}

theorem fractional_pos : 0<Decimal.fractional := by decide

theorem deltaAt_above (h : x.basePrice ≤ price) (hle : price ≤ price') : x.deltaAt price ≤ x.deltaAt price' := by
  apply Nat.div_le_div_right
  apply Nat.mul_le_mul_right
  omega

theorem deltaAt_below (h : price<x.basePrice) (hle : price' ≤ price) : x.deltaAt price ≤ x.deltaAt price' := by
  apply Nat.div_le_div_right
  apply Nat.mul_le_mul_right
  omega

/-- Below the base price the delta is at most one. -/
theorem deltaAt_le_one (h : price<x.basePrice) : x.deltaAt price ≤ Decimal.fractional := by
  apply Nat.div_le_of_le_mul
  apply Nat.mul_le_mul_right
  omega

theorem scaledDeltaAt_mono (h : x.deltaAt price ≤ x.deltaAt price') : x.scaledDeltaAt price ≤ x.scaledDeltaAt price' :=
  Nat.div_le_div_right (Nat.mul_le_mul_right _ h)

theorem one_le_factorAt (h : price<x.basePrice) : Decimal.fractional ≤ x.factorAt price := by
  have hbound : Decimal.fractional ≤ 2^128-1 := by decide
  rw [factorAt,if_pos h]
  exact le_min (Nat.le_add_right _ _) hbound

/-- A lower price scales by no less, on both sides of the base price and across it. -/
theorem factorAt_antitone (h : price ≤ price') : x.factorAt price' ≤ x.factorAt price := by
  by_cases hbelow : price'<x.basePrice
  · have hdelta := scaledDeltaAt_mono (deltaAt_below hbelow h)
    rw [factorAt,factorAt,if_pos hbelow,if_pos (h.trans_lt hbelow)]
    exact min_le_min_right _ (Nat.add_le_add_left hdelta _)
  have hle : x.factorAt price' ≤ Decimal.fractional := by
    rw [factorAt,if_neg hbelow]
    exact Nat.sub_le _ _
  by_cases hlow : price<x.basePrice
  · exact hle.trans (one_le_factorAt hlow)
  · have hdelta := scaledDeltaAt_mono (deltaAt_above (not_lt.mp hlow) h)
    rw [factorAt,factorAt,if_neg hbelow,if_neg hlow]
    exact Nat.sub_le_sub_left hdelta _

theorem scaledAt_antitone (h : price ≤ price') : x.scaledAt price' ≤ x.scaledAt price :=
  Nat.div_le_div_right (Nat.mul_le_mul_left _ (factorAt_antitone h))

/-- More that is expected leaves no less, after the minimum and the balance as well. -/
theorem amount_mono {e e' : ℕ} (h0 : 0<e) (h : e ≤ e') :
    { x with expected := e }.amount ≤ { x with expected := e' }.amount := by
  have hprice : { x with expected := e' }.currentPrice ≤ { x with expected := e }.currentPrice := Nat.div_le_div_left h h0
  have hscaled : { x with expected := e }.scaled ≤ { x with expected := e' }.scaled := @scaledAt_antitone x _ _ hprice
  exact min_le_min_left _ (max_le_max_right _ hscaled)

theorem currentPrice_le (x : Scaling) : x.currentPrice ≤ x.fullPrice :=
  Nat.div_le_div_right (Nat.mul_le_mul_right _ (Nat.min_le_right _ _))

theorem currentPrice_eq (h : x.swap ≤ x.balance) : x.currentPrice=x.fullPrice := by
  rw [currentPrice,spendable,Nat.min_eq_right h,fullPrice]

/-- Scaling keeps at least the whole amount exactly when the factor is at least one. -/
theorem le_scaledAt_iff (h : x.spendable≠0) : x.spendable ≤ x.scaledAt price ↔ Decimal.fractional ≤ x.factorAt price := by
  rw [scaledAt,Nat.le_div_iff_mul_le fractional_pos]
  exact Nat.mul_le_mul_left_iff (Nat.pos_of_ne_zero h)

/-- When two scaled amounts give the same after the minimum and the balance. -/
theorem clamp_eq_iff {b l s s' : ℕ} (h : s ≤ s') :
    min b (max s' l)=min b (max s l) ↔ b ≤ l ∨ b ≤ s ∨ s' ≤ l ∨ s'=s := by
  constructor
  · intro he
    omega
  · rintro (h | h | h | h) <;> omega

/-- The balance covers the swap amount; or it is below the minimum swap amount; or the price at the configured size
leaves it unscaled; or the price that is used scales it to no more than the minimum, or to the same amount. The
minimum receive amount can be scaled to what is due, unless that is nothing. -/
def PricedRight (x : Scaling) (full : ℕ) : Prop :=
  (x.swap ≤ x.balance ∨ x.scaledAt x.currentPrice<2^128 ∧
    (x.balance ≤ x.least ∨ Decimal.fractional ≤ x.factorAt x.fullPrice ∨ x.scaledAt x.currentPrice ≤ x.least ∨
      x.scaledAt x.currentPrice=x.scaledAt x.fullPrice)) ∧
  (x.due≠0 → x.ratioOf x.due<2^128 ∧ x.minimumFor x.due full<2^128)

instance (x : Scaling) (full : ℕ) : Decidable (x.PricedRight full) := by
  unfold PricedRight
  infer_instance

theorem amount_eq_due_iff (hb : x.balance≠0) (hs : x.swap≠0) : x.amount=x.due ↔ x.swap ≤ x.balance ∨
    (x.balance ≤ x.least ∨ Decimal.fractional ≤ x.factorAt x.fullPrice ∨ x.scaledAt x.currentPrice ≤ x.least ∨
      x.scaledAt x.currentPrice=x.scaledAt x.fullPrice) := by
  by_cases hcover : x.swap ≤ x.balance
  · have hamount : x.amount=x.due := by
      rw [due,← currentPrice_eq hcover]
      rfl
    exact iff_of_true hamount (.inl hcover)
  · have hspend : x.spendable=x.balance := Nat.min_eq_left (not_le.mp hcover).le
    have hless : x.scaledAt x.fullPrice ≤ x.scaledAt x.currentPrice := scaledAt_antitone x.currentPrice_le
    rw [← le_scaledAt_iff (by omega),hspend,or_iff_right hcover]
    exact clamp_eq_iff hless

/-- The code's own numbers fit where those of the amount due do, and what is scaled to it. -/
theorem DueFits.fits {full : ℕ} (h : x.DueFits) (hscalar : x.scalar<2^128) (hscaled : x.scaledAt x.currentPrice<2^128)
    (hdue : x.amount=x.due) (hminimum : x.due≠0 → x.ratioOf x.due<2^128 ∧ x.minimumFor x.due full<2^128) :
    x.Fits full := by
  have hcurrent := x.currentPrice_le.trans_lt h.price
  have hdelta : x.deltaAt x.currentPrice<2^128 ∧ x.scaledDeltaAt x.currentPrice<2^128 := by
    by_cases hbelow : x.currentPrice<x.basePrice
    · have hone := deltaAt_le_one hbelow
      rw [scaledDeltaAt,Nat.mul_comm]
      exact ⟨hone.trans_lt (by decide),(Decimal.scale_le _ hone).trans_lt hscalar⟩
    · have hle := deltaAt_above (not_lt.mp hbelow) x.currentPrice_le
      exact ⟨hle.trans_lt h.delta,(scaledDeltaAt_mono hle).trans_lt h.scaledDelta⟩
  refine ⟨h.base,hcurrent,h.positive,hdelta.1,hdelta.2,hscaled,?_,?_⟩
  · rw [Scaling.ratio,hdue]
    exact fun h0 => (hminimum h0).1
  · rw [Scaling.minimum,hdue]
    exact fun h0 => (hminimum h0).2

end Scaling

namespace Swap

section Adjusts

variable [Crates] {self : Swap} {deps : Deps} {env : Env} {route : SwapRoute} {coin : Coin} {base : Coin}
  {least : Option Coin} {scalar : Decimal} {expected : ℕ}

theorem adjust_nothing (hb : deps.queryBalance env.contract self.swapAmount.denom=.ok coin)
    (hpos : min coin.amount self.swapAmount.amount=0) :
    (self.quoteFor env route).adjust deps env=genericErr "Available swap amount is zero" := by
  rw [SwapQuote.adjust,quoteFor]
  simp only [hb,query_ok,Except.ok_bind,if_pos hpos]

/-- What `adjust` does when every number fits. -/
theorem adjust_of_fits (hb : deps.queryBalance env.contract self.swapAmount.denom=.ok coin)
    (hpos : min coin.amount self.swapAmount.amount≠0) (hadj : self.adjustment=.linearScalar base least scalar)
    (hbase : base.amount≠0) (he : route.getExpectedAmountOut deps (self.quoteFor env route)=.ok expected)
    (he0 : expected≠0)
    (h : (self.scaling coin.amount expected base least scalar).Fits self.minimumReceiveAmount.amount) :
    (self.quoteFor env route).adjust deps env=
      if (self.scaling coin.amount expected base least scalar).amount=0 then
        genericErr "Swap amount after adjustment is zero"
      else .ok (self.adjustedTo env route (self.scaling coin.amount expected base least scalar).amount
        ((self.scaling coin.amount expected base least scalar).minimum self.minimumReceiveAmount.amount)) := by
  have hswap : self.swapAmount.amount≠0 := by omega
  rw [adjust_linear hb hpos hadj,he,Except.ok_bind,if_neg he0,← scaling]
  have hzero : (self.scaling coin.amount expected base least scalar).base≠0 := hbase
  have hexpected : (self.scaling coin.amount expected base least scalar).expected≠0 := he0
  have hswap : (self.scaling coin.amount expected base least scalar).swap≠0 := hswap
  have hscalar : scalar.atomics=(self.scaling coin.amount expected base least scalar).scalar := rfl
  generalize self.scaling coin.amount expected base least scalar=x at h hzero hexpected hswap hscalar ⊢
  have hbasePrice : Decimal.fromRatio x.swap x.base=.ok ⟨x.basePrice⟩ := Decimal.fromRatio_eq_ok.mpr ⟨hzero,h.base,rfl⟩
  have hcurrent : Decimal.fromRatio x.spendable x.expected=.ok ⟨x.currentPrice⟩ :=
    Decimal.fromRatio_eq_ok.mpr ⟨hexpected,h.current,rfl⟩
  have hdelta : (Decimal.absDiff ⟨x.basePrice⟩ ⟨x.currentPrice⟩).div ⟨x.basePrice⟩=.ok ⟨x.priceDelta⟩ :=
    Decimal.fromRatio_eq_ok.mpr ⟨h.positive,h.delta,rfl⟩
  have hscaled : (Decimal.mk x.priceDelta).mul scalar=.ok ⟨x.scaledDelta⟩ := by
    rw [Decimal.mul,hscalar]
    exact Except.map_eq_ok.mpr ⟨_,fits_of_lt h.scaledDelta,rfl⟩
  dsimp only
  rw [hbasePrice,Except.ok_bind,hcurrent,Except.ok_bind,hdelta,Except.ok_bind,hscaled,Except.ok_bind]
  rw [x.mulFloor_factor,fits_of_lt h.scaled,Except.ok_bind]
  change (if x.amount=0 then _ else _)=_
  split_ifs with hleft
  · rfl
  · have hratio : Decimal.fromRatio x.amount x.swap=.ok ⟨x.ratio⟩ :=
      Decimal.fromRatio_eq_ok.mpr ⟨hswap,h.ratio hleft,rfl⟩
    have hminimum : Uint128.mulCeil self.minimumReceiveAmount.amount ⟨x.ratio⟩=.ok (x.minimum self.minimumReceiveAmount.amount) :=
      fits_of_lt (h.minimum hleft)
    change (Decimal.fromRatio x.amount x.swap >>= _)=_
    rw [hratio,Except.ok_bind,hminimum]
    rfl

/-- The amount due is what `adjust` leaves, and only if it is zero does `adjust` say so. -/
def AdjustsTo (self : Swap) (deps : Deps) (env : Env) (route : SwapRoute) (due : ℕ) : Prop :=
  (due=0 → (self.quoteFor env route).adjust deps env=genericErr "Swap amount after adjustment is zero") ∧
  (due≠0 → ∃ minimum, (self.quoteFor env route).adjust deps env=.ok (self.adjustedTo env route due minimum))

theorem AdjustsTo.settles {due : ℕ} (h : self.AdjustsTo deps env route due) :
    Fault.Settles ((self.quoteFor env route).adjust deps env) := by
  by_cases hdue : due=0
  · rw [h.1 hdue]
    exact settles_genericErr _
  · obtain ⟨minimum,hok⟩ := h.2 hdue
    rw [hok]
    exact Fault.settles_ok _

theorem fits_of_settles (hb : deps.queryBalance env.contract self.swapAmount.denom=.ok coin)
    (hpos : min coin.amount self.swapAmount.amount≠0) (hadj : self.adjustment=.linearScalar base least scalar)
    (hbase : base.amount≠0) (he : route.getExpectedAmountOut deps (self.quoteFor env route)=.ok expected)
    (he0 : expected≠0) (h : Fault.Settles ((self.quoteFor env route).adjust deps env)) :
    (self.scaling coin.amount expected base least scalar).Fits self.minimumReceiveAmount.amount := by
  have hbind : Fault.Settles ((self.quoteFor env route).adjust deps env >>= pure) := by
    rw [bind_pure]
    exact h
  exact ((settles_adjust_linear hb hpos hadj hbase (settles_getExpectedAmountOut _)).mp hbind expected he he0).1

/-- A linear scalar without a base receive amount has no base price. -/
theorem base_of_settles (hb : deps.queryBalance env.contract self.swapAmount.denom=.ok coin)
    (hpos : min coin.amount self.swapAmount.amount≠0) (hadj : self.adjustment=.linearScalar base least scalar)
    (he : route.getExpectedAmountOut deps (self.quoteFor env route)=.ok expected) (he0 : expected≠0)
    (h : Fault.Settles ((self.quoteFor env route).adjust deps env)) : base.amount≠0 := by
  rw [adjust_linear hb hpos hadj,he,Except.ok_bind,if_neg he0] at h
  exact (settles_fromRatio_bind.mp h).1.1

theorem adjustsTo_amount (hb : deps.queryBalance env.contract self.swapAmount.denom=.ok coin)
    (hpos : min coin.amount self.swapAmount.amount≠0) (hadj : self.adjustment=.linearScalar base least scalar)
    (he : route.getExpectedAmountOut deps (self.quoteFor env route)=.ok expected) (he0 : expected≠0)
    (h : Fault.Settles ((self.quoteFor env route).adjust deps env)) :
    self.AdjustsTo deps env route (self.scaling coin.amount expected base least scalar).amount := by
  have hbase := base_of_settles hb hpos hadj he he0 h
  rw [AdjustsTo,adjust_of_fits hb hpos hadj hbase he he0 (fits_of_settles hb hpos hadj hbase he he0 h)]
  exact ⟨fun h0 => if_pos h0,fun h0 => ⟨_,if_neg h0⟩⟩

/-- A linear scalar scales by the price at the configured size exactly when the price that it uses makes no
difference. -/
theorem adjust_scales_iff (hb : deps.queryBalance env.contract self.swapAmount.denom=.ok coin) (hcoin : coin.amount≠0)
    (hswap : self.swapAmount.amount≠0) (hadj : self.adjustment=.linearScalar base least scalar) (hbase : base.amount≠0)
    (hscalar : scalar.atomics<2^128) (he : route.getExpectedAmountOut deps (self.quoteFor env route)=.ok expected)
    (he0 : expected≠0)
    (hfits : (self.scaling coin.amount expected base least scalar).DueFits) :
    self.AdjustsTo deps env route (self.scaling coin.amount expected base least scalar).due ↔
      (self.scaling coin.amount expected base least scalar).PricedRight self.minimumReceiveAmount.amount := by
  have hpos : min coin.amount self.swapAmount.amount≠0 := by omega
  have hadjust := adjust_of_fits hb hpos hadj hbase he he0
  have heq := Scaling.amount_eq_due_iff (x := self.scaling coin.amount expected base least scalar) hcoin hswap
  constructor
  · intro h
    have hcode := fits_of_settles hb hpos hadj hbase he he0 h.settles
    rw [AdjustsTo,hadjust hcode] at h
    have hsame : (self.scaling coin.amount expected base least scalar).amount=
        (self.scaling coin.amount expected base least scalar).due := by
      generalize (self.scaling coin.amount expected base least scalar).amount=amount at h ⊢
      generalize (self.scaling coin.amount expected base least scalar).due=due at h ⊢
      by_cases hdue : due=0
      · have hzero := h.1 hdue
        split_ifs at hzero with hamount
        · rw [hamount,hdue]
        · cases hzero
      · obtain ⟨minimum,hok⟩ := h.2 hdue
        split_ifs at hok
        · cases hok
        · exact congrArg (fun q => q.swapAmount.amount) (Except.ok.inj hok)
    refine ⟨or_and_left.mpr ⟨.inr hcode.scaled,heq.mp hsame⟩,fun h0 => ?_⟩
    rw [← hsame] at h0 ⊢
    exact ⟨hcode.ratio h0,hcode.minimum h0⟩
  · rintro ⟨h,hminimum⟩
    have hdue := heq.mpr (h.imp_right And.right)
    have hscaled : (self.scaling coin.amount expected base least scalar).scaledAt
        (self.scaling coin.amount expected base least scalar).currentPrice<2^128 := by
      rcases h with h | h
      · rw [Scaling.currentPrice_eq h]
        exact hfits.scaled
      · exact h.1
    rw [AdjustsTo,hadjust (hfits.fits hscalar hscaled hdue hminimum),hdue]
    exact ⟨fun h0 => if_pos h0,fun h0 => ⟨_,if_neg h0⟩⟩

/-- A market that returns more never makes a linear scalar swap less. -/
theorem adjust_mono {better : Deps} {more : ℕ} (hadj : self.adjustment=.linearScalar base least scalar)
    (hb : deps.queryBalance env.contract self.swapAmount.denom=.ok coin)
    (hb' : better.queryBalance env.contract self.swapAmount.denom=.ok coin)
    (he : route.getExpectedAmountOut deps (self.quoteFor env route)=.ok expected)
    (he' : route.getExpectedAmountOut better (self.quoteFor env route)=.ok more)
    (he0 : 0<expected) (hmore : expected ≤ more) (h : Fault.Settles ((self.quoteFor env route).adjust deps env))
    (h' : Fault.Settles ((self.quoteFor env route).adjust better env)) :
    (min coin.amount self.swapAmount.amount=0 → ∀ market, market=deps ∨ market=better →
      (self.quoteFor env route).adjust market env=genericErr "Available swap amount is zero") ∧
    (min coin.amount self.swapAmount.amount≠0 → ∃ amount amount', self.AdjustsTo deps env route amount ∧
      self.AdjustsTo better env route amount' ∧ amount ≤ amount') := by
  refine ⟨?_,fun hpos => ?_⟩
  · rintro hpos _ (rfl | rfl)
    · exact adjust_nothing hb hpos
    · exact adjust_nothing hb' hpos
  · have hless := adjustsTo_amount hb hpos hadj he he0.ne' h
    have hgreater := adjustsTo_amount hb' hpos hadj he' (he0.trans_le hmore).ne' h'
    exact ⟨_,_,hless,hgreater,Scaling.amount_mono (x := self.scaling coin.amount 0 base least scalar) he0 hmore⟩

end Adjusts

section

attribute [local instance] Crates.plain

/-- Sell 1000 at a price of two, and half as much at three. -/
def sellingAtTwo : Swap := ⟨⟨1000,"rune"⟩,⟨1,"usd"⟩,300,.linearScalar ⟨500,"usd"⟩ none .one,[.fin ⟨"pair"⟩]⟩

/-- At a price of three only half of the balance is due, but all of it is swapped. -/
theorem short_balance_not_scaled : (sellingAtTwo.scaling 400 334 ⟨500,"usd"⟩ none .one).due=201 ∧
    (sellingAtTwo.quoteFor ⟨⟨1,⟨1⟩⟩,"strategy"⟩ (.fin ⟨"pair"⟩)).adjust (pairs 400 fun _ => 334) ⟨⟨1,⟨1⟩⟩,"strategy"⟩=
      .ok (sellingAtTwo.adjustedTo ⟨⟨1,⟨1⟩⟩,"strategy"⟩ (.fin ⟨"pair"⟩) 400 1) ∧
    ¬sellingAtTwo.AdjustsTo (pairs 400 fun _ => 334) ⟨⟨1,⟨1⟩⟩,"strategy"⟩ (.fin ⟨"pair"⟩)
      (sellingAtTwo.scaling 400 334 ⟨500,"usd"⟩ none .one).due := by
  have hdue : (sellingAtTwo.scaling 400 334 ⟨500,"usd"⟩ none .one).due=201 := by decide +kernel
  have hadjust : (sellingAtTwo.quoteFor ⟨⟨1,⟨1⟩⟩,"strategy"⟩ (.fin ⟨"pair"⟩)).adjust (pairs 400 fun _ => 334)
      ⟨⟨1,⟨1⟩⟩,"strategy"⟩=.ok (sellingAtTwo.adjustedTo ⟨⟨1,⟨1⟩⟩,"strategy"⟩ (.fin ⟨"pair"⟩) 400 1) := by decide +kernel
  refine ⟨hdue,hadjust,fun h => ?_⟩
  obtain ⟨minimum,hok⟩ := h.2 (by rw [hdue]; decide)
  rw [hadjust,hdue] at hok
  have hsame : 400=201 := congrArg (fun q => q.swapAmount.amount) (Except.ok.inj hok)
  exact absurd hsame (by decide)

theorem adjust_scales_iff_covered : sellingAtTwo.AdjustsTo (pairs 1000 fun _ => 334) ⟨⟨1,⟨1⟩⟩,"strategy"⟩ (.fin ⟨"pair"⟩)
    (sellingAtTwo.scaling 1000 334 ⟨500,"usd"⟩ none .one).due := by
  have hb : (pairs 1000 fun _ => 334).queryBalance "strategy" "rune"=.ok ⟨1000,"rune"⟩ := rfl
  have he : (SwapRoute.fin ⟨"pair"⟩).getExpectedAmountOut (pairs 1000 fun _ => 334)
      (sellingAtTwo.quoteFor ⟨⟨1,⟨1⟩⟩,"strategy"⟩ (.fin ⟨"pair"⟩))=.ok 334 := rfl
  have hfits : (sellingAtTwo.scaling 1000 334 ⟨500,"usd"⟩ none .one).DueFits := {
    base := by decide +kernel
    price := by decide +kernel
    positive := by decide +kernel
    delta := by decide +kernel
    scaledDelta := by decide +kernel
    scaled := by decide +kernel }
  have hright : (sellingAtTwo.scaling 1000 334 ⟨500,"usd"⟩ none .one).PricedRight 1 := by decide +kernel
  have hscalar : Decimal.one.atomics<2^128 := by decide
  have hiff := @adjust_scales_iff _ sellingAtTwo _ _ _ ⟨1000,"rune"⟩ ⟨500,"usd"⟩ none .one 334 hb (by decide) (by decide)
    rfl (by decide) hscalar he (by decide) hfits
  exact hiff.mpr hright

/-- From above the base price, where less is sold, to below it, where the balance is the limit. -/
theorem adjust_mono_across :
    (sellingAtTwo.quoteFor ⟨⟨1,⟨1⟩⟩,"strategy"⟩ (.fin ⟨"pair"⟩)).adjust (pairs 1100 fun _ => 400) ⟨⟨1,⟨1⟩⟩,"strategy"⟩=
      .ok (sellingAtTwo.adjustedTo ⟨⟨1,⟨1⟩⟩,"strategy"⟩ (.fin ⟨"pair"⟩) 750 1) ∧
    (sellingAtTwo.quoteFor ⟨⟨1,⟨1⟩⟩,"strategy"⟩ (.fin ⟨"pair"⟩)).adjust (pairs 1100 fun _ => 600) ⟨⟨1,⟨1⟩⟩,"strategy"⟩=
      .ok (sellingAtTwo.adjustedTo ⟨⟨1,⟨1⟩⟩,"strategy"⟩ (.fin ⟨"pair"⟩) 1100 2) ∧
    ∃ amount amount',
      sellingAtTwo.AdjustsTo (pairs 1100 fun _ => 400) ⟨⟨1,⟨1⟩⟩,"strategy"⟩ (.fin ⟨"pair"⟩) amount ∧
      sellingAtTwo.AdjustsTo (pairs 1100 fun _ => 600) ⟨⟨1,⟨1⟩⟩,"strategy"⟩ (.fin ⟨"pair"⟩) amount' ∧
      amount ≤ amount' := by
  have hb : ∀ returned, (pairs 1100 returned).queryBalance "strategy" "rune"=.ok ⟨1100,"rune"⟩ := fun _ => rfl
  have he : ∀ returned, (SwapRoute.fin ⟨"pair"⟩).getExpectedAmountOut (pairs 1100 returned)
      (sellingAtTwo.quoteFor ⟨⟨1,⟨1⟩⟩,"strategy"⟩ (.fin ⟨"pair"⟩))=.ok (returned "pair") := fun _ => rfl
  have hless : (sellingAtTwo.quoteFor ⟨⟨1,⟨1⟩⟩,"strategy"⟩ (.fin ⟨"pair"⟩)).adjust (pairs 1100 fun _ => 400)
      ⟨⟨1,⟨1⟩⟩,"strategy"⟩=.ok (sellingAtTwo.adjustedTo ⟨⟨1,⟨1⟩⟩,"strategy"⟩ (.fin ⟨"pair"⟩) 750 1) := by decide +kernel
  have hmore : (sellingAtTwo.quoteFor ⟨⟨1,⟨1⟩⟩,"strategy"⟩ (.fin ⟨"pair"⟩)).adjust (pairs 1100 fun _ => 600)
      ⟨⟨1,⟨1⟩⟩,"strategy"⟩=.ok (sellingAtTwo.adjustedTo ⟨⟨1,⟨1⟩⟩,"strategy"⟩ (.fin ⟨"pair"⟩) 1100 2) := by decide +kernel
  have h := @adjust_mono _ sellingAtTwo (pairs 1100 fun _ => 400) ⟨⟨1,⟨1⟩⟩,"strategy"⟩ (.fin ⟨"pair"⟩) ⟨1100,"rune"⟩
    ⟨500,"usd"⟩ none .one 400 (pairs 1100 fun _ => 600) 600 rfl (hb _) (hb _) (he _) (he _) (by decide) (by decide)
    (hless ▸ Fault.settles_ok _) (hmore ▸ Fault.settles_ok _)
  exact ⟨hless,hmore,h.2 (by decide)⟩

end

end Swap
end CalcRs
