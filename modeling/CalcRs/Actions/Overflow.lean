import CalcRs.Actions.Quotes

/-! Which amounts, prices and answers let the best quote be computed: everywhere else the contract panics, and
with it the whole call. -/
namespace CalcRs
open Fault (Settles settles_bind)

/-! ### Slippage and inverse prices -/

/-- The slippage can be computed if the expected amount fits and is no quotient by zero. -/
theorem settles_slippage {α : Type} {amount out bps : ℕ} {rate : Decimal} {error : ℕ → String} {a : α} :
    Settles (do let optimal ← Uint128.mulFloor amount rate
                let ratio ← Decimal.fromRatio out (max out optimal)
                let loss ← Fault.unwrapOr (Decimal.one.checkedSub ratio) Decimal.one
                let slippageBps ← Uint128.mulCeil 10000 loss
                if bps < slippageBps then genericErr (error slippageBps) else pure a) ↔
      amount*rate.atomics/Decimal.fractional<2^128 ∧ max out (amount*rate.atomics/Decimal.fractional)≠0 := by
  rw [settles_bind,settles_mulFloor]
  refine and_congr_right fun hfits => ?_
  have hoptimal : Uint128.mulFloor amount rate=.ok (amount*rate.atomics/Decimal.fractional) := fits_of_lt hfits
  simp only [hoptimal,Except.ok.injEq,forall_eq']
  generalize amount*rate.atomics/Decimal.fractional=optimal
  rw [settles_bind,settles_fromRatio]
  have hone : out*Decimal.fractional/max out optimal ≤ Decimal.fractional := Decimal.ratio_le_one (Nat.le_max_left _ _)
  constructor
  · exact fun h => h.1.1
  · intro h0
    refine ⟨⟨h0,hone.trans_lt (by decide)⟩,fun ratio hratio => ?_⟩
    obtain ⟨_,_,rfl⟩ := Decimal.fromRatio_eq_ok.mp hratio
    have hloss : Fault.unwrapOr (Decimal.one.checkedSub ⟨out*Decimal.fractional/max out optimal⟩) Decimal.one=
        .ok ⟨Decimal.fractional-out*Decimal.fractional/max out optimal⟩ := by
      rw [Decimal.checkedSub,if_pos (show _ ≤ Decimal.one.atomics from hone)]
      rfl
    rw [hloss,Except.ok_bind,settles_bind,settles_mulCeil]
    refine ⟨?_,fun slippageBps _ => ?_⟩
    · exact (Decimal.scaleCeil_le 10000 (Nat.sub_le _ _)).trans_lt (by decide)
    · split_ifs
      · exact settles_genericErr _
      · exact Fault.settles_pure _

theorem inverse_fits (n : ℕ) : Decimal.fractional*Decimal.fractional/n<2^128 :=
  (Nat.div_le_self _ _).trans_lt (by decide)

theorem settles_inverse {α : Type} {x : Decimal} {f : Decimal → Outcome α} : Settles (Decimal.one.div x >>= f) ↔
    x.atomics≠0 ∧ Settles (f ⟨Decimal.fractional*Decimal.fractional/x.atomics⟩) := by
  rw [Decimal.div,settles_fromRatio_bind]
  exact and_congr_left fun _ => and_iff_left (inverse_fits _)

/-! ### The order book -/

namespace BookScan

/-- What the order is worth in the other denom fits, and so does the number of orders when the order is added. An
order that is not looked at may have any worth. -/
def OrderFits (side : Side) (order : BookItemResponse) (s : BookScan) : Prop :=
  order.price.atomics=0 ∨ match side with
    | .base =>
      let value := order.total*order.price.atomics/Decimal.fractional
      value<2^128 ∧ (s.quoteValue+value<2^128 → s.baseDepth+order.total<2^128 → s.orders+1<2^8)
    | .quote =>
      let depth := (order.total*Decimal.fractional+(order.price.atomics-1))/order.price.atomics
      s.quoteValue+order.total<2^128 → depth<2^128 ∧ (s.baseDepth+depth<2^128 → s.orders+1<2^8)

/-- The scan is deep enough to stop. -/
def Deep (s : BookScan) : Prop := MIN_ORDERS ≤ s.orders ∧ MIN_VALUE ≤ s.quoteValue

/-- Every order fits that is read before the scan is deep enough. -/
def PageFits (side : Side) : List BookItemResponse → BookScan → Prop
  | [],_ => True
  | order :: rest,s => s.OrderFits side order ∧ ∀ s', s.addOrder side order=.ok s' → ¬s'.Deep → PageFits side rest s'

/-- The side of a page. -/
def sideOf (response : BookResponse) : Side → List BookItemResponse
  | .base => response.base
  | .quote => response.quote

/-- Every page fits that is read before the scan is deep enough. -/
def PagesFit (deps : Deps) (pair : Addr) (side : Side) : ℕ → BookScan → Prop
  | 0,_ => True
  | i+1,s => ¬s.Deep → ∀ response, deps.finBook pair LIMIT s.orders=.ok response →
    s.PageFits side (sideOf response side) ∧ ∀ s', s.addPage side (sideOf response side)=.ok s' →
      LIMIT ≤ (sideOf response side).length → PagesFit deps pair side i s'

variable {s : BookScan} {side : Side} {order : BookItemResponse} {deps : Deps} {pair : Addr}

theorem settles_addOrder : Settles (s.addOrder side order) ↔ s.OrderFits side order := by
  unfold addOrder OrderFits
  by_cases h0 : order.price.atomics=0
  · simp [h0]
  · rw [if_neg h0,or_iff_right h0]
    cases side with
    | base =>
      simp only [Uint128.mulFloor,U8.add,settles_fits_bind,settles_checkedAdd_bind]
      simp
    | quote =>
      simp only [Uint128.divCeil,if_neg h0,U8.add,settles_fits_bind,settles_checkedAdd_bind]
      simp

theorem settles_addPage (book : List BookItemResponse) (s : BookScan) :
    Settles (s.addPage side book) ↔ s.PageFits side book := by
  induction book generalizing s with
  | nil => simp [addPage,PageFits]
  | cons order rest ih =>
    rw [addPage,PageFits,settles_bind,settles_addOrder]
    refine and_congr_right fun _ => forall₂_congr fun s' _ => ?_
    by_cases hdeep : s'.Deep
    · simp [hdeep,if_pos (show MIN_ORDERS ≤ s'.orders ∧ MIN_VALUE ≤ s'.quoteValue from hdeep)]
    · rw [if_neg (show ¬(MIN_ORDERS ≤ s'.orders ∧ MIN_VALUE ≤ s'.quoteValue) from hdeep),ih]
      simp [hdeep]

theorem deep_iff : ¬(s.quoteValue<MIN_VALUE ∨ s.orders<MIN_ORDERS) ↔ s.Deep := by
  rw [Deep]
  omega

theorem addPages_succ (i : ℕ) (s : BookScan) : BookScan.addPages deps pair side (i+1) s=
    (if ¬(s.quoteValue<MIN_VALUE ∨ s.orders<MIN_ORDERS) then .ok s
    else query (deps.finBook pair LIMIT s.orders) >>= fun response =>
      if (sideOf response side).isEmpty then genericErr "Order book is too thin to avoid price manipulation"
      else s.addPage side (sideOf response side) >>= fun s' =>
        if (sideOf response side).length<LIMIT then .ok s' else BookScan.addPages deps pair side i s') := by
  cases side <;> rfl

theorem settles_addPages (i : ℕ) (s : BookScan) :
    Settles (BookScan.addPages deps pair side i s) ↔ s.PagesFit deps pair side i := by
  induction i generalizing s with
  | zero => simp [addPages,PagesFit]
  | succ i ih =>
    rw [addPages_succ,PagesFit]
    by_cases hdeep : s.Deep
    · rw [if_pos (deep_iff.mpr hdeep)]
      simp [hdeep]
    · rw [if_neg (mt deep_iff.mp hdeep),settles_bind]
      simp only [settles_query,true_and,hdeep,not_false_eq_true,forall_const,query_eq_ok]
      refine forall₂_congr fun response _ => ?_
      generalize sideOf response side=book
      cases book with
      | nil => simp [addPage,PageFits,LIMIT]
      | cons order rest =>
        rw [List.isEmpty_cons,if_neg (by simp),settles_bind,settles_addPage]
        refine and_congr_right fun _ => forall₂_congr fun s' _ => ?_
        by_cases hfull : (order :: rest).length<LIMIT
        · rw [if_pos hfull]
          exact iff_of_true (Fault.settles_ok _) fun hle => absurd hfull (not_lt.mpr hle)
        · rw [if_neg hfull,ih]
          exact (imp_iff_right (not_lt.mp hfull)).symm

end BookScan

section

variable [Crates] {deps : Deps} {env : Env} {pair : Addr}

/-- The orders that are read of a side fit, and so does their average price, also when it is truncated to a tick. -/
def SidePriceFits (deps : Deps) (pair : Addr) (side : Side) : Prop :=
  BookScan.PagesFit deps pair side MAX_ITERATIONS ⟨0,0,0⟩ ∧
    ∀ s, BookScan.addPages deps pair side MAX_ITERATIONS ⟨0,0,0⟩=.ok s → s.Deep → s.baseDepth≠0 →
      ∀ config, deps.finConfig pair=.ok config → s.quoteValue*Decimal.fractional/s.baseDepth<2^128 ∧
        tickTruncated side config.tick ⟨s.quoteValue*Decimal.fractional/s.baseDepth⟩≠none

theorem settles_getSidePrice (side : Side) : Settles (getSidePrice deps pair side) ↔ SidePriceFits deps pair side := by
  rw [getSidePrice,SidePriceFits,settles_bind,BookScan.settles_addPages]
  refine and_congr_right fun _ => forall₂_congr fun s _ => ?_
  by_cases hthin : s.orders<MIN_ORDERS ∨ s.quoteValue<MIN_VALUE ∨ s.baseDepth=0
  · rw [if_pos hthin]
    refine iff_of_true (settles_genericErr _) fun hdeep h0 => ?_
    rw [BookScan.Deep] at hdeep
    omega
  · rw [if_neg hthin,settles_bind]
    have hdeep : s.Deep := by
      rw [BookScan.Deep]
      omega
    have h0 : s.baseDepth≠0 := fun h => hthin (.inr (.inr h))
    simp only [settles_query,true_and,hdeep,ne_eq,h0,not_false_eq_true,forall_const,query_eq_ok]
    refine forall₂_congr fun config _ => ?_
    rw [settles_fromRatio_bind,Fault.settles_orPanic,and_assoc]
    exact and_iff_right h0

/-- Both sides of the book fit, and so does the sum of their prices. -/
def MidPriceFits (deps : Deps) (pair : Addr) : Prop := SidePriceFits deps pair .quote ∧
  ∀ quotePrice, getSidePrice deps pair .quote=.ok quotePrice → SidePriceFits deps pair .base ∧
    ∀ basePrice, getSidePrice deps pair .base=.ok basePrice → quotePrice.atomics+basePrice.atomics<2^128

theorem settles_getMidPrice : Settles (getMidPrice deps pair) ↔ MidPriceFits deps pair := by
  rw [getMidPrice,MidPriceFits,settles_bind,settles_getSidePrice]
  refine and_congr_right fun _ => forall₂_congr fun quotePrice _ => ?_
  rw [settles_bind,settles_getSidePrice]
  refine and_congr_right fun _ => forall₂_congr fun basePrice _ => ?_
  rw [settles_bind,settles_add]
  constructor
  · exact fun h => h.1
  · intro h
    refine ⟨h,fun sum hsum => ?_⟩
    obtain ⟨n,hn,rfl⟩ := Except.map_eq_ok.mp hsum
    obtain ⟨hfits,rfl⟩ := fits_eq_ok.mp hn
    have htwo : Decimal.fromRatio 2 1=.ok ⟨2*Decimal.fractional⟩ := rfl
    rw [htwo,Except.ok_bind,settles_div]
    refine ⟨by decide,?_⟩
    rw [Nat.mul_div_mul_right _ _ (by decide)]
    exact (Nat.div_le_self _ _).trans_lt hfits

/-! ### Routes -/

/-- The rate at which a pair is expected to return: the price inverted, and for the base denom once more. -/
def FinRoute.expectedRate (config : ConfigResponse) (denom : Denom) (midPrice : Decimal) : ℕ :=
  Decimal.fractional*Decimal.fractional/
    if denom=config.denoms.base then Decimal.fractional*Decimal.fractional/midPrice.atomics else midPrice.atomics

/-- The pair returns too little, or its book fits, its price can be inverted and the expected amount fits. What it
returns and what is expected are not both zero. -/
def FinRoute.Fits (route : FinRoute) (deps : Deps) (swapAmount : Coin) (minimum : ℕ) : Prop :=
  ∀ returned, deps.finSimulate route.pairAddress swapAmount=.ok returned → minimum ≤ returned →
    MidPriceFits deps route.pairAddress ∧ ∀ midPrice, getMidPrice deps route.pairAddress=.ok midPrice →
      ∀ config, deps.finConfig route.pairAddress=.ok config → midPrice.atomics≠0 ∧
      (swapAmount.denom=config.denoms.base → midPrice.atomics ≤ Decimal.fractional*Decimal.fractional) ∧
      swapAmount.amount*expectedRate config swapAmount.denom midPrice/Decimal.fractional<2^128 ∧
      max returned (swapAmount.amount*expectedRate config swapAmount.denom midPrice/Decimal.fractional)≠0

theorem FinRoute.settles_validateAdjusted {route : FinRoute} {quote : SwapQuote Adjusted}
    (hpos : quote.swapAmount.amount≠0) : Settles (route.validateAdjusted deps env quote) ↔
      route.Fits deps quote.swapAmount quote.minimumReceiveAmount.amount := by
  rw [validateAdjusted,if_neg hpos,FinRoute.Fits,settles_bind]
  simp only [settles_query,true_and,query_eq_ok]
  refine forall₂_congr fun returned _ => ?_
  by_cases hless : returned<quote.minimumReceiveAmount.amount
  · rw [if_pos hless]
    exact iff_of_true (settles_genericErr _) fun h => absurd hless (not_lt.mpr h)
  · rw [if_neg hless,settles_bind,settles_getMidPrice,imp_iff_right (not_lt.mp hless)]
    refine and_congr_right fun _ => forall₂_congr fun midPrice _ => ?_
    rw [settles_bind]
    simp only [settles_query,true_and,query_eq_ok]
    refine forall₂_congr fun config _ => ?_
    rw [expectedRate]
    by_cases hbase : quote.swapAmount.denom=config.denoms.base
    · rw [if_pos hbase,if_pos hbase,settles_inverse,settles_inverse,settles_slippage,imp_iff_right hbase]
      refine and_congr_right fun h0 => and_congr ?_ Iff.rfl
      rw [ne_eq,Nat.div_eq_zero_iff]
      have := Nat.pos_of_ne_zero h0
      omega
    · rw [if_neg hbase,if_neg hbase,Except.ok_bind,settles_inverse,settles_slippage]
      simp [hbase]

/-- A quote that THORChain would be paid for starts in a block that has a number. -/
def ThorchainRoute.Fits (deps : Deps) (env : Env) (quote : SwapQuote Adjusted) : Prop :=
  ∀ response, getThorchainSwapQuote deps quote=.ok response → response.feesSlippageBps.getD 0 ≤ quote.maximumSlippageBps →
    quote.minimumReceiveAmount.amount ≤ response.expectedAmountOut →
    response.recommendedMinAmountIn ≤ quote.swapAmount.amount → env.block.height+1<2^64

theorem settles_getThorchainSwapQuote {S : Type} (quote : SwapQuote S) : Settles (getThorchainSwapQuote deps quote) := by
  rw [getThorchainSwapQuote,settles_bind]
  refine ⟨?_,fun _ _ => settles_mapErr _⟩
  rw [SwapQuoteRequest.tryFrom]
  split
  · exact Fault.settles_ok _
  · exact settles_genericErr _

theorem ThorchainRoute.settles_validateAdjusted {route : ThorchainRoute} {quote : SwapQuote Adjusted}
    (hpos : quote.swapAmount.amount≠0) : Settles (route.validateAdjusted deps env quote) ↔
      ThorchainRoute.Fits deps env quote := by
  rw [validateAdjusted,if_neg hpos,ThorchainRoute.Fits,settles_bind]
  refine (and_iff_right (settles_getThorchainSwapQuote quote)).trans (forall₂_congr fun response _ => ?_)
  simp only
  by_cases hslip : quote.maximumSlippageBps < response.feesSlippageBps.getD 0
  · rw [if_pos hslip]
    exact iff_of_true (settles_genericErr _) fun h => absurd hslip (not_lt.mpr h)
  rw [if_neg hslip,imp_iff_right (not_lt.mp hslip)]
  by_cases hless : response.expectedAmountOut<quote.minimumReceiveAmount.amount
  · rw [if_pos hless]
    exact iff_of_true (settles_genericErr _) fun h => absurd hless (not_lt.mpr h)
  rw [if_neg hless,imp_iff_right (not_lt.mp hless)]
  by_cases hmin : quote.swapAmount.amount < response.recommendedMinAmountIn
  · rw [if_pos hmin]
    exact iff_of_true (settles_genericErr _) fun h => absurd hmin (not_lt.mpr h)
  rw [if_neg hmin,imp_iff_right (not_lt.mp hmin),settles_bind]
  exact (and_iff_left fun _ _ => Fault.settles_ok _).trans settles_fits

end

/-! ### Adjustments -/

/-- What a linear scalar computes with: the swap amount, the balance, the output expected for the swap amount, the
base receive amount, the minimum swap amount and the scalar. -/
structure Scaling where
  swap : ℕ
  balance : ℕ
  expected : ℕ
  base : ℕ
  least : ℕ
  scalar : ℕ

namespace Scaling

def spendable (x : Scaling) : ℕ := min x.balance x.swap
def basePrice (x : Scaling) : ℕ := x.swap*Decimal.fractional/x.base
def currentPrice (x : Scaling) : ℕ := x.spendable*Decimal.fractional/x.expected

/-- How far a price is from the base price, relative to it. -/
def deltaAt (x : Scaling) (price : ℕ) : ℕ :=
  ((x.basePrice-price)+(price-x.basePrice))*Decimal.fractional/x.basePrice

def scaledDeltaAt (x : Scaling) (price : ℕ) : ℕ := x.deltaAt price*x.scalar/Decimal.fractional

/-- The factor that a price gives. -/
def factorAt (x : Scaling) (price : ℕ) : ℕ :=
  if price<x.basePrice then min (Decimal.fractional+x.scaledDeltaAt price) (2^128-1)
  else Decimal.fractional-x.scaledDeltaAt price

def scaledAt (x : Scaling) (price : ℕ) : ℕ := x.spendable*x.factorAt price/Decimal.fractional

/-- The share of the swap amount that an amount is. -/
def ratioOf (x : Scaling) (amount : ℕ) : ℕ := amount*Decimal.fractional/x.swap

/-- The share of the minimum receive amount that goes with an amount. -/
def minimumFor (x : Scaling) (amount full : ℕ) : ℕ :=
  (full*x.ratioOf amount+(Decimal.fractional-1))/Decimal.fractional

def priceDelta (x : Scaling) : ℕ := x.deltaAt x.currentPrice
def scaledDelta (x : Scaling) : ℕ := x.scaledDeltaAt x.currentPrice
def factor (x : Scaling) : ℕ := x.factorAt x.currentPrice
def scaled (x : Scaling) : ℕ := x.scaledAt x.currentPrice
def amount (x : Scaling) : ℕ := min x.balance (max x.scaled x.least)
def ratio (x : Scaling) : ℕ := x.ratioOf x.amount
def minimum (x : Scaling) (full : ℕ) : ℕ := x.minimumFor x.amount full

/-- Every number on the way fits, and the base price is not rounded down to zero. -/
structure Fits (x : Scaling) (full : ℕ) : Prop where
  base : x.basePrice<2^128
  current : x.currentPrice<2^128
  positive : x.basePrice≠0
  delta : x.priceDelta<2^128
  scaledDelta : x.scaledDelta<2^128
  scaled : x.scaled<2^128
  ratio : x.amount≠0 → x.ratio<2^128
  minimum : x.amount≠0 → x.minimum full<2^128

theorem mulFloor_factor (x : Scaling) : (if Decimal.mk x.currentPrice<⟨x.basePrice⟩
    then Uint128.mulFloor x.spendable (Decimal.one.saturatingAdd ⟨x.scaledDelta⟩)
    else Uint128.mulFloor x.spendable (Decimal.one.saturatingSub ⟨x.scaledDelta⟩))=fits 128 x.scaled := by
  rw [scaled,scaledAt,factorAt]
  by_cases hless : x.currentPrice<x.basePrice
  · rw [if_pos hless,if_pos (show Decimal.mk x.currentPrice<⟨x.basePrice⟩ from hless)]
    rfl
  · rw [if_neg hless,if_neg (show ¬Decimal.mk x.currentPrice<⟨x.basePrice⟩ from hless)]
    rfl

end Scaling

namespace Swap

/-- The quote of a route that has been adjusted to these amounts. -/
def adjustedTo (self : Swap) (env : Env) (route : SwapRoute) (amount minimum : ℕ) : SwapQuote Adjusted where
  swapAmount := ⟨amount,self.swapAmount.denom⟩
  minimumReceiveAmount := ⟨minimum,self.minimumReceiveAmount.denom⟩
  maximumSlippageBps := self.maximumSlippageBps
  adjustment := self.adjustment
  route := route
  destination := env.contract
  state := ⟨⟩

theorem validate_base {self : Swap}
    {deps : Deps} {env : Env} (hv : self.validate deps env=.ok ()) (base : Coin) (least : Option Coin)
    (scalar : Decimal) (hadj : self.adjustment=.linearScalar base least scalar) : base.amount≠0 := by
  rw [validate] at hv
  simp only [genericErr,Except.ite_error_eq_ok] at hv
  obtain ⟨_,_,_,hv⟩ := hv
  obtain ⟨_,hv,_⟩ := Except.bind_eq_ok.mp hv
  rw [validateAdjustment,hadj] at hv
  simp only [genericErr,Except.ite_error_eq_ok] at hv
  exact hv.1

section

variable [Crates] {self : Swap} {deps : Deps} {env : Env} {route : SwapRoute} {coin : Coin}

theorem adjust_fixed (hb : deps.queryBalance env.contract self.swapAmount.denom=.ok coin)
    (hpos : min coin.amount self.swapAmount.amount≠0) (hadj : self.adjustment=.fixed)
    (hfull : self.minimumReceiveAmount.amount<2^128) : (self.quoteFor env route).adjust deps env=
      .ok (self.adjustedTo env route (min coin.amount self.swapAmount.amount) (self.minimumReceiveAmount.amount*
        (min coin.amount self.swapAmount.amount*Decimal.fractional/self.swapAmount.amount)/Decimal.fractional)) := by
  have hle : min coin.amount self.swapAmount.amount ≤ self.swapAmount.amount := Nat.min_le_right _ _
  rw [adjustedTo,SwapQuote.adjust]
  simp only [quoteFor,hb,query_ok,Except.ok_bind,if_neg hpos,hadj]
  generalize min coin.amount self.swapAmount.amount=amount at hpos hle ⊢
  have hratio : amount*Decimal.fractional/self.swapAmount.amount ≤ Decimal.fractional := Decimal.ratio_le_one hle
  rw [Decimal.fromRatio_eq_ok.mpr ⟨by omega,hratio.trans_lt (by decide),rfl⟩,Except.ok_bind,Uint128.mulFloor,
    fits_of_lt]
  · rfl
  · exact (Decimal.scale_le _ hratio).trans_lt hfull

theorem adjust_linear {base : Coin} {least : Option Coin} {scalar : Decimal}
    (hb : deps.queryBalance env.contract self.swapAmount.denom=.ok coin)
    (hpos : min coin.amount self.swapAmount.amount≠0) (hadj : self.adjustment=.linearScalar base least scalar) :
    (self.quoteFor env route).adjust deps env=
      route.getExpectedAmountOut deps (self.quoteFor env route) >>= fun expected =>
        if expected=0 then genericErr "Expected amount out is zero"
        else
          let x : Scaling := ⟨self.swapAmount.amount,coin.amount,expected,base.amount,least.elim 0 Coin.amount,scalar.atomics⟩
          Decimal.fromRatio x.swap x.base >>= fun basePrice => Decimal.fromRatio x.spendable x.expected >>= fun currentPrice =>
          (basePrice.absDiff currentPrice).div basePrice >>= fun priceDelta => priceDelta.mul scalar >>= fun scaledDelta =>
          (if currentPrice<basePrice then Uint128.mulFloor x.spendable (Decimal.one.saturatingAdd scaledDelta)
            else Uint128.mulFloor x.spendable (Decimal.one.saturatingSub scaledDelta)) >>= fun scaled =>
          if min x.balance (max scaled x.least)=0 then genericErr "Swap amount after adjustment is zero"
          else Decimal.fromRatio (min x.balance (max scaled x.least)) x.swap >>= fun ratio =>
            Uint128.mulCeil self.minimumReceiveAmount.amount ratio >>= fun minimum =>
            .ok (self.adjustedTo env route (min x.balance (max scaled x.least)) minimum) := by
  rw [SwapQuote.adjust]
  simp only [quoteFor,hb,query_ok,Except.ok_bind,if_neg hpos,hadj,adjustedTo,Except.ite_bind]
  rfl

/-- The answers that a linear scalar is computed with. -/
def scaling (self : Swap) (balance expected : ℕ) (base : Coin) (least : Option Coin) (scalar : Decimal) : Scaling :=
  ⟨self.swapAmount.amount,balance,expected,base.amount,least.elim 0 Coin.amount,scalar.atomics⟩

/-- A linear scalar settles if its numbers fit; what follows it counts if an amount is left. -/
theorem settles_adjust_linear {α : Type} {base : Coin} {least : Option Coin} {scalar : Decimal}
    {f : SwapQuote Adjusted → Outcome α} (hb : deps.queryBalance env.contract self.swapAmount.denom=.ok coin)
    (hpos : min coin.amount self.swapAmount.amount≠0) (hadj : self.adjustment=.linearScalar base least scalar)
    (hbase : base.amount≠0) (hout : Settles (route.getExpectedAmountOut deps (self.quoteFor env route))) :
    Settles ((self.quoteFor env route).adjust deps env >>= f) ↔
      ∀ expected, route.getExpectedAmountOut deps (self.quoteFor env route)=.ok expected → expected≠0 →
        (self.scaling coin.amount expected base least scalar).Fits self.minimumReceiveAmount.amount ∧
        ((self.scaling coin.amount expected base least scalar).amount≠0 →
          Settles (f (self.adjustedTo env route (self.scaling coin.amount expected base least scalar).amount
            ((self.scaling coin.amount expected base least scalar).minimum self.minimumReceiveAmount.amount)))) := by
  rw [adjust_linear hb hpos hadj,Except.bind_bind,settles_bind]
  refine (and_iff_right hout).trans (forall₂_congr fun expected _ => ?_)
  by_cases h0 : expected=0
  · rw [if_pos h0]
    exact iff_of_true (settles_genericErr _) fun h => absurd h0 h
  have hswap : self.swapAmount.amount≠0 := by omega
  rw [if_neg h0,imp_iff_right h0,← scaling]
  have hzero : (self.scaling coin.amount expected base least scalar).base≠0 := hbase
  have hexpected : (self.scaling coin.amount expected base least scalar).expected≠0 := h0
  have hswap : (self.scaling coin.amount expected base least scalar).swap≠0 := by
    change self.swapAmount.amount≠0
    omega
  have hscalar : scalar.atomics=(self.scaling coin.amount expected base least scalar).scalar := rfl
  generalize self.scaling coin.amount expected base least scalar=x at hzero hexpected hswap hscalar ⊢
  simp only [Except.bind_bind,Decimal.div,Decimal.mul,settles_fromRatio_bind,settles_decimal_bind,hscalar]
  -- every number of the chain under its name
  change (x.base≠0 ∧ x.basePrice<2^128) ∧ (x.expected≠0 ∧ x.currentPrice<2^128) ∧
    (x.basePrice≠0 ∧ x.priceDelta<2^128) ∧ x.scaledDelta<2^128 ∧
    Settles ((if Decimal.mk x.currentPrice<⟨x.basePrice⟩
      then Uint128.mulFloor x.spendable (Decimal.one.saturatingAdd ⟨x.scaledDelta⟩)
      else Uint128.mulFloor x.spendable (Decimal.one.saturatingSub ⟨x.scaledDelta⟩)) >>= fun _ => _) ↔ _
  rw [Scaling.mulFloor_factor,settles_fits_bind]
  change _ ∧ _ ∧ _ ∧ _ ∧ _ ∧ Settles ((if x.amount=0 then _ else _) >>= f) ↔ _
  by_cases hleft : x.amount=0
  · rw [if_pos hleft]
    have herror : Settles (genericErr "Swap amount after adjustment is zero" >>= f) := settles_genericErr _
    constructor
    · rintro ⟨⟨_,h1⟩,⟨_,h2⟩,⟨h3,h4⟩,h5,h6,_⟩
      exact ⟨⟨h1,h2,h3,h4,h5,h6,fun h => absurd hleft h,fun h => absurd hleft h⟩,fun h => absurd hleft h⟩
    · rintro ⟨h,_⟩
      exact ⟨⟨hzero,h.base⟩,⟨hexpected,h.current⟩,⟨h.positive,h.delta⟩,h.scaledDelta,h.scaled,herror⟩
  · rw [if_neg hleft,Except.bind_bind,settles_fromRatio_bind,Except.bind_bind,Uint128.mulCeil,settles_fits_bind,
      Except.ok_bind]
    constructor
    · rintro ⟨⟨_,h1⟩,⟨_,h2⟩,⟨h3,h4⟩,h5,h6,⟨_,h7⟩,h8,h9⟩
      exact ⟨⟨h1,h2,h3,h4,h5,h6,fun _ => h7,fun _ => h8⟩,fun _ => h9⟩
    · rintro ⟨h,hf⟩
      exact ⟨⟨hzero,h.base⟩,⟨hexpected,h.current⟩,⟨h.positive,h.delta⟩,h.scaledDelta,h.scaled,
        ⟨hswap,h.ratio hleft⟩,h.minimum hleft,hf hleft⟩

/-! ### The best quote -/

/-- The adjusted quote of a route can be checked. -/
def CheckFits (deps : Deps) (env : Env) (quote : SwapQuote Adjusted) : Prop :=
  match quote.route with
  | .fin r => r.Fits deps quote.swapAmount quote.minimumReceiveAmount.amount
  | .thorchain _ => ThorchainRoute.Fits deps env quote

/-- Every number fits on the way from the balance to the quote of a route. -/
def QuoteFits (self : Swap) (deps : Deps) (env : Env) (route : SwapRoute) : Prop :=
  ∀ coin, deps.queryBalance env.contract self.swapAmount.denom=.ok coin → min coin.amount self.swapAmount.amount≠0 →
    match self.adjustment with
    | .fixed => CheckFits deps env (self.adjustedTo env route (min coin.amount self.swapAmount.amount)
        (self.minimumReceiveAmount.amount*(min coin.amount self.swapAmount.amount*Decimal.fractional/
          self.swapAmount.amount)/Decimal.fractional))
    | .linearScalar base least scalar =>
      ∀ expected, route.getExpectedAmountOut deps (self.quoteFor env route)=.ok expected → expected≠0 →
        (self.scaling coin.amount expected base least scalar).Fits self.minimumReceiveAmount.amount ∧
        ((self.scaling coin.amount expected base least scalar).amount≠0 → CheckFits deps env
          (self.adjustedTo env route (self.scaling coin.amount expected base least scalar).amount
            ((self.scaling coin.amount expected base least scalar).minimum self.minimumReceiveAmount.amount)))

theorem settles_validateAdjusted {quote : SwapQuote Adjusted} (hpos : quote.swapAmount.amount≠0) :
    Settles (quote.route.validateAdjusted deps env quote) ↔ CheckFits deps env quote := by
  rw [CheckFits]
  cases quote.route with
  | fin r =>
    change Settles (r.validateAdjusted deps env quote) ↔ _
    exact FinRoute.settles_validateAdjusted hpos
  | thorchain r => exact ThorchainRoute.settles_validateAdjusted hpos

theorem settles_getExpectedAmountOut (quote : SwapQuote New) : Settles (route.getExpectedAmountOut deps quote) := by
  cases route with
  | fin r => exact settles_query _
  | thorchain r => exact settles_bind.mpr ⟨settles_getThorchainSwapQuote quote,fun _ _ => Fault.settles_ok _⟩

theorem settles_routeQuote (hfull : self.minimumReceiveAmount.amount<2^128)
    (hbase : ∀ base least scalar, self.adjustment=.linearScalar base least scalar → base.amount≠0) :
    Settles (self.routeQuote deps env route) ↔ self.QuoteFits deps env route := by
  rw [routeQuote,QuoteFits]
  cases hb : deps.queryBalance env.contract self.swapAmount.denom with
  | error e =>
    rw [SwapQuote.adjust,quoteFor]
    simp [hb]
  | ok coin =>
    simp only [Except.ok.injEq,forall_eq']
    by_cases hpos : min coin.amount self.swapAmount.amount=0
    · rw [SwapQuote.adjust,quoteFor]
      simp only [hb,query_ok,Except.ok_bind,if_pos hpos]
      exact iff_of_true (settles_genericErr _) fun h => absurd hpos h
    rw [imp_iff_right hpos]
    cases hadj : self.adjustment with
    | fixed =>
      rw [adjust_fixed hb hpos hadj hfull,Except.ok_bind]
      exact settles_validateAdjusted hpos
    | linearScalar base least scalar =>
      rw [settles_adjust_linear hb hpos hadj (hbase base least scalar hadj) (settles_getExpectedAmountOut _)]
      refine forall₂_congr fun expected _ => imp_congr_right fun _ => and_congr_right fun _ => ?_
      refine imp_congr_right fun hleft => ?_
      exact settles_validateAdjusted hleft

theorem settles_bestOf (routes : List SwapRoute) (best : Option (SwapQuote Executable)) (top : ℕ)
    (quoteErrors : List StdError) : Settles (self.bestOf deps env routes best top quoteErrors) ↔
      ∀ route ∈ routes, Settles (self.routeQuote deps env route) := by
  induction routes generalizing best top quoteErrors with
  | nil => simp [bestOf]
  | cons route rest ih =>
    rw [bestOf,settles_bind,Fault.settles_attempt,List.forall_mem_cons]
    refine and_congr_right fun hroute => ?_
    obtain ⟨r,hr⟩ := Fault.settles_iff_attempt.mp hroute
    simp only [hr,Except.ok.injEq,forall_eq']
    cases r with
    | error e => exact ih best top _
    | ok quote =>
      simp only
      split_ifs
      · exact ih _ _ _
      · exact ih _ _ _

/-- The best quote of a validated swap is computed, with a result or an error, exactly when every number fits on
the way to the quote of each route. -/
theorem bestQuote_settles_iff {deps₀ : Deps} {env₀ : Env} (hv : self.validate deps₀ env₀=.ok ())
    (hfull : self.minimumReceiveAmount.amount<2^128) :
    Settles (self.bestQuote deps env) ↔ ∀ route ∈ self.routes, self.QuoteFits deps env route := by
  have hbest : Settles (self.bestQuote deps env) ↔ Settles (self.bestOf deps env self.routes none 0 []) := by
    rw [bestQuote,settles_bind]
    refine and_iff_left fun best _ => ?_
    obtain ⟨best,errors⟩ := best
    cases best with
    | none => exact settles_genericErr _
    | some quote => exact Fault.settles_ok _
  rw [hbest,settles_bestOf]
  exact forall₂_congr fun route _ => settles_routeQuote hfull (validate_base hv)

end

section

attribute [local instance] Crates.plain

/-- A pair at half the price that returns nothing, and a balance of one unit. -/
def dusty : Deps :=
  { pairs 1 fun _ => 0 with
    finBook := fun _ _ _ => .ok ⟨List.replicate 4 ⟨Decimal.percent 50,10^5⟩,List.replicate 4 ⟨Decimal.percent 50,10^5⟩⟩ }

/-- More is asked for one unit than there are decimals to write its price with. -/
def tiny : Swap := ⟨⟨1,"rune"⟩,⟨0,"usd"⟩,300,.linearScalar ⟨10^19,"usd"⟩ none .one,[.fin ⟨"pair"⟩]⟩

/-- A last unit of dust, and a base price that is rounded down to zero, make a validated swap panic. -/
theorem dust_panics : (selling [.fin ⟨"pair"⟩]).validate dusty ⟨⟨1,⟨1⟩⟩,"strategy"⟩=.ok () ∧
    (selling [.fin ⟨"pair"⟩]).bestQuote dusty ⟨⟨1,⟨1⟩⟩,"strategy"⟩=.error .panic ∧
    tiny.validate (pairs 1 fun _ => 1) ⟨⟨1,⟨1⟩⟩,"strategy"⟩=.ok () ∧
    tiny.bestQuote (pairs 1 fun _ => 1) ⟨⟨1,⟨1⟩⟩,"strategy"⟩=.error .panic := by
  refine ⟨by decide +kernel,by decide +kernel,by decide +kernel,by decide +kernel⟩

theorem bestQuote_settles_iff_dust : ¬∀ route ∈ (selling [.fin ⟨"pair"⟩]).routes,
    (selling [.fin ⟨"pair"⟩]).QuoteFits dusty ⟨⟨1,⟨1⟩⟩,"strategy"⟩ route := by
  intro h
  have hv : (selling [.fin ⟨"pair"⟩]).validate dusty ⟨⟨1,⟨1⟩⟩,"strategy"⟩=.ok () := by decide +kernel
  have hsettles := (bestQuote_settles_iff hv (by decide)).mpr h
  have hpanic : (selling [.fin ⟨"pair"⟩]).bestQuote dusty ⟨⟨1,⟨1⟩⟩,"strategy"⟩=.error .panic := by decide +kernel
  exact hsettles _ hpanic trivial

end

end Swap

end CalcRs
