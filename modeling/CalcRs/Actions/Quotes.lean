import CalcRs.Actions.Payouts
import CalcRs.Foundation.Best
import CalcRs.Model.Swap

/-! What a quote has been checked against when it is chosen: the balance, the scaled minimum, the slippage and
the quotes of the other routes. -/
namespace CalcRs

/-- What `adjust` makes of a quote when the contract holds this much of the swap denom. -/
structure SwapQuote.Adjusts (quote : SwapQuote New) (balance : ℕ) (adjusted : SwapQuote Adjusted) : Prop where
  route : adjusted.route=quote.route
  slippage : adjusted.maximumSlippageBps=quote.maximumSlippageBps
  denom : adjusted.swapAmount.denom=quote.swapAmount.denom
  positive : 0<adjusted.swapAmount.amount
  covered : adjusted.swapAmount.amount ≤ balance
  fixed : quote.adjustment=.fixed → adjusted.swapAmount.amount=min balance quote.swapAmount.amount
  total : 0<quote.swapAmount.amount
  minimum : quote.minimumReceiveAmount.amount*
    (adjusted.swapAmount.amount*Decimal.fractional/quote.swapAmount.amount)/Decimal.fractional ≤
      adjusted.minimumReceiveAmount.amount

/-- What an accepted quote has in common with the adjusted one. -/
structure SwapQuote.Kept (adjusted : SwapQuote Adjusted) (quote : SwapQuote Executable) : Prop where
  swapAmount : quote.swapAmount=adjusted.swapAmount
  minimum : quote.minimumReceiveAmount=adjusted.minimumReceiveAmount
  covered : adjusted.minimumReceiveAmount.amount ≤ quote.state.expectedAmountOut.amount

theorem SwapQuote.adjust_eq_ok [Crates] {quote : SwapQuote New} {adjusted : SwapQuote Adjusted} {deps : Deps} {env : Env}
    {coin : Coin} (hb : deps.queryBalance env.contract quote.swapAmount.denom=.ok coin)
    (h : quote.adjust deps env=.ok adjusted) : quote.Adjusts coin.amount adjusted := by
  rw [adjust,hb,query_ok,Except.ok_bind] at h
  simp only [genericErr,Except.ite_error_eq_ok] at h
  obtain ⟨hpos,h⟩ := h
  cases hadj : quote.adjustment with
  | fixed =>
    simp only [hadj] at h
    obtain ⟨ratio,hratio,h⟩ := Except.bind_eq_ok.mp h
    obtain ⟨minimum,hmin,h⟩ := Except.bind_eq_ok.mp h
    cases h
    obtain ⟨hne,_,rfl⟩ := Decimal.fromRatio_eq_ok.mp hratio
    obtain ⟨_,rfl⟩ := fits_eq_ok.mp hmin
    exact ⟨rfl,rfl,rfl,Nat.pos_of_ne_zero hpos,Nat.min_le_left _ _,fun _ => rfl,Nat.pos_of_ne_zero hne,le_rfl⟩
  | linearScalar base least scalar =>
    simp only [hadj,Except.error_bind] at h
    obtain ⟨out,_,h⟩ := Except.bind_eq_ok.mp h
    simp only [Except.ite_error_eq_ok] at h
    obtain ⟨_,h⟩ := h
    obtain ⟨basePrice,_,h⟩ := Except.bind_eq_ok.mp h
    obtain ⟨currentPrice,_,h⟩ := Except.bind_eq_ok.mp h
    obtain ⟨delta,_,h⟩ := Except.bind_eq_ok.mp h
    obtain ⟨scaled,_,h⟩ := Except.bind_eq_ok.mp h
    -- the price goes up or down by the same steps
    obtain ⟨amount,hnew,hle,h⟩ : ∃ amount, amount≠0 ∧ amount ≤ coin.amount ∧
        (do let ratio ← Decimal.fromRatio amount quote.swapAmount.amount
            let minimum ← Uint128.mulCeil quote.minimumReceiveAmount.amount ratio
            return ({ swapAmount := ⟨amount,quote.swapAmount.denom⟩
                      minimumReceiveAmount := ⟨minimum,quote.minimumReceiveAmount.denom⟩
                      maximumSlippageBps := quote.maximumSlippageBps
                      adjustment := .linearScalar base least scalar
                      route := quote.route
                      destination := quote.destination
                      state := ⟨⟩ } : SwapQuote Adjusted))=.ok adjusted := by
      split at h
      all_goals
        obtain ⟨scaledAmount,_,h⟩ := Except.bind_eq_ok.mp h
        obtain ⟨hnew,h⟩ := Except.ite_error_eq_ok.mp h
        exact ⟨_,hnew,Nat.min_le_left _ _,h⟩
    obtain ⟨ratio,hratio,h⟩ := Except.bind_eq_ok.mp h
    obtain ⟨minimum,hmin,h⟩ := Except.bind_eq_ok.mp h
    cases h
    obtain ⟨hne,_,rfl⟩ := Decimal.fromRatio_eq_ok.mp hratio
    obtain ⟨_,rfl⟩ := fits_eq_ok.mp hmin
    refine ⟨rfl,rfl,rfl,Nat.pos_of_ne_zero hnew,hle,fun h => ?_,Nat.pos_of_ne_zero hne,?_⟩
    · rw [hadj] at h
      cases h
    · exact Nat.div_le_div_right (Nat.le_add_right _ _)

/-- What the swapped denom is worth on a pair with this mid price: the mid price when it is the base denom,
and else one divided by it, rounded down to 18 decimals. -/
def FinRoute.fairRate (pair : ConfigResponse) (denom : Denom) (midPrice : Decimal) : Decimal :=
  if denom=pair.denoms.base then midPrice else ⟨Decimal.fractional*Decimal.fractional/midPrice.atomics⟩

/-- Inverting a price twice, each time rounding down, does not lower it. -/
theorem le_div_div {m x : ℕ} (hm : x ≤ Decimal.fractional*Decimal.fractional/m) (hx : x≠0) :
    m ≤ Decimal.fractional*Decimal.fractional/x := by
  rw [Nat.le_div_iff_mul_le (Nat.pos_of_ne_zero hx),Nat.mul_comm]
  by_cases h0 : m=0
  · simp [h0]
  · exact (Nat.le_div_iff_mul_le (Nat.pos_of_ne_zero h0)).mp hm

/-- The output is at most the permitted slippage below what was optimal. -/
theorem slippage_bound {out optimal loss bps : ℕ}
    (hloss : loss+out*Decimal.fractional/optimal=Decimal.fractional)
    (hbps : (10000*loss+(Decimal.fractional-1))/Decimal.fractional ≤ bps) :
    (10000-bps)*optimal ≤ 10000*out := by
  have hpos : 0<Decimal.fractional := by decide
  have h1 : 10000*loss ≤ bps*Decimal.fractional := by
    have h := (Nat.div_lt_iff_lt_mul hpos).mp (Nat.lt_add_one_of_le hbps)
    rw [Nat.add_mul] at h
    omega
  have h2 : (10000-bps)*Decimal.fractional ≤ 10000*(out*Decimal.fractional/optimal) := by
    rw [Nat.sub_mul]
    omega
  have h3 : out*Decimal.fractional/optimal*optimal ≤ out*Decimal.fractional := Nat.div_mul_le_self _ _
  refine Nat.le_of_mul_le_mul_right ?_ hpos
  calc (10000-bps)*optimal*Decimal.fractional=(10000-bps)*Decimal.fractional*optimal := by ring
    _ ≤ 10000*(out*Decimal.fractional/optimal)*optimal := Nat.mul_le_mul_right _ h2
    _=10000*(out*Decimal.fractional/optimal*optimal) := by ring
    _ ≤ 10000*(out*Decimal.fractional) := Nat.mul_le_mul_left _ h3
    _=10000*out*Decimal.fractional := by ring

theorem Decimal.div_eq_ok {a b c : Decimal} (h : a.div b=.ok c) :
    b.atomics≠0 ∧ c.atomics=a.atomics*fractional/b.atomics := by
  obtain ⟨hne,_,rfl⟩ := fromRatio_eq_ok.mp h
  exact ⟨hne,rfl⟩

theorem Decimal.unwrapOr_checkedSub {a b c : Decimal} (hle : b.atomics ≤ a.atomics)
    (h : Fault.unwrapOr (a.checkedSub b) one=.ok c) : c.atomics+b.atomics=a.atomics := by
  rw [checkedSub,if_pos hle,Fault.unwrapOr_ok] at h
  obtain rfl := Except.ok.inj h
  exact Nat.sub_add_cancel hle

/-- The slippage check of a FIN route, against a rate. -/
theorem slippage_eq_ok {α : Type} {amount out bps : ℕ} {rate : Decimal} {error : ℕ → Fault StdError} {a b : α}
    (h : (do let optimal ← Uint128.mulFloor amount rate
             let ratio ← Decimal.fromRatio out (max out optimal)
             let loss ← Fault.unwrapOr (Decimal.one.checkedSub ratio) Decimal.one
             let slippageBps ← Uint128.mulCeil 10000 loss
             if bps < slippageBps then Except.error (error slippageBps) else pure b)=.ok a) :
    a=b ∧ (10000-bps)*(amount*rate.atomics/Decimal.fractional) ≤ 10000*out := by
  obtain ⟨optimal,hoptimal,h⟩ := Except.bind_eq_ok.mp h
  obtain ⟨ratio,hratio,h⟩ := Except.bind_eq_ok.mp h
  obtain ⟨loss,hloss,h⟩ := Except.bind_eq_ok.mp h
  obtain ⟨slippageBps,hslippage,h⟩ := Except.bind_eq_ok.mp h
  obtain ⟨hle,hab⟩ := Except.ite_error_eq_ok.mp h
  obtain ⟨_,rfl⟩ := fits_eq_ok.mp hoptimal
  obtain ⟨_,_,rfl⟩ := Decimal.fromRatio_eq_ok.mp hratio
  obtain ⟨_,rfl⟩ := fits_eq_ok.mp hslippage
  have hone : out*Decimal.fractional/max out (amount*rate.atomics/Decimal.fractional) ≤ Decimal.fractional :=
    Decimal.ratio_le_one (Nat.le_max_left _ _)
  have hsum := Decimal.unwrapOr_checkedSub hone hloss
  refine ⟨(Except.ok.inj hab).symm,le_trans (Nat.mul_le_mul_left _ (Nat.le_max_right out _)) ?_⟩
  exact slippage_bound hsum (not_lt.mp hle)

section

variable [Crates] {deps : Deps} {env : Env} {adjusted : SwapQuote Adjusted} {quote : SwapQuote Executable}

/-- A FIN route accepts a quote whose output is near what the mid price promises. -/
theorem FinRoute.validateAdjusted_eq_ok {route : FinRoute} (h : route.validateAdjusted deps env adjusted=.ok quote) :
    adjusted.Kept quote ∧ quote.route=adjusted.route ∧ ∃ midPrice pair, getMidPrice deps route.pairAddress=.ok midPrice ∧
      deps.finConfig route.pairAddress=.ok pair ∧
      (10000-adjusted.maximumSlippageBps)*(adjusted.swapAmount.amount*
        (fairRate pair adjusted.swapAmount.denom midPrice).atomics/Decimal.fractional) ≤
        10000*quote.state.expectedAmountOut.amount := by
  simp only [validateAdjusted,genericErr,Except.ite_error_eq_ok] at h
  obtain ⟨_,h⟩ := h
  obtain ⟨out,_,h⟩ := Except.bind_eq_ok.mp h
  simp only [Except.ite_error_eq_ok] at h
  obtain ⟨hmin,h⟩ := h
  obtain ⟨midPrice,hmid,h⟩ := Except.bind_eq_ok.mp h
  obtain ⟨pair,hpair,h⟩ := Except.bind_eq_ok.mp h
  have hpair := query_eq_ok.mp hpair
  by_cases hbase : adjusted.swapAmount.denom=pair.denoms.base
  · rw [if_pos hbase] at h
    obtain ⟨spotPrice,hspot,h⟩ := Except.bind_eq_ok.mp h
    obtain ⟨rate,hrate,h⟩ := Except.bind_eq_ok.mp h
    obtain ⟨rfl,hbound⟩ := slippage_eq_ok h
    obtain ⟨_,hspot⟩ := Decimal.div_eq_ok hspot
    obtain ⟨hne,hrate⟩ := Decimal.div_eq_ok hrate
    have hfair : midPrice.atomics ≤ rate.atomics := hrate ▸ le_div_div hspot.le hne
    refine ⟨⟨rfl,rfl,not_lt.mp hmin⟩,rfl,midPrice,pair,hmid,hpair,le_trans (Nat.mul_le_mul_left _ ?_) hbound⟩
    rw [fairRate,if_pos hbase]
    exact Nat.div_le_div_right (Nat.mul_le_mul_left _ hfair)
  · rw [if_neg hbase,Except.ok_bind] at h
    obtain ⟨rate,hrate,h⟩ := Except.bind_eq_ok.mp h
    obtain ⟨rfl,hbound⟩ := slippage_eq_ok h
    obtain ⟨_,hrate⟩ := Decimal.div_eq_ok hrate
    refine ⟨⟨rfl,rfl,not_lt.mp hmin⟩,rfl,midPrice,pair,hmid,hpair,?_⟩
    rwa [fairRate,if_neg hbase,← show rate.atomics=Decimal.fractional*Decimal.fractional/midPrice.atomics from hrate]

theorem getThorchainSwapQuote_eq_ok {S : Type} {quote : SwapQuote S} {response : ThorchainSwapQuote} :
    getThorchainSwapQuote deps quote=.ok response ↔
      ∃ request, SwapQuoteRequest.tryFrom quote=.ok request ∧ deps.thorchainQuote request=.ok response := by
  rw [getThorchainSwapQuote,Except.bind_eq_ok]
  exact exists_congr fun request => and_congr_right' mapErr_eq_ok

/-- Quotes with one request are answered alike; an error names the route. -/
theorem getThorchainSwapQuote_alike {S : Type} {quote quote' : SwapQuote S}
    (h : SwapQuoteRequest.tryFrom quote=SwapQuoteRequest.tryFrom quote') :
    Fault.Alike (getThorchainSwapQuote deps quote) (getThorchainSwapQuote deps quote') := by
  rw [getThorchainSwapQuote,getThorchainSwapQuote,h]
  exact (Fault.Alike.refl _).bind fun request _ => alike_mapErr rfl

/-- A THORChain route accepts a quote with no more slippage than permitted, and caches the swap. -/
theorem ThorchainRoute.validateAdjusted_eq_ok {route : ThorchainRoute} (hr : adjusted.route=.thorchain route)
    (h : route.validateAdjusted deps env adjusted=.ok quote) : adjusted.Kept quote ∧ ∃ response cached,
      getThorchainSwapQuote deps quote=.ok response ∧
      quote.state.expectedAmountOut.amount=response.expectedAmountOut ∧ cached.memo=response.memo ∧
      (∀ bps ∈ response.feesSlippageBps, bps ≤ adjusted.maximumSlippageBps) ∧
      quote.route=.thorchain { route with latestSwap := some cached } := by
  simp only [validateAdjusted,genericErr,Except.ite_error_eq_ok] at h
  obtain ⟨_,h⟩ := h
  obtain ⟨response,hresponse,h⟩ := Except.bind_eq_ok.mp h
  simp only [Except.ite_error_eq_ok,not_lt] at h
  obtain ⟨hslippage,hmin,_,h⟩ := h
  obtain ⟨startingBlock,_,h⟩ := Except.bind_eq_ok.mp h
  cases h
  -- the request leaves the cached swap out, so the accepted quote asks for the same
  obtain ⟨request,hrequest,hquote⟩ := getThorchainSwapQuote_eq_ok.mp hresponse
  rw [SwapQuoteRequest.tryFrom,hr] at hrequest
  refine ⟨⟨rfl,rfl,hmin⟩,response,_,getThorchainSwapQuote_eq_ok.mpr ⟨request,hrequest,hquote⟩,rfl,rfl,fun bps hb => ?_,rfl⟩
  rwa [Option.mem_def.mp hb] at hslippage

end

/-! ### One route -/

/-- The message spends the amount of the quote on the route, and carries what the quote was accepted with. -/
def SwapRoute.Spends [Crates] (deps : Deps) (quote : SwapQuote Executable) (message : CosmosMsg) : SwapRoute → Prop
  | .fin route => message=
      .wasmExecute route.pairAddress (.finSwap quote.minimumReceiveAmount.amount) [quote.swapAmount]
  | .thorchain _ => ∃ response signer, getThorchainSwapQuote deps quote=.ok response ∧
      message=.deposit ⟨response.memo,[quote.swapAmount],signer⟩

/-- The output of the quote loses at most this many basis points. -/
def SwapRoute.Slips [Crates] (deps : Deps) (quote : SwapQuote Executable) (bps : ℕ) : SwapRoute → Prop
  | .fin route => ∃ midPrice pair, getMidPrice deps route.pairAddress=.ok midPrice ∧
      deps.finConfig route.pairAddress=.ok pair ∧
      (10000-bps)*(quote.swapAmount.amount*
        (FinRoute.fairRate pair quote.swapAmount.denom midPrice).atomics/Decimal.fractional) ≤
        10000*quote.state.expectedAmountOut.amount
  | .thorchain _ => ∃ response, getThorchainSwapQuote deps quote=.ok response ∧
      quote.state.expectedAmountOut.amount=response.expectedAmountOut ∧ ∀ reported ∈ response.feesSlippageBps, reported ≤ bps

/-- The route without the swap it has cached. -/
def SwapRoute.identity : SwapRoute → SwapRoute
  | .fin route => .fin route
  | .thorchain route => .thorchain { route with latestSwap := none }

/-- What a route accepts, when it started from this quote and the contract holds this much of the swap denom. -/
structure SwapRoute.Accepts [Crates] (route : SwapRoute) (deps : Deps) (env : Env) (start : SwapQuote New)
    (balance : ℕ) (quote : SwapQuote Executable) : Prop where
  adjusts : ∃ adjusted, start.Adjusts balance adjusted ∧ adjusted.Kept quote
  identity : quote.route.identity=route.identity
  slips : route.Slips deps quote start.maximumSlippageBps
  spends : ∀ message, quote.route.execute deps env quote.swapAmount quote.minimumReceiveAmount=.ok message →
    route.Spends deps quote message

namespace Swap

section

variable [Crates] {self : Swap} {deps : Deps} {env : Env} {route : SwapRoute} {quote : SwapQuote Executable} {coin : Coin}

theorem routeQuote_accepts (hb : deps.queryBalance env.contract self.swapAmount.denom=.ok coin)
    (h : self.routeQuote deps env route=.ok quote) :
    route.Accepts deps env (self.quoteFor env route) coin.amount quote := by
  rw [routeQuote] at h
  obtain ⟨adjusted,hadjusted,h⟩ := Except.bind_eq_ok.mp h
  have hadj := SwapQuote.adjust_eq_ok hb hadjusted
  have hroute : adjusted.route=route := hadj.route
  rw [hroute] at h
  cases route with
  | fin r =>
    have h : r.validateAdjusted deps env adjusted=.ok quote := h
    obtain ⟨hkept,hkeep,midPrice,pair,hmid,hpair,hslip⟩ := FinRoute.validateAdjusted_eq_ok h
    have hkeep := hkeep.trans hroute
    refine ⟨⟨adjusted,hadj,hkept⟩,by rw [hkeep],⟨midPrice,pair,hmid,hpair,?_⟩,fun message hm => ?_⟩
    · rwa [hkept.swapAmount,← hadj.slippage]
    · rw [hkeep] at hm
      exact (Except.ok.inj hm).symm
  | thorchain r =>
    obtain ⟨hkept,response,cached,hresponse,hout,hmemo,hslip,hkeep⟩ := ThorchainRoute.validateAdjusted_eq_ok hroute h
    refine ⟨⟨adjusted,hadj,hkept⟩,by rw [hkeep]; rfl,⟨response,hresponse,hout,fun bps hbps => ?_⟩,fun message hm => ?_⟩
    · exact (hslip bps hbps).trans_eq hadj.slippage
    · rw [hkeep] at hm
      obtain ⟨signer,_,hm⟩ := Except.bind_eq_ok.mp hm
      exact ⟨response,signer,hresponse,hmemo ▸ (Except.ok.inj hm).symm⟩

/-! ### All routes -/

/-- What a route offers: its quote, if that is accepted. -/
def offer (self : Swap) (deps : Deps) (env : Env) (route : SwapRoute) : Option (SwapQuote Executable) :=
  (self.routeQuote deps env route).toOption

/-- What the offers are compared by. -/
def output (quote : SwapQuote Executable) : ℕ := quote.state.expectedAmountOut.amount

/-- A loop that returns has picked from the offers. -/
theorem bestOf_eq_ok {routes : List SwapRoute} {best result : Option (SwapQuote Executable)} {top : ℕ}
    {quoteErrors errors : List StdError} (h : self.bestOf deps env routes best top quoteErrors=.ok (result,errors)) :
    Best.pick (self.offer deps env) output routes best top=result := by
  induction routes generalizing best top quoteErrors with
  | nil => exact (Prod.mk.inj (Except.ok.inj h)).1
  | cons route routes ih =>
    rw [bestOf] at h
    obtain ⟨attempt,hattempt,h⟩ := Except.bind_eq_ok.mp h
    rw [Best.pick,offer]
    cases attempt with
    | ok quote =>
      rw [Fault.attempt_eq_ok_ok.mp hattempt]
      change (if top<output quote then self.bestOf deps env routes (some quote) (output quote) quoteErrors
        else self.bestOf deps env routes best top quoteErrors)=.ok (result,errors) at h
      simp only [Except.toOption]
      by_cases htop : top<output quote
      · rw [if_pos htop] at h ⊢
        exact ih h
      · rw [if_neg htop] at h ⊢
        exact ih h
    | error e =>
      rw [Fault.attempt_eq_ok_error.mp hattempt]
      exact ih h

theorem bestQuote_eq_ok (h : self.bestQuote deps env=.ok quote) :
    ∃ j, Best.Wins (self.offer deps env) output 0 self.routes j quote := by
  rw [bestQuote] at h
  obtain ⟨⟨best,errors⟩,hbest,h⟩ := Except.bind_eq_ok.mp h
  cases best with
  | none => cases h
  | some best =>
    obtain rfl := Except.ok.inj h
    exact Best.pick_eq_some.mp (bestOf_eq_ok hbest)

/-- An execution that returns has bought from the best offer, and put its route in the place of all its kind. -/
theorem executeUnsafe_eq_ok {messages : List CosmosMsg} {stored : Swap}
    (h : self.executeUnsafe deps env=.ok (messages,stored)) : ∃ j quote message,
      Best.Wins (self.offer deps env) output 0 self.routes j quote ∧
      quote.route.execute deps env quote.swapAmount quote.minimumReceiveAmount=.ok message ∧ messages=[message] ∧
      stored={ self with routes := self.routes.map fun r => if r.sameKind quote.route then quote.route else r } := by
  rw [executeUnsafe] at h
  obtain ⟨quote,hquote,h⟩ := Except.bind_eq_ok.mp h
  obtain ⟨message,hmessage,h⟩ := Except.bind_eq_ok.mp h
  obtain ⟨j,hw⟩ := bestQuote_eq_ok hquote
  obtain ⟨rfl,rfl⟩ := Prod.mk.inj (Except.ok.inj h)
  exact ⟨j,quote,message,hw,hmessage,rfl,rfl⟩

/-- What a swap buys with its message: the quote of one of its routes, checked against the balance it spends from,
the minimum of the user, the permitted slippage and the quotes of all other routes. -/
structure Buys (self : Swap) (deps : Deps) (env : Env) (balance : ℕ) (route : SwapRoute)
    (quote : SwapQuote Executable) (message : CosmosMsg) : Prop where
  listed : route ∈ self.routes
  quoted : self.routeQuote deps env route=.ok quote
  spends : route.Spends deps quote message
  denom : quote.swapAmount.denom=self.swapAmount.denom
  positive : 0<quote.swapAmount.amount
  covered : quote.swapAmount.amount ≤ balance
  fixed : self.adjustment=.fixed → quote.swapAmount.amount=min balance self.swapAmount.amount
  output : 0<quote.state.expectedAmountOut.amount
  minimum : (self.minimumReceiveAmount.amount : ℚ)*quote.swapAmount.amount/self.swapAmount.amount-1-
    self.minimumReceiveAmount.amount/10^18<quote.state.expectedAmountOut.amount
  slips : route.Slips deps quote self.maximumSlippageBps
  best : ∀ other ∈ self.routes, ∀ quote', self.routeQuote deps env other=.ok quote' →
    quote'.state.expectedAmountOut.amount ≤ quote.state.expectedAmountOut.amount

/-- A swap that executes buys the best quote of its routes with one message. -/
theorem execute_buys_best {messages : List CosmosMsg} {stored : Swap}
    (h : self.executeUnsafe deps env=.ok (messages,stored)) : ∃ coin route quote message,
      deps.queryBalance env.contract self.swapAmount.denom=.ok coin ∧ messages=[message] ∧
      self.Buys deps env coin.amount route quote message := by
  obtain ⟨j,quote,message,hw,hmessage,hmessages,_⟩ := executeUnsafe_eq_ok h
  obtain ⟨route,hroute,hoffer⟩ := hw.made
  have hquote := Except.toOption_eq_some.mp hoffer
  obtain ⟨coin,hb⟩ : ∃ coin, deps.queryBalance env.contract self.swapAmount.denom=.ok coin := by
    obtain ⟨adjusted,hadjusted,_⟩ := Except.bind_eq_ok.mp hquote
    obtain ⟨coin,hb,_⟩ := Except.bind_eq_ok.mp hadjusted
    exact ⟨coin,query_eq_ok.mp hb⟩
  have haccepts := routeQuote_accepts hb hquote
  obtain ⟨adjusted,hadj,hkept⟩ := haccepts.adjusts
  refine ⟨coin,route,quote,message,hb,hmessages,?_⟩
  exact {
    listed := List.mem_of_getElem? hroute
    quoted := hquote
    spends := haccepts.spends message hmessage
    denom := hkept.swapAmount ▸ hadj.denom
    positive := hkept.swapAmount ▸ hadj.positive
    covered := hkept.swapAmount ▸ hadj.covered
    fixed := hkept.swapAmount ▸ hadj.fixed
    output := hw.above
    minimum := by
      rw [hkept.swapAmount]
      exact Decimal.sub_lt_of_scaled_le hadj.total (hadj.minimum.trans hkept.covered)
    slips := haccepts.slips
    best := fun other hother quote' hquote' => by
      obtain ⟨i,hi⟩ := List.getElem?_of_mem hother
      exact hw.largest i other quote' hi (Except.toOption_eq_some.mpr hquote') }

end

section

attribute [local instance] Crates.plain

/-- A balance to spend at pairs whose price is one and that return this much. -/
def pairs (balance : ℕ) (returned : Addr → ℕ) : Deps :=
  { Deps.withBalance (fun _ _ => balance) with
    finConfig := fun _ => .ok ⟨⟨"rune","usd"⟩,0⟩
    finBook := fun _ _ _ => .ok ⟨List.replicate 4 ⟨.one,10^4⟩,List.replicate 4 ⟨.one,10^4⟩⟩
    finSimulate := fun pair _ => .ok (returned pair) }

/-- Sell up to 100 for no less than 90, at most three percent below the price. -/
def selling (routes : List SwapRoute) : Swap := ⟨⟨100,"rune"⟩,⟨90,"usd"⟩,300,.fixed,routes⟩

theorem execute_buys_best_second : ∃ coin route quote message,
    (pairs 1000 fun pair => if pair="first" then 98 else 99).queryBalance "strategy" "rune"=.ok coin ∧
    [CosmosMsg.wasmExecute "second" (.finSwap 90) [⟨100,"rune"⟩]]=[message] ∧
    (selling [.fin ⟨"first"⟩,.fin ⟨"second"⟩]).Buys (pairs 1000 fun pair => if pair="first" then 98 else 99)
      ⟨⟨1,⟨1⟩⟩,"strategy"⟩ coin.amount route quote message := by
  have h : (selling [.fin ⟨"first"⟩,.fin ⟨"second"⟩]).executeUnsafe
      (pairs 1000 fun pair => if pair="first" then 98 else 99) ⟨⟨1,⟨1⟩⟩,"strategy"⟩=
      .ok ([.wasmExecute "second" (.finSwap 90) [⟨100,"rune"⟩]],selling [.fin ⟨"second"⟩,.fin ⟨"second"⟩]) := by
    decide +kernel
  exact execute_buys_best h

end

end Swap

end CalcRs
