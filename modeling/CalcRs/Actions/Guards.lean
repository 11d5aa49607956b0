import CalcRs.Actions.Pricing
import CalcRs.Model.Node

/-! A swap behind a `CanSwap` condition with the same parameters. Only the action is stored with the affiliate, so
the two ask THORChain for different quotes. -/
namespace CalcRs
open Fault (Alike Settles)

/-- The message is a swap on a FIN pair or a deposit to THORChain. -/
def CosmosMsg.IsSwap : CosmosMsg → Prop
  | .wasmExecute _ (.finSwap _) _ => True
  | .deposit _ => True
  | _ => False

/-- The condition is satisfied exactly when the action swaps. -/
def Condition.Guards [Crates] (c : Condition) (a : Action) (deps : Deps) (env : Env) : Prop :=
  c.isSatisfied deps env=.ok true ↔
    ∃ message stored, a.execute deps env=.ok ([message],stored) ∧ message.IsSwap

namespace Scaling

/-- At the highest output one unit stays one unit, whatever the scalar. -/
theorem highest_output {x : Scaling} {full : ℕ} (hbalance : x.balance=1) (hexpected : x.expected=2^128-1)
    (hswap : 0<x.swap) (hbase : 0<x.basePrice) (hfits : x.basePrice<2^128) (hscalar : x.scalar<2^128)
    (hfull : full<2^128) : x.Fits full ∧ x.amount=1 := by
  have hspend : x.spendable=1 := by
    rw [spendable,hbalance]
    exact Nat.min_eq_left hswap
  have hcurrent : x.currentPrice=0 := by
    rw [currentPrice,hspend,hexpected]
    exact Nat.div_eq_of_lt (by decide)
  have hdelta : x.priceDelta=Decimal.fractional := by
    rw [priceDelta,deltaAt,hcurrent,Nat.sub_zero,Nat.zero_sub,Nat.add_zero,Nat.mul_div_cancel_left _ hbase]
  have hscaledDelta : x.scaledDelta=x.scalar := by
    rw [scaledDelta,scaledDeltaAt,← priceDelta,hdelta,Nat.mul_div_cancel_left _ fractional_pos]
  have hfactor : Decimal.fractional ≤ x.factor ∧ x.factor<2^128 := by
    rw [factor,factorAt,if_pos (hcurrent ▸ hbase)]
    exact ⟨le_min (Nat.le_add_right _ _) (by decide),(Nat.min_le_right _ _).trans_lt (by decide)⟩
  have hscaled : 1 ≤ x.scaled ∧ x.scaled<2^128 := by
    rw [scaled,scaledAt,← factor,hspend,Nat.one_mul]
    exact ⟨(Nat.one_le_div_iff fractional_pos).mpr hfactor.1,(Nat.div_le_self _ _).trans_lt hfactor.2⟩
  have hamount : x.amount=1 := by
    rw [amount,hbalance]
    exact Nat.min_eq_left (hscaled.1.trans (Nat.le_max_left _ _))
  have hratio : x.ratio ≤ Decimal.fractional := by
    rw [ratio,ratioOf,hamount,Nat.one_mul]
    exact Nat.div_le_self _ _
  have hminimum : x.minimum full<2^128 := (Decimal.scaleCeil_le full hratio).trans_lt hfull
  exact ⟨{
    base := hfits
    current := by rw [hcurrent]; decide
    positive := hbase.ne'
    delta := by rw [hdelta]; decide
    scaledDelta := by rwa [hscaledDelta]
    scaled := hscaled.2
    ratio := fun _ => hratio.trans_lt (by decide)
    minimum := fun _ => hminimum },hamount⟩

end Scaling

namespace Swap

section

variable {route : SwapRoute} {self : Swap}

/-- A route as `with_affiliates` leaves it. -/
def affiliated : SwapRoute → SwapRoute
  | .thorchain route => .thorchain { route with affiliateCode := some "rj",affiliateBps := some 10 }
  | .fin route => .fin route

theorem withAffiliates_routes (self : Swap) : self.withAffiliates.routes=self.routes.map affiliated := by
  refine List.map_congr_left fun route _ => ?_
  cases route <;> rfl

theorem affiliated_affiliated (route : SwapRoute) : affiliated (affiliated route)=affiliated route := by
  cases route <;> rfl

theorem withAffiliates_eq_iff : self.withAffiliates=self ↔ ∀ route ∈ self.routes, affiliated route=route := by
  have hiff : self.withAffiliates=self ↔ self.routes.map affiliated=self.routes := by
    rw [← withAffiliates_routes]
    exact ⟨congrArg Swap.routes,congrArg fun routes => { self with routes := routes }⟩
  rw [hiff,← List.map_inj_left,List.map_id']

variable [Crates] {deps : Deps} {env : Env} {quote : SwapQuote Executable}

theorem errorless_bestOf (routes : List SwapRoute) (best : Option (SwapQuote Executable)) (top : ℕ)
    (quoteErrors : List StdError) : Fault.Errorless (self.bestOf deps env routes best top quoteErrors) := by
  induction routes generalizing best top quoteErrors with
  | nil => exact Fault.errorless_ok _
  | cons route rest ih =>
    rw [bestOf]
    refine Fault.errorless_bind ?_ fun r _ => ?_
    · intro e h
      cases hr : self.routeQuote deps env route with
      | ok quote => simp [hr] at h
      | error f => cases f <;> simp [hr,Fault.attempt] at h
    · cases r with
      | error e => exact ih best top _
      | ok quote =>
        simp only
        split_ifs
        · exact ih _ _ _
        · exact ih _ _ _

/-- A best quote is found when no route makes the call abort and one of them is quoted for more than nothing. -/
theorem bestQuote_ok_iff : (∃ quote, self.bestQuote deps env=.ok quote) ↔
    (∀ route ∈ self.routes, Settles (self.routeQuote deps env route)) ∧
      ∃ route ∈ self.routes, ∃ quote, self.routeQuote deps env route=.ok quote ∧ 0<output quote := by
  rw [← settles_bestOf self.routes none 0 []]
  constructor
  · rintro ⟨quote,h⟩
    obtain ⟨j,hw⟩ := bestQuote_eq_ok h
    obtain ⟨route,hroute,hoffer⟩ := hw.made
    obtain ⟨found,hfound,_⟩ := Except.bind_eq_ok.mp h
    refine ⟨?_,route,List.mem_of_getElem? hroute,quote,Except.toOption_eq_some.mp hoffer,hw.above⟩
    rw [hfound]
    exact Fault.settles_ok found
  · rintro ⟨hsettles,route,hroute,quote,hquote,hpos⟩
    obtain ⟨⟨best,errors⟩,hbest⟩ := (errorless_bestOf self.routes none 0 []).settles_iff.mp hsettles
    have hpick := bestOf_eq_ok hbest
    rcases @Best.pick_spec _ _ (self.offer deps env) output self.routes none 0 with ⟨j,q,_,hq⟩ | ⟨hall,_⟩
    · obtain rfl := hq.symm.trans hpick
      exact ⟨q,by rw [bestQuote,hbest]; rfl⟩
    · have hzero := hall route hroute quote (Except.toOption_eq_some.mpr hquote)
      omega

/-- A quoted route can be executed by a contract whose address has a canonical form. -/
theorem routeQuote_executes {signer : Binary} (hsigner : deps.addrCanonicalize env.contract=.ok signer)
    (h : self.routeQuote deps env route=.ok quote) : ∃ message,
      quote.route.execute deps env quote.swapAmount quote.minimumReceiveAmount=.ok message ∧ message.IsSwap := by
  rw [routeQuote] at h
  obtain ⟨adjusted,_,h⟩ := Except.bind_eq_ok.mp h
  cases hr : adjusted.route with
  | fin r =>
    rw [hr] at h
    have h : r.validateAdjusted deps env adjusted=.ok quote := h
    obtain ⟨_,hkeep,_⟩ := FinRoute.validateAdjusted_eq_ok h
    rw [hkeep.trans hr]
    exact ⟨_,rfl,trivial⟩
  | thorchain r =>
    rw [hr] at h
    obtain ⟨_,_,cached,_,_,_,_,hkeep⟩ := ThorchainRoute.validateAdjusted_eq_ok hr h
    refine ⟨.deposit ⟨cached.memo,[quote.swapAmount],signer⟩,?_,trivial⟩
    rw [hkeep]
    simp [SwapRoute.execute,ThorchainRoute.execute,hsigner]

/-- The action swaps whenever the best quote is found. -/
theorem executes_iff {signer : Binary} (hsigner : deps.addrCanonicalize env.contract=.ok signer) :
    (∃ message stored, (Action.swap self).execute deps env=.ok ([message],stored) ∧ message.IsSwap) ↔
      ∃ quote, self.bestQuote deps env=.ok quote := by
  constructor
  · rintro ⟨message,stored,h,_⟩
    obtain ⟨r,hr,_⟩ := Except.map_eq_ok.mp h
    obtain ⟨quote,hquote,_⟩ := Except.bind_eq_ok.mp hr
    exact ⟨quote,hquote⟩
  · rintro ⟨quote,hquote⟩
    obtain ⟨j,hw⟩ := bestQuote_eq_ok hquote
    obtain ⟨route,_,hoffer⟩ := hw.made
    obtain ⟨message,hmessage,hswap⟩ := routeQuote_executes hsigner (Except.toOption_eq_some.mp hoffer)
    have hexecute : self.executeUnsafe deps env=.ok ([message],
        { self with routes := self.routes.map fun r => if r.sameKind quote.route then quote.route else r }) := by
      rw [executeUnsafe,hquote,Except.ok_bind,hmessage]
      rfl
    exact ⟨message,_,Except.map_eq_ok.mpr ⟨_,hexecute,rfl⟩,hswap⟩

theorem canSwap_satisfied_iff : (Condition.canSwap self).isSatisfied deps env=.ok true ↔
    ∃ quote, self.bestQuote deps env=.ok quote := by
  change Fault.isOkay (self.bestQuote deps env)=.ok true ↔ _
  cases self.bestQuote deps env with
  | ok quote => simp [Fault.isOkay]
  | error f => cases f <;> simp [Fault.isOkay,Fault.attempt]

/-! ### Quotes with and without the affiliate -/

/-- THORChain answers both requests of this swap alike, with the affiliate and without. -/
def AnsweredAlike (deps : Deps) : Prop := ∀ request : SwapQuoteRequest,
  deps.thorchainQuote { request with affiliate := ["rj"],affiliateBps := [10] }=deps.thorchainQuote request

/-- An error names the route, and so differs. -/
theorem getThorchainSwapQuote_affiliated {S : Type} {quote : SwapQuote S} {r : ThorchainRoute} (h : AnsweredAlike deps)
    (hr : quote.route=.thorchain r) : Alike (getThorchainSwapQuote deps { quote with route := affiliated quote.route })
      (getThorchainSwapQuote deps quote) := by
  simp only [getThorchainSwapQuote,SwapQuoteRequest.tryFrom,hr,affiliated,Except.ok_bind]
  exact alike_mapErr (h ⟨_,_,_,_,_,_,_,_,_⟩)

/-- `adjust` reads the route only for the output that it expects. -/
theorem adjust_affiliated (h : AnsweredAlike deps) (hfull : self.minimumReceiveAmount.amount<2^128) :
    Alike ((self.quoteFor env (affiliated route)).adjust deps env)
      ((fun adjusted => { adjusted with route := affiliated route }) <$> (self.quoteFor env route).adjust deps env) := by
  cases hb : deps.queryBalance env.contract self.swapAmount.denom with
  | error e => exact .of_eq (by simp [SwapQuote.adjust,quoteFor,hb])
  | ok coin =>
    by_cases hpos : min coin.amount self.swapAmount.amount=0
    · rw [adjust_nothing hb hpos,adjust_nothing hb hpos]
      exact .refl _
    cases hadj : self.adjustment with
    | fixed =>
      rw [adjust_fixed hb hpos hadj hfull,adjust_fixed hb hpos hadj hfull]
      exact .refl _
    | linearScalar base least scalar =>
      have hout : Alike ((affiliated route).getExpectedAmountOut deps (self.quoteFor env (affiliated route)))
          (route.getExpectedAmountOut deps (self.quoteFor env route)) := by
        cases route with
        | fin r => exact .refl _
        | thorchain r =>
          have hsame := @getThorchainSwapQuote_affiliated _ _ _ (self.quoteFor env (.thorchain r)) r h rfl
          exact hsame.bind fun _ _ => .refl _
      rw [adjust_linear hb hpos hadj,adjust_linear hb hpos hadj,Except.map_bind]
      refine hout.bind fun expected _ => .of_eq ?_
      rw [Except.map_ite]
      simp only [Except.map_bind,Except.map_ite]
      rfl

theorem validateAdjusted_affiliated (h : AnsweredAlike deps) (adjusted : SwapQuote Adjusted) :
    Alike (output <$> (affiliated adjusted.route).validateAdjusted deps env
        { adjusted with route := affiliated adjusted.route })
      (output <$> adjusted.route.validateAdjusted deps env adjusted) := by
  cases hr : adjusted.route with
  | fin r =>
    rw [affiliated,← hr]
    exact .refl _
  | thorchain r =>
    have hsame := getThorchainSwapQuote_affiliated h hr
    rw [hr] at hsame
    simp only [affiliated] at hsame
    simp only [affiliated,SwapRoute.validateAdjusted,ThorchainRoute.validateAdjusted]
    split_ifs
    · exact .refl _
    · rw [Except.map_bind,Except.map_bind]
      refine hsame.bind fun response _ => .of_eq ?_
      simp only [Except.map_ite,Except.map_bind]
      rfl

/-- The two forms of a route offer the same where THORChain answers them alike. -/
theorem routeQuote_affiliated (h : AnsweredAlike deps) (hfull : self.minimumReceiveAmount.amount<2^128) :
    Alike (output <$> self.withAffiliates.routeQuote deps env (affiliated route))
      (output <$> self.routeQuote deps env route) := by
  have hstart : self.withAffiliates.quoteFor env (affiliated route)=self.quoteFor env (affiliated route) := rfl
  rw [routeQuote,routeQuote,hstart,Except.map_bind,Except.map_bind]
  refine ((adjust_affiliated h hfull).bind fun _ _ => .refl _).trans ?_
  rw [bind_map_left]
  refine (Alike.refl _).bind fun adjusted hadjust => ?_
  have hroute : adjusted.route=route := by
    obtain ⟨coin,hcoin,_⟩ := Except.bind_eq_ok.mp hadjust
    exact (SwapQuote.adjust_eq_ok (query_eq_ok.mp hcoin) hadjust).route
  rw [← hroute]
  exact validateAdjusted_affiliated h adjusted

theorem bestQuote_affiliated (h : AnsweredAlike deps) (hfull : self.minimumReceiveAmount.amount<2^128) :
    (∃ quote, self.withAffiliates.bestQuote deps env=.ok quote) ↔ ∃ quote, self.bestQuote deps env=.ok quote := by
  have hpositive : ∀ x : Outcome (SwapQuote Executable), (∃ quote, x=.ok quote ∧ 0<output quote) ↔
      ∃ n, output <$> x=.ok n ∧ 0<n := fun x => by cases x <;> simp
  have hsettles : ∀ route, Settles (self.withAffiliates.routeQuote deps env (affiliated route)) ↔
      Settles (self.routeQuote deps env route) := fun route => by
    rw [← Fault.settles_map (f := output),(routeQuote_affiliated h hfull).settles,Fault.settles_map]
  simp only [bestQuote_ok_iff,withAffiliates_routes,List.mem_map,forall_exists_index,and_imp,forall_apply_eq_imp_iff₂,
    exists_exists_and_eq_and,hsettles,hpositive,(routeQuote_affiliated h hfull).returns]

/-! ### A market that tells the two forms apart -/

/-- The base price of a linear scalar is a decimal above zero. -/
def Quotable (self : Swap) : Prop := ∀ base least scalar, self.adjustment=.linearScalar base least scalar →
  0 < self.swapAmount.amount*Decimal.fractional/base.amount ∧ self.swapAmount.amount*Decimal.fractional/base.amount<2^128

theorem Quotable.of_routeQuote (h : self.routeQuote deps env route=.ok quote) : self.Quotable := by
  intro base least scalar hadj
  obtain ⟨adjusted,h,_⟩ := Except.bind_eq_ok.mp h
  obtain ⟨coin,hcoin,h'⟩ := Except.bind_eq_ok.mp h
  simp only [genericErr,Except.ite_error_eq_ok] at h'
  rw [adjust_linear (query_eq_ok.mp hcoin) h'.1 hadj] at h
  obtain ⟨expected,_,h⟩ := Except.bind_eq_ok.mp h
  obtain ⟨_,h⟩ := Except.ite_error_eq_ok.mp h
  obtain ⟨basePrice,hbase,h⟩ := Except.bind_eq_ok.mp h
  obtain ⟨currentPrice,_,h⟩ := Except.bind_eq_ok.mp h
  obtain ⟨delta,hdelta,_⟩ := Except.bind_eq_ok.mp h
  obtain ⟨_,hfits,rfl⟩ := Decimal.fromRatio_eq_ok.mp hbase
  exact ⟨Nat.pos_of_ne_zero (Decimal.div_eq_ok hdelta).1,hfits⟩

/-- One unit to sell, and no market but THORChain, which quotes the highest output to whoever does not come with
the affiliate. -/
def refusing : Deps :=
  { Deps.withBalance (fun _ _ => 1) with
    thorchainQuote := fun request => if request.affiliate=["rj"] ∧ request.affiliateBps=[10]
      then .error "refused" else .ok ⟨none,0,"swap",2^128-1,1⟩ }

theorem getThorchainSwapQuote_refusing {S : Type} {quote : SwapQuote S} {r : ThorchainRoute}
    (hr : quote.route=.thorchain r) : getThorchainSwapQuote refusing quote=
      if affiliated quote.route=quote.route then
        genericErr (s!"Failed to get L1 swap quote with {Crates.debugRoute quote.route}: " ++ "refused")
      else .ok ⟨none,0,"swap",2^128-1,1⟩ := by
  obtain ⟨interval,quantity,code,bps,latest⟩ := r
  have hiff : affiliated (.thorchain ⟨interval,quantity,code,bps,latest⟩)=.thorchain ⟨interval,quantity,code,bps,latest⟩ ↔
      (code.elim [] fun c => [c])=["rj"] ∧ (bps.elim [] fun b => [b])=[10] := by
    cases code <;> cases bps <;> simp [affiliated,eq_comm]
  rw [hr]
  simp only [getThorchainSwapQuote,SwapQuoteRequest.tryFrom,hr,Except.ok_bind,refusing,hiff]
  split_ifs <;> rfl

theorem validateAdjusted_refused {adjusted : SwapQuote Adjusted} (h : affiliated adjusted.route=adjusted.route) :
    ∃ e, adjusted.route.validateAdjusted refusing env adjusted=.error (.err e) := by
  cases hr : adjusted.route with
  | fin r =>
    rw [SwapRoute.validateAdjusted,FinRoute.validateAdjusted]
    split_ifs
    · exact ⟨_,rfl⟩
    · exact ⟨.notFound "simulation",rfl⟩
  | thorchain r =>
    rw [SwapRoute.validateAdjusted,ThorchainRoute.validateAdjusted,getThorchainSwapQuote_refusing hr,if_pos h]
    split_ifs
    · exact ⟨_,rfl⟩
    · exact ⟨_,rfl⟩

/-- A route that comes with the affiliate, or is no THORChain route, is not quoted. -/
theorem routeQuote_refused (hroute : affiliated route=route) (hfull : self.minimumReceiveAmount.amount<2^128) :
    ∃ e, self.routeQuote refusing env route=.error (.err e) := by
  have hb : refusing.queryBalance env.contract self.swapAmount.denom=.ok ⟨1,self.swapAmount.denom⟩ := rfl
  rw [routeQuote]
  by_cases hpos : min 1 self.swapAmount.amount=0
  · rw [adjust_nothing hb hpos]
    exact ⟨_,rfl⟩
  cases hadj : self.adjustment with
  | fixed =>
    rw [adjust_fixed hb hpos hadj hfull,Except.ok_bind]
    exact validateAdjusted_refused hroute
  | linearScalar base least scalar =>
    have hout : ∃ e, route.getExpectedAmountOut refusing (self.quoteFor env route)=.error (.err e) := by
      cases hr : route with
      | fin r => exact ⟨.notFound "simulation",rfl⟩
      | thorchain r =>
        rw [SwapRoute.getExpectedAmountOut,ThorchainRoute.getExpectedAmountOut,getThorchainSwapQuote_refusing rfl,
          if_pos (hr ▸ hroute)]
        exact ⟨_,rfl⟩
    obtain ⟨e,he⟩ := hout
    rw [adjust_linear hb hpos hadj,he]
    exact ⟨e,rfl⟩

theorem validateAdjusted_accepted {adjusted : SwapQuote Adjusted} (h : affiliated adjusted.route≠adjusted.route)
    (hpos : adjusted.swapAmount.amount≠0) (hmin : adjusted.minimumReceiveAmount.amount<2^128)
    (hheight : env.block.height+1<2^64) :
    ∃ quote, adjusted.route.validateAdjusted refusing env adjusted=.ok quote ∧ 0<output quote := by
  cases hr : adjusted.route with
  | fin r =>
    rw [hr] at h
    exact absurd rfl h
  | thorchain r =>
    have hless : ¬2^128-1<adjusted.minimumReceiveAmount.amount := by omega
    have hmore : ¬adjusted.swapAmount.amount<0 := by omega
    have hslips : ¬adjusted.maximumSlippageBps<(none : Option ℕ).getD 0 := Nat.not_lt_zero _
    rw [SwapRoute.validateAdjusted,ThorchainRoute.validateAdjusted,getThorchainSwapQuote_refusing hr,if_neg h,if_neg hpos,
      Except.ok_bind]
    dsimp only
    rw [if_neg hslips,if_neg hless,if_neg hmore,U64.add,fits_of_lt hheight]
    exact ⟨_,rfl,show 0<2^128-1 by decide⟩

/-- A THORChain route without the affiliate is quoted. -/
theorem routeQuote_accepted (hroute : affiliated route≠route) (hquotable : self.Quotable)
    (hswap : self.swapAmount.amount≠0) (hfull : self.minimumReceiveAmount.amount<2^128)
    (hscalar : ∀ base least scalar, self.adjustment=.linearScalar base least scalar → scalar.atomics<2^128)
    (hheight : env.block.height+1<2^64) : ∃ quote, self.routeQuote refusing env route=.ok quote ∧ 0<output quote := by
  have hb : refusing.queryBalance env.contract self.swapAmount.denom=.ok ⟨1,self.swapAmount.denom⟩ := rfl
  have hone : min 1 self.swapAmount.amount=1 := Nat.min_eq_left (Nat.one_le_iff_ne_zero.mpr hswap)
  have hpos : min 1 self.swapAmount.amount≠0 := by omega
  rw [routeQuote]
  cases hadj : self.adjustment with
  | fixed =>
    rw [adjust_fixed hb hpos hadj hfull,Except.ok_bind]
    have hratio := Decimal.ratio_le_one (Nat.min_le_right 1 self.swapAmount.amount)
    exact validateAdjusted_accepted hroute hpos ((Decimal.scale_le _ hratio).trans_lt hfull) hheight
  | linearScalar base least scalar =>
    obtain ⟨hbase,hfits⟩ := hquotable base least scalar hadj
    have hbase0 : base.amount≠0 := by
      intro h0
      rw [h0,Nat.div_zero] at hbase
      exact absurd hbase (by decide)
    have hout : route.getExpectedAmountOut refusing (self.quoteFor env route)=.ok (2^128-1) := by
      cases hr : route with
      | fin r =>
        rw [hr] at hroute
        exact absurd rfl hroute
      | thorchain r =>
        rw [SwapRoute.getExpectedAmountOut,ThorchainRoute.getExpectedAmountOut,getThorchainSwapQuote_refusing rfl,
          if_neg (hr ▸ hroute)]
        rfl
    obtain ⟨hx,hamount⟩ := Scaling.highest_output (x := self.scaling 1 (2^128-1) base least scalar) rfl rfl
      (Nat.pos_of_ne_zero hswap) hbase hfits (hscalar base least scalar hadj) hfull
    have hleft : (self.scaling 1 (2^128-1) base least scalar).amount≠0 := by omega
    rw [adjust_of_fits hb hpos hadj hbase0 hout (by decide) hx,if_neg hleft,Except.ok_bind]
    exact validateAdjusted_accepted hroute hleft (hx.minimum hleft) hheight

/-! ### The stored condition and the stored action -/

theorem guards_iff {signer : Binary} (hsigner : deps.addrCanonicalize env.contract=.ok signer) (other : Swap) :
    (Condition.canSwap self).Guards (.swap other) deps env ↔
      ((∃ quote, self.bestQuote deps env=.ok quote) ↔ ∃ quote, other.bestQuote deps env=.ok quote) := by
  rw [Condition.Guards,canSwap_satisfied_iff,executes_iff hsigner]

/-- The market that refuses the affiliate quotes a swap that has a THORChain route without it. -/
theorem bestQuote_refusing (hroute : ∃ route ∈ self.routes, affiliated route≠route) (hquotable : self.Quotable)
    (hswap : self.swapAmount.amount≠0) (hfull : self.minimumReceiveAmount.amount<2^128)
    (hscalar : ∀ base least scalar, self.adjustment=.linearScalar base least scalar → scalar.atomics<2^128)
    (hheight : env.block.height+1<2^64) : ∃ quote, self.bestQuote refusing env=.ok quote := by
  refine bestQuote_ok_iff.mpr ⟨fun route _ => ?_,?_⟩
  · by_cases h : affiliated route=route
    · obtain ⟨e,he⟩ : ∃ e, self.routeQuote refusing env route=.error (.err e) := routeQuote_refused h hfull
      rw [he]
      exact Fault.settles_err e
    · obtain ⟨quote,hquote,_⟩ := routeQuote_accepted h hquotable hswap hfull hscalar hheight
      rw [hquote]
      exact Fault.settles_ok quote
  · obtain ⟨route,hmem,h⟩ := hroute
    exact ⟨route,hmem,routeQuote_accepted h hquotable hswap hfull hscalar hheight⟩

theorem withAffiliates_bestQuote_refusing (hfull : self.minimumReceiveAmount.amount<2^128) :
    ¬∃ quote, self.withAffiliates.bestQuote refusing env=.ok quote := by
  intro h
  obtain ⟨_,route,hroute,quote,hquote,_⟩ := bestQuote_ok_iff.mp h
  rw [withAffiliates_routes] at hroute
  obtain ⟨r,_,rfl⟩ := List.mem_map.mp hroute
  have hminimum : self.withAffiliates.minimumReceiveAmount.amount<2^128 := hfull
  obtain ⟨e,he⟩ : ∃ e, self.withAffiliates.routeQuote refusing env (affiliated r)=.error (.err e) :=
    routeQuote_refused (affiliated_affiliated r) hminimum
  rw [he] at hquote
  cases hquote

theorem Quotable.of_bestQuote (h : ∃ quote, self.bestQuote deps env=.ok quote) : self.Quotable := by
  obtain ⟨_,route,_,quote,hquote,_⟩ := bestQuote_ok_iff.mp h
  exact .of_routeQuote hquote

section Stored

variable {deps₀ : Deps} {env₀ : Env} {affiliates : List Affiliate} {c : Condition} {a : Action} {i j : ℕ}
  {onSuccess onFailure next : Option ℕ}

theorem init_canSwap (hc : Node.init (.condition (.canSwap self) i onSuccess onFailure) deps₀ env₀ affiliates=
    .ok (.condition c i onSuccess onFailure)) : self.validate deps₀ env₀=.ok () ∧ c=.canSwap self := by
  obtain ⟨c',hc',h⟩ := Except.map_eq_ok.mp hc
  obtain ⟨_,hv,hc'⟩ := Except.bind_eq_ok.mp hc'
  cases hc'
  cases h
  exact ⟨hv,rfl⟩

theorem init_swap (ha : Node.init (.action (.swap self) j next) deps₀ env₀ affiliates=.ok (.action a j next)) :
    a=.swap self.withAffiliates := by
  obtain ⟨a',ha',h⟩ := Except.map_eq_ok.mp ha
  obtain ⟨s,hs,rfl⟩ := Except.map_eq_ok.mp ha'
  obtain ⟨_,_,hs⟩ := Except.bind_eq_ok.mp hs
  cases hs
  cases h
  rfl

/-- The stored condition guards the stored action in every state exactly when the affiliate changes no route, or
when no route is quoted in any state. It also does in each state in which THORChain answers both forms alike. -/
theorem canSwap_guards_iff
    (hc : Node.init (.condition (.canSwap self) i onSuccess onFailure) deps₀ env₀ affiliates=
      .ok (.condition c i onSuccess onFailure))
    (ha : Node.init (.action (.swap self) j next) deps₀ env₀ affiliates=.ok (.action a j next))
    (hfull : self.minimumReceiveAmount.amount<2^128)
    (hscalar : ∀ base least scalar, self.adjustment=.linearScalar base least scalar → scalar.atomics<2^128) :
    ((∀ deps env signer, deps.addrCanonicalize env.contract=.ok signer → c.Guards a deps env) ↔
      self.withAffiliates=self ∨ ¬self.Quotable) ∧
    ∀ deps env signer, deps.addrCanonicalize env.contract=.ok signer → AnsweredAlike deps → c.Guards a deps env := by
  obtain ⟨hv,rfl⟩ := init_canSwap hc
  obtain rfl := init_swap ha
  have hswap : self.swapAmount.amount≠0 := by
    rw [validate] at hv
    simp only [genericErr,Except.ite_error_eq_ok] at hv
    exact hv.1
  refine ⟨⟨fun h => ?_,?_⟩,fun deps env signer hsigner halike => ?_⟩
  · by_contra hcon
    rw [not_or,not_not,withAffiliates_eq_iff] at hcon
    obtain ⟨hroute,hquotable⟩ := hcon
    push Not at hroute
    have hsigner : refusing.addrCanonicalize "strategy"=.ok (asBytes "strategy") := rfl
    have hbest : ∃ quote, self.bestQuote refusing ⟨⟨1,⟨1⟩⟩,"strategy"⟩=.ok quote :=
      bestQuote_refusing hroute hquotable hswap hfull hscalar (by decide)
    have hstate := (guards_iff hsigner _).mp (h refusing ⟨⟨1,⟨1⟩⟩,"strategy"⟩ _ hsigner)
    exact withAffiliates_bestQuote_refusing hfull (hstate.mp hbest)
  · rintro (hsame | hnot) deps env signer hsigner
    · rw [hsame,guards_iff hsigner]
    · rw [guards_iff hsigner]
      refine iff_of_false (fun h => hnot (.of_bestQuote h)) fun h => ?_
      have hquotable : self.withAffiliates.Quotable := .of_bestQuote h
      exact hnot hquotable
  · rw [guards_iff hsigner]
    exact (bestQuote_affiliated halike hfull).symm

end Stored

end

section

attribute [local instance] Crates.plain

/-- Sell 10000 for no less than 9900 on THORChain. -/
def direct : Swap := ⟨⟨10000,"rune"⟩,⟨9900,"usd"⟩,300,.fixed,[.thorchain ⟨none,none,none,none,none⟩]⟩

/-- THORChain returns 9905, less the fee of the affiliate. -/
def charging : Deps :=
  { Deps.withBalance (fun _ _ => 20000) with
    thorchainQuote := fun request => .ok ⟨some 95,0,"swap",9905-9905*request.affiliateBps.sum/10000,1⟩ }

/-- The fee of the affiliate takes the swap below its minimum, but not the condition: the success branch is taken,
and then the swap fails. -/
theorem affiliate_fee_separates : ∃ c a,
    Node.init (.condition (.canSwap direct) 0 (some 1) none) charging ⟨⟨1,⟨1⟩⟩,"strategy"⟩ []=
      .ok (.condition c 0 (some 1) none) ∧
    Node.init (.action (.swap direct) 1 none) charging ⟨⟨1,⟨1⟩⟩,"strategy"⟩ []=.ok (.action a 1 none) ∧
    (Node.condition c 0 (some 1) none).nextIndex charging ⟨⟨1,⟨1⟩⟩,"strategy"⟩=.ok (some 1) ∧
    (∃ e, a.execute charging ⟨⟨1,⟨1⟩⟩,"strategy"⟩=.error (.err e)) ∧
    ¬c.Guards a charging ⟨⟨1,⟨1⟩⟩,"strategy"⟩ := by
  have hsatisfied : (Condition.canSwap direct).isSatisfied charging ⟨⟨1,⟨1⟩⟩,"strategy"⟩=.ok true := by decide +kernel
  have hfails : (Action.swap direct.withAffiliates).execute charging ⟨⟨1,⟨1⟩⟩,"strategy"⟩=
      .error (.err (.genericErr "No valid swap routes: ")) := by decide +kernel
  refine ⟨.canSwap direct,.swap direct.withAffiliates,by decide +kernel,by decide +kernel,by decide +kernel,⟨_,hfails⟩,?_⟩
  intro h
  obtain ⟨message,stored,hexecute,_⟩ := h.mp hsatisfied
  rw [hfails] at hexecute
  cases hexecute

/-- The same swap with the affiliate on its route. -/
def branded : Swap := { direct with routes := [.thorchain ⟨none,none,some "rj",some 10,none⟩] }

theorem canSwap_guards_iff_branded :
    (Condition.canSwap branded).Guards (.swap branded) charging ⟨⟨1,⟨1⟩⟩,"strategy"⟩ := by
  have hc : Node.init (.condition (.canSwap branded) 0 (some 1) none) charging ⟨⟨1,⟨1⟩⟩,"strategy"⟩ []=
      .ok (.condition (.canSwap branded) 0 (some 1) none) := by decide +kernel
  have ha : Node.init (.action (.swap branded) 1 none) charging ⟨⟨1,⟨1⟩⟩,"strategy"⟩ []=
      .ok (.action (.swap branded) 1 none) := by decide +kernel
  have hscalar : ∀ base least scalar, branded.adjustment=.linearScalar base least scalar → scalar.atomics<2^128 := by
    rintro _ _ _ ⟨⟩
  exact (canSwap_guards_iff hc ha (by decide) hscalar).1.mpr (.inl rfl) charging ⟨⟨1,⟨1⟩⟩,"strategy"⟩ _ rfl

end

end Swap
end CalcRs
