import CalcRs.Model.Market

/-! The swap action: `actions/swaps/swap.rs`, `fin.rs` and `thor.rs`. -/
namespace CalcRs

/-- The typestate `SwapQuote<S>`. -/
structure SwapQuote (S : Type) where
  swapAmount : Coin
  minimumReceiveAmount : Coin
  maximumSlippageBps : ℕ
  adjustment : SwapAmountAdjustment
  route : SwapRoute
  destination : Addr
  state : S
  deriving DecidableEq

structure New where
  deriving DecidableEq

structure Adjusted where
  deriving DecidableEq

structure Executable where
  expectedAmountOut : Coin
  deriving DecidableEq

/-- `SwapQuoteRequest::try_from`. -/
def SwapQuoteRequest.tryFrom {S : Type} (quote : SwapQuote S) : Outcome SwapQuoteRequest :=
  match quote.route with
  | .thorchain route => .ok {
      fromAsset := quote.swapAmount.denom
      toAsset := quote.minimumReceiveAmount.denom
      amount := quote.swapAmount.amount
      streamingInterval := route.streamingInterval.getD 3
      streamingQuantity := route.maxStreamingQuantity.getD 0
      destination := quote.destination
      refundAddress := quote.destination
      affiliate := route.affiliateCode.elim [] fun c => [c]
      affiliateBps := route.affiliateBps.elim [] fun b => [b] }
  | .fin _ => genericErr "Cannot convert non-Thorchain route to SwapQuoteRequest"

/-- `get_thorchain_swap_quote`. -/
def getThorchainSwapQuote [Crates] {S : Type} (deps : Deps) (quote : SwapQuote S) : Outcome ThorchainSwapQuote := do
  let request ← SwapQuoteRequest.tryFrom quote
  mapErr (fun e => s!"Failed to get L1 swap quote with {Crates.debugRoute quote.route}: {e}") (deps.thorchainQuote request)

namespace FinRoute

/-- `FinRoute::validate`. -/
def validate (self : FinRoute) (deps : Deps) (route : SwapQuote New) : Outcome Unit := do
  let pair ← query (deps.finConfig self.pairAddress)
  let denoms := [pair.denoms.base,pair.denoms.quote]
  if route.swapAmount.denom ∉ denoms then
    genericErr s!"Pair at {self.pairAddress} does not support swapping from {route.swapAmount.denom}"
  else if route.minimumReceiveAmount.denom ∉ denoms then
    genericErr s!"Pair at {self.pairAddress} does not support swapping into {route.minimumReceiveAmount.denom}"
  else return ()

/-- `FinRoute::get_expected_amount_out`. -/
def getExpectedAmountOut (self : FinRoute) (deps : Deps) (quote : SwapQuote New) : Outcome ℕ :=
  query (deps.finSimulate self.pairAddress quote.swapAmount)

/-- `FinRoute::validate_adjusted`. -/
def validateAdjusted [Crates] (self : FinRoute) (deps : Deps) (_env : Env) (route : SwapQuote Adjusted) :
    Outcome (SwapQuote Executable) := do
  if route.swapAmount.amount=0 then genericErr "Swap amount after adjustment is zero"
  else
    let returned ← query (deps.finSimulate self.pairAddress route.swapAmount)
    let expectedAmountOut : Coin := ⟨returned,route.minimumReceiveAmount.denom⟩
    if expectedAmountOut.amount < route.minimumReceiveAmount.amount then
      genericErr s!"Expected amount out {expectedAmountOut.amount} for swapping {route.swapAmount.amount} is less than minimum receive amount {route.minimumReceiveAmount.amount}"
    else
      let midPrice ← getMidPrice deps self.pairAddress
      let pair ← query (deps.finConfig self.pairAddress)
      let spotPrice ← if route.swapAmount.denom=pair.denoms.base then Decimal.one.div midPrice else .ok midPrice
      let rate ← Decimal.one.div spotPrice
      let optimal ← Uint128.mulFloor route.swapAmount.amount rate
      let optimalReturnAmount := max expectedAmountOut.amount optimal
      let ratio ← Decimal.fromRatio expectedAmountOut.amount optimalReturnAmount
      let loss ← Fault.unwrapOr (Decimal.one.checkedSub ratio) Decimal.one
      let slippageBps ← Uint128.mulCeil 10000 loss
      if route.maximumSlippageBps < slippageBps then
        genericErr s!"Slippage of {slippageBps} bps exceeds maximum allowed of {route.maximumSlippageBps} bps"
      else return {
        swapAmount := route.swapAmount
        minimumReceiveAmount := route.minimumReceiveAmount
        maximumSlippageBps := route.maximumSlippageBps
        adjustment := route.adjustment
        route := route.route
        destination := route.destination
        state := ⟨expectedAmountOut⟩ }

/-- `FinRoute::execute`. -/
def execute (self : FinRoute) (swapAmount minimumReceiveAmount : Coin) : Outcome CosmosMsg :=
  .ok (.wasmExecute self.pairAddress (.finSwap minimumReceiveAmount.amount) [swapAmount])

end FinRoute

namespace ThorchainRoute

/-- `ThorchainRoute::validate`. -/
def validate (self : ThorchainRoute) : Outcome Unit := do
  match self.streamingInterval with
  | some interval =>
    if interval=0 then genericErr "Streaming interval cannot be zero"
    else if 50 < interval then genericErr "Streaming interval cannot exceed 50 blocks"
    else pure ()
  | none => pure ()
  match self.maxStreamingQuantity with
  | some quantity =>
    if quantity=0 then genericErr "Maximum streaming quantity cannot be zero"
    else if 14400<quantity then genericErr "Maximum streaming quantity cannot exceed 14,400"
    else pure ()
  | none => pure ()

/-- `ThorchainRoute::get_expected_amount_out`. -/
def getExpectedAmountOut [Crates] (deps : Deps) (quote : SwapQuote New) : Outcome ℕ := do
  let response ← getThorchainSwapQuote deps quote
  return response.expectedAmountOut

/-- `ThorchainRoute::validate_adjusted`. -/
def validateAdjusted [Crates] (self : ThorchainRoute) (deps : Deps) (env : Env) (quote : SwapQuote Adjusted) :
    Outcome (SwapQuote Executable) := do
  if quote.swapAmount.amount=0 then genericErr "Swap amount cannot be zero"
  else
    let adjustedQuote ← getThorchainSwapQuote deps quote
    let slippageBps := adjustedQuote.feesSlippageBps.getD 0
    if quote.maximumSlippageBps < slippageBps then
      genericErr s!"Slippage BPS ({slippageBps}) exceeds maximum allowed ({quote.maximumSlippageBps})"
    else if adjustedQuote.expectedAmountOut<quote.minimumReceiveAmount.amount then
      genericErr s!"Expected amount out ({adjustedQuote.expectedAmountOut}) is less than minimum receive amount ({quote.minimumReceiveAmount.amount})"
    else if quote.swapAmount.amount<adjustedQuote.recommendedMinAmountIn then
      genericErr s!"Recommended min amount in ({adjustedQuote.recommendedMinAmountIn}) is greater than swap amount ({quote.swapAmount.amount})"
    else
      let startingBlock ← U64.add env.block.height 1
      let expected : Coin := ⟨adjustedQuote.expectedAmountOut,quote.minimumReceiveAmount.denom⟩
      return {
        swapAmount := quote.swapAmount
        minimumReceiveAmount := quote.minimumReceiveAmount
        maximumSlippageBps := quote.maximumSlippageBps
        adjustment := quote.adjustment
        route := .thorchain { self with latestSwap := some {
          swapAmount := quote.swapAmount
          expectedReceiveAmount := expected
          startingBlock := startingBlock
          streamingSwapBlocks := adjustedQuote.streamingSwapBlocks
          memo := adjustedQuote.memo } }
        destination := quote.destination
        state := ⟨expected⟩ }

/-- `ThorchainRoute::execute`. -/
def execute (self : ThorchainRoute) (deps : Deps) (env : Env) (swapAmount : Coin) : Outcome CosmosMsg := do
  match self.latestSwap with
  | none => genericErr "No current swap found to execute"
  | some currentSwap =>
    let signer ← query (deps.addrCanonicalize env.contract)
    return .deposit ⟨currentSwap.memo,[swapAmount],signer⟩

end ThorchainRoute

namespace SwapRoute

def validate (self : SwapRoute) (deps : Deps) (quote : SwapQuote New) : Outcome Unit :=
  match self with
  | .fin route => route.validate deps quote
  | .thorchain route => route.validate

def getExpectedAmountOut [Crates] (self : SwapRoute) (deps : Deps) (quote : SwapQuote New) : Outcome ℕ :=
  match self with
  | .fin route => route.getExpectedAmountOut deps quote
  | .thorchain _ => ThorchainRoute.getExpectedAmountOut deps quote

def validateAdjusted [Crates] (self : SwapRoute) (deps : Deps) (env : Env) (quote : SwapQuote Adjusted) :
    Outcome (SwapQuote Executable) :=
  match self with
  | .fin route => route.validateAdjusted deps env quote
  | .thorchain route => route.validateAdjusted deps env quote

def execute (self : SwapRoute) (deps : Deps) (env : Env) (swapAmount minimumReceiveAmount : Coin) :
    Outcome CosmosMsg :=
  match self with
  | .fin route => route.execute swapAmount minimumReceiveAmount
  | .thorchain route => route.execute deps env swapAmount

/-- Equality of `std::mem::discriminant`. -/
def sameKind : SwapRoute → SwapRoute → Bool
  | .fin _,.fin _ => true
  | .thorchain _,.thorchain _ => true
  | _,_ => false

end SwapRoute

/-- `SwapQuote::<New>::adjust`. -/
def SwapQuote.adjust [Crates] (self : SwapQuote New) (deps : Deps) (env : Env) : Outcome (SwapQuote Adjusted) := do
  let swapBalance ← query (deps.queryBalance env.contract self.swapAmount.denom)
  let swapAmount : Coin := ⟨min swapBalance.amount self.swapAmount.amount,self.swapAmount.denom⟩
  if swapAmount.amount=0 then genericErr "Available swap amount is zero"
  else
    let (newSwapAmount,newMinimumReceiveAmount) ← match self.adjustment with
      | .fixed => do
        let ratio ← Decimal.fromRatio swapAmount.amount self.swapAmount.amount
        let minimumReceiveAmount ← Uint128.mulFloor self.minimumReceiveAmount.amount ratio
        pure (swapAmount,minimumReceiveAmount)
      | .linearScalar baseReceiveAmount minimumSwapAmount scalar => do
        let expectedAmountOut ← self.route.getExpectedAmountOut deps self
        if expectedAmountOut=0 then genericErr "Expected amount out is zero"
        else
          let basePrice ← Decimal.fromRatio self.swapAmount.amount baseReceiveAmount.amount
          let currentPrice ← Decimal.fromRatio swapAmount.amount expectedAmountOut
          let priceDelta ← (basePrice.absDiff currentPrice).div basePrice
          let scaledPriceDelta ← priceDelta.mul scalar
          let scaledSwapAmount ← if currentPrice<basePrice
            then Uint128.mulFloor swapAmount.amount (Decimal.one.saturatingAdd scaledPriceDelta)
            else Uint128.mulFloor swapAmount.amount (Decimal.one.saturatingSub scaledPriceDelta)
          let newAmount := min swapBalance.amount
            (max scaledSwapAmount (minimumSwapAmount.elim 0 Coin.amount))
          if newAmount=0 then genericErr "Swap amount after adjustment is zero"
          else
            let ratio ← Decimal.fromRatio newAmount self.swapAmount.amount
            let minimumReceiveAmount ← Uint128.mulCeil self.minimumReceiveAmount.amount ratio
            pure (⟨newAmount,self.swapAmount.denom⟩,minimumReceiveAmount)
    return {
      swapAmount := newSwapAmount
      minimumReceiveAmount := ⟨newMinimumReceiveAmount,self.minimumReceiveAmount.denom⟩
      maximumSlippageBps := self.maximumSlippageBps
      adjustment := self.adjustment
      route := self.route
      destination := self.destination
      state := ⟨⟩ }

namespace Swap

/-- The quote each route starts from. -/
def quoteFor (self : Swap) (env : Env) (route : SwapRoute) : SwapQuote New where
  swapAmount := self.swapAmount
  minimumReceiveAmount := self.minimumReceiveAmount
  maximumSlippageBps := self.maximumSlippageBps
  adjustment := self.adjustment
  route := route
  destination := env.contract
  state := ⟨⟩

/-- The checks of `Swap::validate` on a linear scalar. -/
def validateAdjustment (self : Swap) : Outcome Unit :=
  match self.adjustment with
  | .fixed => .ok ()
  | .linearScalar baseReceiveAmount minimumSwapAmount _ =>
    if baseReceiveAmount.amount=0 then genericErr "Base receive amount cannot be zero"
    else if baseReceiveAmount.denom≠self.minimumReceiveAmount.denom then
      genericErr "Base receive amount denom must match minimum receive amount denom"
    else match minimumSwapAmount with
      | none => .ok ()
      | some minimum =>
        if minimum.denom≠self.swapAmount.denom then
          genericErr "Minimum swap amount denom must match swap amount denom"
        else .ok ()

/-- `Swap::validate`. -/
def validate (self : Swap) (deps : Deps) (env : Env) : Outcome Unit := do
  if self.swapAmount.amount=0 then genericErr "Swap amount cannot be zero"
  else if 10000 < self.maximumSlippageBps then
    genericErr "Maximum slippage basis points cannot exceed 10,000"
  else if self.routes.isEmpty then genericErr "No swap routes provided"
  else
    self.validateAdjustment
    self.routes.forM fun route => route.validate deps (self.quoteFor env route)

/-- `Swap::with_affiliates`. -/
def withAffiliates (self : Swap) : Swap :=
  { self with routes := self.routes.map fun route => match route with
      | .thorchain thorRoute =>
        .thorchain { thorRoute with affiliateCode := some "rj",affiliateBps := some 10 }
      | .fin finRoute => .fin finRoute }

/-- One iteration of the loop of `best_quote`: adjust, then validate. -/
def routeQuote [Crates] (self : Swap) (deps : Deps) (env : Env) (route : SwapRoute) :
    Outcome (SwapQuote Executable) := do
  let adjusted ← (self.quoteFor env route).adjust deps env
  adjusted.route.validateAdjusted deps env adjusted

/-- The loop of `best_quote` over the routes that are left, with the errors of those before. -/
def bestOf [Crates] (self : Swap) (deps : Deps) (env : Env) : List SwapRoute → Option (SwapQuote Executable) → ℕ →
    List StdError → Outcome (Option (SwapQuote Executable) × List StdError)
  | [],best,_,quoteErrors => .ok (best,quoteErrors)
  | route :: rest,best,bestAmount,quoteErrors => do
    match ← Fault.attempt (self.routeQuote deps env route) with
    | .ok quote =>
      if bestAmount<quote.state.expectedAmountOut.amount then
        bestOf self deps env rest (some quote) quote.state.expectedAmountOut.amount quoteErrors
      else bestOf self deps env rest best bestAmount quoteErrors
    | .error err => bestOf self deps env rest best bestAmount (quoteErrors ++ [err])

/-- `Swap::best_quote`. -/
def bestQuote [Crates] (self : Swap) (deps : Deps) (env : Env) : Outcome (SwapQuote Executable) := do
  match ← self.bestOf deps env self.routes none 0 [] with
  | (some quote,_) => return quote
  | (none,quoteErrors) => genericErr s!"No valid swap routes: {Crates.debugErrors quoteErrors}"

/-- `Swap::execute_unsafe`. -/
def executeUnsafe [Crates] (self : Swap) (deps : Deps) (env : Env) : Outcome (List CosmosMsg × Swap) := do
  let quote ← self.bestQuote deps env
  let swapMessage ← quote.route.execute deps env quote.swapAmount quote.minimumReceiveAmount
  let updatedRoutes := self.routes.map fun r => if r.sameKind quote.route then quote.route else r
  return ([swapMessage],{ self with routes := updatedRoutes })

/-- `Swap::init`. -/
def init (self : Swap) (deps : Deps) (env : Env) : Outcome Swap := do
  self.validate deps env
  return self.withAffiliates

end Swap
end CalcRs
