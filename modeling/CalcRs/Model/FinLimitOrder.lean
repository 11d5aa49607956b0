import CalcRs.Model.Market

/-! The limit order action: `actions/limit_orders/fin_limit_order.rs`. -/
namespace CalcRs

namespace PriceStrategy

/-- `PriceStrategy::should_reset`. -/
def shouldReset (self : PriceStrategy) (currentPrice newPrice : Decimal) : Bool :=
  match self with
  | .fixed _ => currentPrice≠newPrice
  | .offset _ _ _ (some tolerance) =>
    let priceDelta := currentPrice.absDiff newPrice
    match tolerance with
    | .exact value => decide (value<priceDelta)
    | .percent percent => decide (currentPrice.saturatingMul (Decimal.percent percent)<priceDelta)
  | .offset _ _ _ none => currentPrice≠newPrice

/-- `PriceStrategy::get_new_price`. -/
def getNewPrice [Crates] (self : PriceStrategy) (deps : Deps) (pairAddress : Addr) : Outcome Decimal :=
  match self with
  | .fixed price => .ok price
  | .offset side direction delta _ => do
    let price ← getSidePrice deps pairAddress side
    match delta,direction with
    | .exact x,.above => return price.saturatingAdd x
    | .exact x,.below => return price.saturatingSub x
    | .percent x,.above => return price.saturatingMul (Decimal.percent (min (100+x) (2^64-1)))
    | .percent x,.below => return price.saturatingMul (Decimal.percent (100-x))

end PriceStrategy

structure UnsetOrder where
  remaining : ℕ
  withdrawing : ℕ

structure SettingOrder where
  price : Decimal
  offer : ℕ
  messages : List CosmosMsg

structure SetOrder where
  price : Decimal
  offer : ℕ
  remaining : ℕ
  filled : ℕ

structure WithdrawingOrder where
  withdrawing : ℕ
  remaining : ℕ
  messages : List CosmosMsg
  newPrice : Option Decimal

/-- The order message of one target at one price. -/
def orderMsg (config : FinLimitOrder) (price : Decimal) (target : ℕ) (funds : List Coin) : CosmosMsg :=
  .wasmExecute config.pairAddress (.finOrder [(config.side,price,some target)]) funds

/-- `StaleOrder::refresh`. -/
def StaleOrder.refresh (self : StaleOrder) (deps : Deps) (env : Env) (config : FinLimitOrder) :
    Outcome SetOrder := do
  let order ← query (deps.finOrder config.pairAddress env.contract config.side self.price)
  return ⟨self.price,order.offer,order.remaining,order.filled⟩

/-- Whether the order gives way to one at the new price, and the price it then has. -/
def FinLimitOrder.reprice (self : FinLimitOrder) (newPrice : Decimal) : Bool × Decimal :=
  match self.currentOrder with
  | some currentOrder =>
    let shouldReset := self.strategy.shouldReset currentOrder.price newPrice
    (shouldReset,if shouldReset then newPrice else currentOrder.price)
  | none => (true,newPrice)

/-- The offer out of what is available. -/
def FinLimitOrder.finalOffer (self : FinLimitOrder) (available : ℕ) : Outcome ℕ :=
  match self.bidAmount with
  | .fixed amount => .ok (min available amount)
  | .fraction percent => Uint128.mulFloor available percent

/-- `FinLimitOrderState::<UnsetOrder>::set`. -/
def UnsetOrder.set [Crates] (state : UnsetOrder) (config : FinLimitOrder) (deps : Deps) (env : Env) :
    Outcome SettingOrder := do
  let newPrice ← config.strategy.getNewPrice deps config.pairAddress
  let (shouldReset,price) := config.reprice newPrice
  let balance ← query (deps.queryBalance env.contract config.bidDenom)
  let orders ← query (deps.finOrders config.pairAddress env.contract)
  let remainingAndUnclaimed ← Uint128.sum (orders.map fun order =>
    if order.side=config.side then order.remaining else order.filled)
  let available ← Uint128.add balance.amount remainingAndUnclaimed
  let finalOffer ← config.finalOffer available
  let deployable ← Uint128.add balance.amount state.withdrawing
  let funding := min deployable finalOffer
  if funding=0 ∧ ¬shouldReset then return ⟨price,0,[]⟩
  else return ⟨price,finalOffer,[orderMsg config price finalOffer [⟨funding,config.bidDenom⟩]]⟩

/-- `FinLimitOrderState::<SettingOrder>::execute`. -/
def SettingOrder.execute (state : SettingOrder) : List CosmosMsg × SetOrder :=
  (state.messages,⟨state.price,state.offer,state.offer,0⟩)

/-- `FinLimitOrderState::<SetOrder>::withdraw`. -/
def SetOrder.withdraw (state : SetOrder) (config : FinLimitOrder) : WithdrawingOrder :=
  ⟨state.remaining,0,[orderMsg config state.price 0 []],none⟩

/-- `FinLimitOrderState::<SetOrder>::saturating_withdraw`. -/
def SetOrder.saturatingWithdraw [Crates] (state : SetOrder) (config : FinLimitOrder) (deps : Deps) :
    Outcome WithdrawingOrder := do
  let newPrice ← config.strategy.getNewPrice deps config.pairAddress
  let unfilledRatio ← Decimal.fromRatio state.remaining state.offer
  let filledRatio := Decimal.one.saturatingSub unfilledRatio
  let shouldReset := config.strategy.shouldReset state.price newPrice
  let price := if shouldReset then newPrice else state.price
  let shouldWithdraw := state.remaining=0 ∨
    (0 < state.filled ∧ config.minFillRatio.getD Decimal.zero≤filledRatio) ∨ shouldReset
  if shouldWithdraw then return { state.withdraw config with newPrice := some price }
  else return ⟨0,state.remaining,[],some price⟩

/-- `FinLimitOrderState::<WithdrawingOrder>::execute`. -/
def WithdrawingOrder.execute (state : WithdrawingOrder) : List CosmosMsg × UnsetOrder :=
  (state.messages,⟨state.remaining,state.withdrawing⟩)

namespace FinLimitOrder

/-- The messages about the existing order, and the order that is then to be set. -/
def withdrawExisting [Crates] (self : FinLimitOrder) (deps : Deps) (env : Env) :
    Outcome (List CosmosMsg × UnsetOrder) :=
  match self.currentOrder with
  | some existingOrder => do
    let refreshedOrder ← existingOrder.refresh deps env self
    let withdrawing ← refreshedOrder.saturatingWithdraw self deps
    return withdrawing.execute
  | none => .ok ([],⟨0,0⟩)

/-- `FinLimitOrder::execute_unsafe`. -/
def executeUnsafe [Crates] (self : FinLimitOrder) (deps : Deps) (env : Env) :
    Outcome (List CosmosMsg × FinLimitOrder) := do
  let (withdrawMessages,order) ← self.withdrawExisting deps env
  let setting ← order.set self deps env
  let (setMessages,setOrder) := setting.execute
  return (withdrawMessages ++ setMessages,{ self with currentOrder := some ⟨setOrder.price⟩ })

/-- The check of `init` on the bid amount. -/
def checkBidAmount (self : FinLimitOrder) : Outcome Unit :=
  match self.bidAmount with
  | .fixed amount =>
    if amount<100 then genericErr "Bid amount for limit order must be greater than or equal to 100" else .ok ()
  | .fraction percent =>
    if percent=Decimal.zero ∨ Decimal.percent 100<percent then
      genericErr "Bid amount fraction must be between 0 and 1"
    else .ok ()

/-- `FinLimitOrder::init`. -/
def init (self : FinLimitOrder) : Outcome FinLimitOrder := do
  self.checkBidAmount
  if self.currentOrder.isSome then
    genericErr "Cannot initialise a limit order action with a current price already set."
  else match self.minFillRatio with
    | some minFillRatio =>
      if Decimal.one < minFillRatio then genericErr "Minimum fill ratio cannot be greater than one"
      else return self
    | none => return self

/-- `FinLimitOrder::balances`. -/
def balances [Crates] (self : FinLimitOrder) (deps : Deps) (env : Env) : Outcome Coins := do
  let pair ← query (deps.finConfig self.pairAddress)
  let (remaining,filled) ← match self.currentOrder with
    | some existingOrder => do
      let orderState ← existingOrder.refresh deps env self
      pure (orderState.remaining,orderState.filled)
    | none => pure (0,0)
  Coins.tryFrom [⟨remaining,self.bidDenom⟩,⟨filled,Crates.ask pair.denoms self.side⟩]

/-- `FinLimitOrder::cancel`: the commit stage removes the current order. -/
def cancel (self : FinLimitOrder) (deps : Deps) (env : Env) : Outcome (List CosmosMsg × FinLimitOrder) := do
  match self.currentOrder with
  | some existingOrder =>
    let orderState ← existingOrder.refresh deps env self
    return ((orderState.withdraw self).execute.1,self)
  | none => return ([],self)

/-- `FinLimitOrder::commit`: wipes the cached order if it does not exist. -/
def commit (self : FinLimitOrder) (deps : Deps) (env : Env) : Outcome FinLimitOrder := do
  match self.currentOrder with
  | some existingOrder =>
    match ← Fault.attempt (existingOrder.refresh deps env self) with
    | .ok _ => return self
    | .error _ => return { self with currentOrder := none }
  | none => return self

end FinLimitOrder
end CalcRs
