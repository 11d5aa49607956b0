import CalcRs.Model.Schedule
import CalcRs.Model.Swap
import CalcRs.Model.FinLimitOrder

/-! Conditions: `conditions/condition.rs` and `conditions/asset_value_ratio.rs`. -/
namespace CalcRs

variable [Crates]

/-- `fetch_l1_asset_price`. -/
def fetchL1AssetPrice (deps : Deps) (asset : Denom) : Outcome Decimal :=
  match Crates.layer1Asset asset with
  | .error e => genericErr s!"'{asset}' is not a valid asset: {e}"
  | .ok layer1Asset =>
    mapErr (fun e => s!"Failed to load oracle price for {layer1Asset}, error: {e}") (deps.poolTorPrice layer1Asset)

namespace AssetValueRatio

/-- `AssetValueRatio::validate`. -/
def validate (self : AssetValueRatio) (deps : Deps) : Outcome Unit :=
  match self.oracle with
  | .fin address => do
    let pair ← query (deps.finConfig address)
    let denoms := [pair.denoms.base,pair.denoms.quote]
    if self.numerator ∉ denoms then
      genericErr s!"Pair at {address} does not include asset {self.numerator}"
    else if self.denominator ∉ denoms then
      genericErr s!"Pair at {address} does not include asset {self.denominator}"
    else return ()
  | .thorchain => do
    let _ ← fetchL1AssetPrice deps self.numerator
    let _ ← fetchL1AssetPrice deps self.denominator
    return ()

/-- The price of the numerator relative to the denominator, as `is_satisfied` reads it. -/
def price (self : AssetValueRatio) (deps : Deps) : Outcome Decimal :=
  match self.oracle with
  | .fin address => do
    let midPrice ← getMidPrice deps address
    if midPrice.atomics=0 then genericErr "Mid price is zero"
    else
      let pair ← query (deps.finConfig address)
      if pair.denoms.base=self.numerator then Decimal.one.div midPrice else return midPrice
  | .thorchain => do
    let numeratorPrice ← fetchL1AssetPrice deps self.numerator
    let denominatorPrice ← fetchL1AssetPrice deps self.denominator
    match ← Fault.attempt (numeratorPrice.checkedDiv denominatorPrice) with
    | .ok price => return price
    | .error _ =>
      genericErr s!"Failed to calculate asset value ratio: L1 oracle price for '{self.denominator}' is zero"

/-- `AssetValueRatio::is_satisfied`. -/
def isSatisfied (self : AssetValueRatio) (deps : Deps) (env : Env) : Outcome Bool := do
  let numeratorBalance ← query (deps.queryBalance env.contract self.numerator)
  if numeratorBalance.amount=0 then return false
  else
    let denominatorBalance ← query (deps.queryBalance env.contract self.denominator)
    if denominatorBalance.amount=0 then return false
    else
      let price ← self.price deps
      let balanceRatio ← Decimal.fromRatio numeratorBalance.amount denominatorBalance.amount
      let valueRatio ← balanceRatio.mul price
      return decide (valueRatio.absDiff self.ratio < self.tolerance)

end AssetValueRatio

namespace Condition

/-- `Condition::size`. -/
def size : Condition → ℕ
  | .timestampElapsed _ => 1
  | .blocksCompleted _ => 1
  | .schedule _ => 2
  | .canSwap _ => 2
  | .finLimitOrderFilled .. => 2
  | .balanceAvailable .. => 1
  | .strategyStatus .. => 2
  | .oraclePrice .. => 2
  | .assetValueRatio _ => 2

/-- `Condition::is_satisfied`. -/
def isSatisfied (self : Condition) (deps : Deps) (env : Env) : Outcome Bool :=
  match self with
  | .timestampElapsed timestamp => .ok ((timestampElapsed timestamp).isReached env)
  | .blocksCompleted height => .ok ((blocksCompleted height).isReached env)
  | .schedule s => s.canExecute env
  | .canSwap swap => Fault.isOkay (swap.bestQuote deps env)
  | .finLimitOrderFilled owner pairAddress side price => do
    let order ← query (deps.finOrder pairAddress (owner.getD env.contract) side price)
    return decide (order.remaining=0)
  | .balanceAvailable address amount => do
    let balance ← query (deps.queryBalance (address.getD env.contract) amount.denom)
    return decide (amount.amount≤balance.amount)
  | .strategyStatus managerContract contractAddress status => do
    let strategy ← query (deps.managerStrategy managerContract contractAddress)
    return decide (strategy.status=status)
  | .oraclePrice asset direction price => do
    match Crates.layer1Asset asset with
    | .error e => genericErr s!"Denom ({asset}) not a valid asset: {e}"
    | .ok layer1Asset =>
      let oraclePrice ←
        mapErr (fun e => s!"Failed to load oracle price for {asset}, error: {e}") (deps.poolTorPrice layer1Asset)
      match direction with
      | .above => return decide (price<oraclePrice)
      | .below => return decide (oraclePrice<price)
  | .assetValueRatio ratio => ratio.isSatisfied deps env

/-- `Condition::init`. -/
def init (self : Condition) (deps : Deps) (env : Env) : Outcome Condition :=
  match self with
  | .schedule s => s.init deps
  | .balanceAvailable address _ =>
    match address with
    | none => .ok self
    | some address =>
      if deps.addrValidate address then .ok self
      else genericErr s!"Invalid address to check for balance: {address}"
  | .canSwap swap => do
    swap.validate deps env
    return self
  | .strategyStatus managerContract contractAddress _ => do
    let _ ← mapErr (fun e => s!"Failed to query strategy status for {contractAddress}: {Crates.displayError e}")
      (deps.managerStrategy managerContract contractAddress)
    return self
  | .finLimitOrderFilled _ pairAddress side price => do
    let pair ← query (deps.finConfig pairAddress)
    let limitOrder : FinLimitOrder := {
      pairAddress := pairAddress
      bidDenom := if side=.base then pair.denoms.base else pair.denoms.quote
      bidAmount := .fraction (Decimal.percent 100)
      side := side
      strategy := .fixed price
      minFillRatio := none
      currentOrder := none }
    let _ ← limitOrder.init
    return self
  | .oraclePrice asset _ _ =>
    match Crates.layer1Asset asset with
    | .error e => genericErr s!"Denom ({asset}) not a valid asset: {e}"
    | .ok _ => .ok self
  | .assetValueRatio ratio => do
    ratio.validate deps
    return self
  | .blocksCompleted _ => .ok self
  | .timestampElapsed _ => .ok self

/-- `Condition::execute`. -/
def execute (self : Condition) (deps : Deps) (env : Env) : Outcome (List CosmosMsg × Condition) :=
  match self with
  | .schedule s => s.executeUnsafe deps env
  | condition => .ok ([],condition)

/-- `Condition::commit`. -/
def commit : Condition → Outcome Condition
  | .schedule s => s.commit
  | condition => .ok condition

/-- `Condition::cancel`. -/
def cancel (self : Condition) : Outcome (List CosmosMsg × Condition) := .ok ([],self)

end Condition
end CalcRs
