import CalcRs.CosmWasm.Coins

/-! The data types of the three contracts and of the interfaces they call. -/
namespace CalcRs

/-! ### Block and contract environment -/

structure BlockInfo where
  height : ℕ
  time : Timestamp
  deriving DecidableEq

structure Env where
  block : BlockInfo
  contract : Addr
  deriving DecidableEq

/-! ### FIN pairs -/

inductive Side where
  | base
  | quote
  deriving DecidableEq

structure Denoms where
  base : Denom
  quote : Denom
  deriving DecidableEq

structure ConfigResponse where
  denoms : Denoms
  tick : ℕ
  deriving DecidableEq

structure OrderResponse where
  side : Side
  price : Decimal
  offer : ℕ
  remaining : ℕ
  filled : ℕ
  deriving DecidableEq

structure BookItemResponse where
  price : Decimal
  total : ℕ
  deriving DecidableEq

structure BookResponse where
  base : List BookItemResponse
  quote : List BookItemResponse
  deriving DecidableEq

/-! ### THORChain -/

structure MsgDeposit where
  memo : String
  coins : List Coin
  signer : Binary
  deriving DecidableEq

structure SwapQuoteRequest where
  fromAsset : Denom
  toAsset : Denom
  amount : ℕ
  streamingInterval : ℕ
  streamingQuantity : ℕ
  destination : Addr
  refundAddress : Addr
  affiliate : List String
  affiliateBps : List ℕ
  deriving DecidableEq

/-- The fields of `thorchain::SwapQuote` that the routes read. -/
structure ThorchainSwapQuote where
  feesSlippageBps : Option ℕ
  recommendedMinAmountIn : ℕ
  memo : String
  expectedAmountOut : ℕ
  streamingSwapBlocks : ℕ
  deriving DecidableEq

/-! ### Manager registry -/

structure ManagerConfig where
  feeCollector : Addr
  strategyCodeId : ℕ
  deriving DecidableEq

inductive StrategyStatus where
  | active
  | paused
  | archived
  deriving DecidableEq

structure Affiliate where
  label : String
  address : Addr
  bps : ℕ
  deriving DecidableEq

structure Strategy where
  id : ℕ
  source : Option String
  owner : Addr
  contractAddress : Addr
  createdAt : ℕ
  updatedAt : ℕ
  label : String
  status : StrategyStatus
  deriving DecidableEq

/-! ### Actions -/

inductive Amount where
  | fixed (amount : ℕ)
  | fraction (percent : Decimal)
  deriving DecidableEq

inductive SwapAmountAdjustment where
  | fixed
  | linearScalar (baseReceiveAmount : Coin) (minimumSwapAmount : Option Coin) (scalar : Decimal)
  deriving DecidableEq

structure FinRoute where
  pairAddress : Addr
  deriving DecidableEq

structure StreamingSwap where
  swapAmount : Coin
  expectedReceiveAmount : Coin
  startingBlock : ℕ
  streamingSwapBlocks : ℕ
  memo : String
  deriving DecidableEq

structure ThorchainRoute where
  streamingInterval : Option ℕ
  maxStreamingQuantity : Option ℕ
  affiliateCode : Option String
  affiliateBps : Option ℕ
  latestSwap : Option StreamingSwap
  deriving DecidableEq

inductive SwapRoute where
  | fin (route : FinRoute)
  | thorchain (route : ThorchainRoute)
  deriving DecidableEq

structure Swap where
  swapAmount : Coin
  minimumReceiveAmount : Coin
  maximumSlippageBps : ℕ
  adjustment : SwapAmountAdjustment
  routes : List SwapRoute
  deriving DecidableEq

inductive Direction where
  | above
  | below
  deriving DecidableEq

inductive Offset where
  | exact (value : Decimal)
  | percent (percent : ℕ)
  deriving DecidableEq

inductive PriceStrategy where
  | fixed (price : Decimal)
  | offset (side : Side) (direction : Direction) (offset : Offset) (tolerance : Option Offset)
  deriving DecidableEq

structure StaleOrder where
  price : Decimal
  deriving DecidableEq

structure FinLimitOrder where
  pairAddress : Addr
  bidDenom : Denom
  bidAmount : Amount
  side : Side
  strategy : PriceStrategy
  minFillRatio : Option Decimal
  currentOrder : Option StaleOrder
  deriving DecidableEq

inductive Recipient where
  | bank (address : Addr)
  | contract (address : Addr) (msg : Binary)
  | deposit (memo : String)
  deriving DecidableEq

structure Destination where
  shares : ℕ
  recipient : Recipient
  label : Option String
  distributions : Option (List Coin)
  deriving DecidableEq

structure Distribution where
  denoms : List Denom
  destinations : List Destination
  deriving DecidableEq

inductive Action where
  | swap (swap : Swap)
  | limitOrder (order : FinLimitOrder)
  | distribute (distribution : Distribution)
  deriving DecidableEq

/-! ### Conditions -/

inductive Cadence where
  | blocks (interval : ℕ) (previous : Option ℕ)
  | time (duration : Duration) (previous : Option Timestamp)
  | cron (expr : String) (previous : Option Timestamp)
  deriving DecidableEq

structure Schedule where
  schedulerAddress : Addr
  managerAddress : Addr
  cadence : Cadence
  next : Option Cadence
  executionRebate : List Coin
  executors : List Addr
  jitter : Option Duration
  executions : Option ℕ
  maxExecutions : Option ℕ
  deriving DecidableEq

inductive PriceSource where
  | fin (address : Addr)
  | thorchain
  deriving DecidableEq

structure AssetValueRatio where
  numerator : Denom
  denominator : Denom
  ratio : Decimal
  tolerance : Decimal
  oracle : PriceSource
  deriving DecidableEq

inductive Condition where
  | timestampElapsed (timestamp : Timestamp)
  | blocksCompleted (height : ℕ)
  | schedule (schedule : Schedule)
  | canSwap (swap : Swap)
  | finLimitOrderFilled (owner : Option Addr) (pairAddress : Addr) (side : Side) (price : Decimal)
  | balanceAvailable (address : Option Addr) (amount : Coin)
  | strategyStatus (managerContract contractAddress : Addr) (status : StrategyStatus)
  | oraclePrice (asset : Denom) (direction : Direction) (price : Decimal)
  | assetValueRatio (ratio : AssetValueRatio)
  deriving DecidableEq

/-! ### Strategy graphs -/

inductive StrategyOperation where
  | execute
  | cancel
  deriving DecidableEq

inductive Node where
  | action (action : Action) (index : ℕ) (next : Option ℕ)
  | condition (condition : Condition) (index : ℕ) (onSuccess onFailure : Option ℕ)
  deriving DecidableEq

/-! ### Contract messages -/

structure Trigger where
  id : ℕ
  owner : Addr
  condition : Condition
  msg : Binary
  contractAddress : Addr
  executors : List Addr
  executionRebate : List Coin
  jitter : Option Duration
  deriving DecidableEq

structure CreateTriggerMsg where
  condition : Condition
  msg : Binary
  contractAddress : Addr
  executors : List Addr
  jitter : Option Duration
  deriving DecidableEq

inductive SchedulerExecuteMsg where
  | create (command : CreateTriggerMsg)
  | execute (ids : List ℕ)
  deriving DecidableEq

inductive ManagerExecuteMsg where
  | instantiate (source : Option String) (owner : Option Addr) (label : String)
      (affiliates : List Affiliate) (nodes : List Node)
  | execute (contractAddress : Addr)
  | updateStatus (contractAddress : Addr) (status : StrategyStatus)
  | update (contractAddress : Addr) (nodes : List Node)
  | updateLabel (contractAddress : Addr) (label : String)
  deriving DecidableEq

structure StrategyInstantiateMsg where
  contractAddress : Addr
  owner : Addr
  affiliates : List Affiliate
  nodes : List Node
  deriving DecidableEq

inductive StrategyExecuteMsg where
  | init (nodes : List Node)
  | execute
  | withdraw (amounts : List Coin)
  | update (nodes : List Node)
  | cancel
  | process (operation : StrategyOperation) (previous : Option ℕ)
  deriving DecidableEq

/-- The body of a contract call before serialisation. Bodies that a user supplied as bytes stay
bytes; the receiving contract parses them. -/
inductive Body where
  | finOrder (orders : List (Side × Decimal × Option ℕ))
  | finSwap (minReturn : ℕ)
  | scheduler (msg : SchedulerExecuteMsg)
  | manager (msg : ManagerExecuteMsg)
  | strategy (msg : StrategyExecuteMsg)
  | raw (msg : Binary)
  deriving DecidableEq

inductive CosmosMsg where
  | bankSend (toAddress : Addr) (amount : List Coin)
  | wasmExecute (contractAddr : Addr) (msg : Body) (funds : List Coin)
  | instantiate2 (admin : Option Addr) (codeId : ℕ) (label : String) (salt : ℕ)
      (msg : StrategyInstantiateMsg) (funds : List Coin)
  | deposit (msg : MsgDeposit)
  deriving DecidableEq

/-- The coins that go with a message. -/
def CosmosMsg.funds : CosmosMsg → List Coin
  | .bankSend _ amount => amount
  | .wasmExecute _ _ funds => funds
  | .instantiate2 _ _ _ _ _ funds => funds
  | .deposit msg => msg.coins

/-- When the emitter's `reply` entry point is called with the outcome of a message. -/
inductive ReplyOn where
  | always
  | error
  | success
  | never
  deriving DecidableEq

structure SubMsg where
  msg : CosmosMsg
  replyOn : ReplyOn
  id : ℕ
  deriving DecidableEq

/-! ### Code and state outside the repository -/

/-- What the contracts compute with third-party code: the `cron` crate, the denoms, ticks and assets
of `rujira-rs`, `DefaultHasher`, address derivation, JSON and the texts of derived formats. -/
class Crates where
  /-- `CronSchedule::from_str`, and on it `after(t).next()` from nanoseconds to seconds. -/
  cronAfter : String → Except String (ℤ → Option ℤ)
  /-- `Denoms::ask`: the denom that an order of this side is paid in. -/
  ask : Denoms → Side → Denom
  /-- `Tick::truncate_ceil` and `Tick::truncate_floor`; there is no value where their arithmetic panics. -/
  truncateCeil : ℕ → Decimal → Option Decimal
  truncateFloor : ℕ → Decimal → Option Decimal
  /-- `Asset::from_denom` followed by `to_layer_1`. -/
  layer1Asset : Denom → Except String String
  /-- The state of `DefaultHasher` as a function of the bytes written. -/
  hash : List UInt8 → ℕ
  /-- The address that `instantiate2` gives a code, a creator and a salt. -/
  instantiate2Address : ℕ → Addr → ℕ → Addr
  managerJson : ManagerExecuteMsg → Binary
  parseManager : Binary → Option ManagerExecuteMsg
  parseStrategy : Binary → Option StrategyExecuteMsg
  parseScheduler : Binary → Option SchedulerExecuteMsg
  /-- The entries of the `Order` message of a FIN pair. -/
  parseOrder : Binary → Option (List (Side × Decimal × Option ℕ))
  /-- `{}`, `{:?}` and `{:#?}` of types whose format is derived. -/
  displayError : StdError → String
  debugErrors : List StdError → String
  debugRoute : SwapRoute → String
  debugCondition : Condition → String
  debugConditionPretty : Condition → String

/-- `Deps`: the answers that queries get from the rest of the chain during one call. An error that is only
formatted is given as its text. -/
structure Deps where
  addrValidate : Addr → Bool
  addrCanonicalize : Addr → StdResult Binary
  queryBalance : Addr → Denom → StdResult Coin
  queryAllBalances : Addr → StdResult (List Coin)
  finConfig : Addr → StdResult ConfigResponse
  finOrder : Addr → Addr → Side → Decimal → StdResult OrderResponse
  finOrders : Addr → Addr → StdResult (List OrderResponse)
  finBook : Addr → ℕ → ℕ → StdResult BookResponse
  finSimulate : Addr → Coin → StdResult ℕ
  managerStrategy : Addr → Addr → StdResult Strategy
  thorchainQuote : SwapQuoteRequest → Except String ThorchainSwapQuote
  poolTorPrice : String → Except String Decimal
  codeExists : ℕ → Bool

/-- The full hours of the first 285 years, as a cron expression for them enumerates them. -/
def hourly (t : ℤ) : Option ℤ :=
  let next := max ((t/3600000000000+1)*3600) 0
  if next<9000000000 then some next else none

/-- Plain third-party code: every cron expression is hourly, prices are not truncated, and no bytes
parse as a message. -/
@[reducible] def Crates.plain : Crates where
  cronAfter _ := .ok hourly
  ask denoms side := match side with
    | .base => denoms.quote
    | .quote => denoms.base
  truncateCeil _ price := some price
  truncateFloor _ price := some price
  layer1Asset denom := .ok denom
  hash bytes := bytes.length
  instantiate2Address _ creator salt := s!"{creator}/{salt}"
  managerJson _ := []
  parseManager _ := none
  parseStrategy _ := none
  parseScheduler _ := none
  parseOrder _ := none
  displayError _ := ""
  debugErrors _ := ""
  debugRoute _ := ""
  debugCondition _ := ""
  debugConditionPretty _ := ""

/-- A chain on which every address is valid and no query is answered. -/
def Deps.silent : Deps where
  addrValidate _ := true
  addrCanonicalize address := .ok (asBytes address)
  queryBalance _ _ := .error (.notFound "balance")
  queryAllBalances _ := .error (.notFound "balances")
  finConfig _ := .error (.notFound "config")
  finOrder _ _ _ _ := .error (.notFound "order")
  finOrders _ _ := .error (.notFound "orders")
  finBook _ _ _ := .error (.notFound "book")
  finSimulate _ _ := .error (.notFound "simulation")
  managerStrategy _ _ := .error (.notFound "strategy")
  thorchainQuote _ := .error "no quote"
  poolTorPrice _ := .error "no pool"
  codeExists _ := true

/-- `silent`, with the balances answered. -/
def Deps.withBalance (balance : Addr → Denom → ℕ) : Deps :=
  { Deps.silent with queryBalance := fun address denom => .ok ⟨balance address denom,denom⟩ }

end CalcRs
