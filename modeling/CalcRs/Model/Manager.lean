import CalcRs.Model.Scheduler

/-! The manager contract: `contracts/manager`. -/
namespace CalcRs

def BASE_FEE_BPS : ℕ := 25
def MIN_FEE_BPS : ℕ := 15
def MAX_TOTAL_AFFILIATE_BPS : ℕ := 200
def MAX_LABEL_LENGTH : ℕ := 100

/-- `StrategyStatus::as_str`. -/
def StrategyStatus.asStr : StrategyStatus → String
  | .active => "active"
  | .paused => "paused"
  | .archived => "archived"

structure ManagerStorage where
  config : ManagerConfig
  strategyCounter : ℕ
  strategies : Table Addr Strategy
  deriving DecidableEq

/-- The events of the manager contract, under their names after `calc-manager/strategy.`. -/
inductive ManagerEvent where
  | create (owner strategyAddress : Addr)
  | execute (executor strategyAddress : Addr)
  | update (strategyAddress : Addr)
  | updateStatus (status : String) (strategyAddress : Addr)
  | updateLabel (label : String) (strategyAddress : Addr)
  deriving DecidableEq

structure ManagerResponse where
  event : ManagerEvent
  messages : List SubMsg
  deriving DecidableEq

/-- `updated_at_cursor`: the number is padded with zeros to 30 digits. -/
def updatedAtCursor (updatedAt : ℕ) (contractAddress : Option Addr) : String :=
  let digits := (toString updatedAt).toList
  String.ofList (List.replicate (30-digits.length) '0' ++ digits) ++ "_" ++ contractAddress.getD ""

variable [Crates]

namespace ManagerContract

/-- `STRATEGIES.load`. -/
def load (storage : ManagerStorage) (contractAddress : Addr) : Outcome Strategy :=
  match storage.strategies.get? contractAddress with
  | some strategy => .ok strategy
  | none => .error (.err (.notFound "strategy"))

/-- `STRATEGIES.save`. -/
def save (storage : ManagerStorage) (contractAddress : Addr) (strategy : Strategy) : ManagerStorage :=
  { storage with strategies := storage.strategies.insert contractAddress strategy }

/-- The call of a strategy, as `add_message` sends it. -/
def callStrategy (contractAddress : Addr) (msg : StrategyExecuteMsg) (funds : List Coin) : SubMsg :=
  ⟨.wasmExecute contractAddress (.strategy msg) funds,.never,0⟩

def labelFits (label : String) : Bool := label.utf8ByteSize≠0 ∧ label.utf8ByteSize≤MAX_LABEL_LENGTH

/-- The checks on one affiliate, and the running total of their fees. -/
def checkAffiliate (deps : Deps) (acc : ℕ) (affiliate : Affiliate) : Outcome ℕ := do
  if labelFits affiliate.label=false then
    genericErr s!"Affiliate label must be between 1 and {MAX_LABEL_LENGTH} characters: {affiliate.label}"
  else if deps.addrValidate affiliate.address=false then
    genericErr s!"Invalid affiliate address: {affiliate.address}"
  else
    let total ← U64.add acc affiliate.bps
    if MAX_TOTAL_AFFILIATE_BPS<total then
      genericErr s!"Total affiliate bps cannot exceed {MAX_TOTAL_AFFILIATE_BPS}, got at least {total}"
    else return total

/-- The affiliates of a strategy: CALC first. -/
def withCalc (config : ManagerConfig) (affiliates : List Affiliate) (totalAffiliateBps : ℕ) : List Affiliate :=
  ⟨"CALC",config.feeCollector,max (BASE_FEE_BPS-totalAffiliateBps) MIN_FEE_BPS⟩ :: affiliates

/-- `ManagerExecuteMsg::Instantiate`. -/
def instantiateStrategy (deps : Deps) (env : Env) (info : MessageInfo) (storage : ManagerStorage)
    (source : Option String) (owner : Option Addr) (label : String) (affiliates : List Affiliate)
    (nodes : List Node) : Outcome (ManagerStorage × ManagerResponse) := do
  let owner := owner.getD info.sender
  if deps.addrValidate owner=false then genericErr s!"Invalid owner address: {owner}"
  else if labelFits label=false then
    genericErr s!"Strategy label must be between 1 and {MAX_LABEL_LENGTH} characters: {label}"
  else
    let totalAffiliateBps ← affiliates.foldlM (checkAffiliate deps) 0
    let affiliates := withCalc storage.config affiliates totalAffiliateBps
    let id ← U64.add storage.strategyCounter 1
    let salt := Crates.hash (asBytes owner ++ littleEndian 8 id ++ littleEndian 8 env.block.height)
    if deps.codeExists storage.config.strategyCodeId=false then
      .error (.err (.notFound "code info"))
    else
      let _ ← query (deps.addrCanonicalize env.contract)
      let contractAddress := Crates.instantiate2Address storage.config.strategyCodeId env.contract salt
      let strategy : Strategy := {
        id := id
        source := source
        owner := owner
        contractAddress := contractAddress
        createdAt := env.block.time.seconds
        updatedAt := env.block.time.seconds
        label := label
        status := .active }
      let initMessage : CosmosMsg := .instantiate2 (some owner) storage.config.strategyCodeId label salt
        ⟨contractAddress,owner,affiliates,nodes⟩ info.funds
      return (save { storage with strategyCounter := id } contractAddress strategy,
        ⟨.create owner contractAddress,[⟨initMessage,.never,0⟩]⟩)

/-- The message that a change of status sends to the strategy. -/
def statusMsg : StrategyStatus → StrategyExecuteMsg
  | .active => .execute
  | .paused => .cancel
  | .archived => .cancel

/-- `execute`. -/
def execute (deps : Deps) (env : Env) (info : MessageInfo) (storage : ManagerStorage) :
    ManagerExecuteMsg → Outcome (ManagerStorage × ManagerResponse)
  | .instantiate source owner label affiliates nodes =>
    instantiateStrategy deps env info storage source owner label affiliates nodes
  | .execute contractAddress => do
    let strategy ← load storage contractAddress
    if strategy.status≠.active then genericErr "Cannot execute paused strategy"
    else return (save storage contractAddress { strategy with updatedAt := env.block.time.seconds },
      ⟨.execute info.sender contractAddress,[callStrategy contractAddress .execute info.funds]⟩)
  | .update contractAddress nodes => do
    let strategy ← load storage contractAddress
    if strategy.owner≠info.sender then .error (.err .unauthorized)
    else return (save storage contractAddress { strategy with updatedAt := env.block.time.seconds },
      ⟨.update contractAddress,[callStrategy contractAddress (.update nodes) info.funds]⟩)
  | .updateStatus contractAddress status => do
    let strategy ← load storage contractAddress
    if strategy.owner≠info.sender then .error (.err .unauthorized)
    else return (save storage contractAddress
        { strategy with status := status,updatedAt := env.block.time.seconds },
      ⟨.updateStatus status.asStr contractAddress,
        [callStrategy contractAddress (statusMsg status) info.funds]⟩)
  | .updateLabel contractAddress label => do
    if labelFits label=false then
      genericErr s!"Strategy label must be between 1 and {MAX_LABEL_LENGTH} characters"
    else
      let strategy ← load storage contractAddress
      if strategy.owner≠info.sender then .error (.err .unauthorized)
      else return (save storage contractAddress { strategy with label := label },
        ⟨.updateLabel label contractAddress,[]⟩)

/-- The strategies under the prefix of the index that `ManagerQueryMsg::Strategies` chooses. -/
def partition (storage : ManagerStorage) (owner : Option Addr) (status : Option StrategyStatus) : List Strategy :=
  storage.strategies.values.filter fun s => owner.all (· = s.owner) ∧ status.all (· = s.status)

/-- The key of a strategy within each of the four indexes. -/
def indexKey (s : Strategy) : String := updatedAtCursor s.updatedAt (some s.contractAddress)

/-- `ManagerQueryMsg::Strategies`: the range of the index below the cursor, in descending order. -/
def strategies (storage : ManagerStorage) (owner : Option Addr) (status : Option StrategyStatus)
    (startAfter limit : Option ℕ) : List Strategy :=
  let sorted := (partition storage owner status).insertionSort fun a b => indexKey b ≤ indexKey a
  let below := sorted.filter fun s => startAfter.all fun updatedAt => indexKey s<updatedAtCursor updatedAt none
  below.take (limit.getD 30)

/-- `ManagerQueryMsg::StrategiesById`: the strategies at addresses above the cursor, in ascending order. -/
def strategiesById (storage : ManagerStorage) (startAfter : Option Addr) (limit : Option ℕ) : List Strategy :=
  ((storage.strategies.entries.filter fun e => startAfter.all (·<e.1)).map Prod.snd).take (limit.getD 30)

end ManagerContract
end CalcRs
