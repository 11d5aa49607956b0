import CalcRs.Foundation.Kahn
import CalcRs.Model.Node

/-! The strategy contract: `contracts/strategy`. -/
namespace CalcRs

def MAX_STRATEGY_SIZE : ℕ := 50

structure MessageInfo where
  sender : Addr
  funds : List Coin
  deriving DecidableEq

structure StrategyStorage where
  manager : Addr
  owner : Addr
  affiliates : List Affiliate
  deposits : List Coin
  withdrawals : List Coin
  nodes : Table ℕ Node
  path : Option (List String)
  deriving DecidableEq

/-- The events of the strategy contract, under their names after `calc-strategy/`. -/
inductive StrategyEvent where
  | init
  | execute
  | update
  | withdraw
  | cancel
  | processNodeMessages (nodeIndex : ℕ) (messages : List CosmosMsg)
  | processNodeError (nodeIndex : ℕ) (error : StdError)
  | processNodeResult (nodeIndex : ℕ) (error : Option String)
  | process (operation : StrategyOperation) (path : String)
  deriving DecidableEq

structure StrategyResponse where
  events : List StrategyEvent
  messages : List SubMsg
  deriving DecidableEq

/-- `Contract::call` on the contract itself, as `add_message` sends it. -/
def callSelf (env : Env) (msg : StrategyExecuteMsg) : SubMsg :=
  ⟨.wasmExecute env.contract (.strategy msg) [],.never,0⟩

variable [Crates]

namespace NodeStore

/-- What the loop of `NodeStore::init` accumulates. -/
structure InitState where
  store : Table ℕ Node
  adjList : ℕ → List ℕ
  inDegrees : ℕ → ℕ
  strategySize : ℕ

/-- `NodeStore::save`. -/
def save (store : Table ℕ Node) (node : Node) : Table ℕ Node := store.insert node.index node

/-- `NodeStore::load`. -/
def load (store : Table ℕ Node) (index : ℕ) : Outcome Node :=
  match store.get? index with
  | some node => .ok node
  | none => .error (.err (.notFound "node"))

/-- `NodeStore::all`. -/
def all (store : Table ℕ Node) : List Node := store.values

/-- An edge of the graph, when the node has it. -/
def edge (target : Option ℕ) (what : String) (nodeCount : ℕ) : Outcome (List ℕ) :=
  match target with
  | none => .ok []
  | some target =>
    if (nodeCount-1)%2^16<target then
      genericErr s!"{what} node index {target} exceeds total node count {nodeCount}"
    else .ok [target]

/-- Only a schedule may have no branch. -/
def checkBranches (condition : Condition) (onSuccess onFailure : Option ℕ) : Outcome Unit :=
  if onFailure.isNone ∧ onSuccess.isNone then
    match condition with
    | .schedule _ => .ok ()
    | _ => genericErr "Condition nodes must have at least one branch defined"
  else .ok ()

/-- The edges of a node. -/
def edges (nodeCount : ℕ) : Node → Outcome (List ℕ)
  | .action _ _ next => edge next "Next" nodeCount
  | .condition condition _ onSuccess onFailure => do
    checkBranches condition onSuccess onFailure
    let success ← edge onSuccess "On success" nodeCount
    let failure ← edge onFailure "On fail" nodeCount
    return success ++ failure

/-- One round of the loop of `NodeStore::init`. -/
def initNode (deps : Deps) (env : Env) (affiliates : List Affiliate) (nodeCount : ℕ) (state : InitState)
    (entry : Node × ℕ) : Outcome InitState := do
  let (node,i) := entry
  if node.index≠i%2^16 then
    genericErr s!"Node index mismatch: expected {i}, got {node.index}"
  else
    let targets ← edges nodeCount node
    let initialisedNode ← node.init deps env affiliates
    return {
      store := save state.store initialisedNode
      adjList := Function.update state.adjList i targets
      inDegrees := targets.foldl (fun degrees t => Function.update degrees t (degrees t+1)) state.inDegrees
      strategySize := state.strategySize+initialisedNode.size }

/-- `NodeStore::init`: keys of earlier node lists stay in the store. -/
def init (deps : Deps) (env : Env) (affiliates : List Affiliate) (store : Table ℕ Node) (nodes : List Node) :
    Outcome (Table ℕ Node) := do
  let nodeCount := nodes.length
  let state ← nodes.zipIdx.foldlM (initNode deps env affiliates nodeCount) ⟨store,fun _ => [],fun _ => 0,0⟩
  if MAX_STRATEGY_SIZE < state.strategySize then
    genericErr s!"Strategy size exceeds maximum limit of {MAX_STRATEGY_SIZE}"
  else
    -- every vertex is pushed at most once, so the loop ends within this gas
    let processedCount ← Kahn.walk state.adjList (nodeCount+1) state.inDegrees
      (Kahn.sources nodeCount state.inDegrees) 0
    if processedCount≠nodeCount then
      genericErr "Strategy contains a cycle that could cause infinite recursion"
    else return state.store

/-- `NodeStore::get_next`. -/
def getNext (deps : Deps) (env : Env) (store : Table ℕ Node) (operation : StrategyOperation) (current : Node) :
    Outcome Node := do
  if operation≠.execute then load store (← fits 16 (current.index+1))
  else
    match ← current.nextIndex deps env with
    | some next => load store next
    | none => genericErr "No next node found for the current node"

end NodeStore

namespace StrategyContract

/-- How one `Process` call ends. -/
inductive Progress where
  | messages (index : ℕ) (messages : List CosmosMsg) (previous : ℕ)
  | failed (index : ℕ) (error : StdError)
  | finished (path : List String)
  deriving DecidableEq

/-- A node as the run leaves it, with the state in which its successor is chosen. -/
structure Visit where
  node : Node
  deps : Deps
  env : Env

/-- The result of a `Process` call. `executed` and `left` are its history: the nodes executed, as
they were stored before, and the nodes whose successor was chosen. -/
structure Processed where
  nodes : Table ℕ Node
  path : Option (List String)
  progress : Progress
  executed : List Node
  left : List Visit

/-- The `execute` or `cancel` of a node. -/
def run (operation : StrategyOperation) (node : Node) (deps : Deps) (env : Env) : Outcome (List CosmosMsg × Node) :=
  match operation with
  | .execute => node.execute deps env
  | .cancel => node.cancel deps env

/-- The `while let` loop of `Process`. -/
def processLoop (deps : Deps) (env : Env) (operation : StrategyOperation) :
    ℕ → Table ℕ Node → Option (List String) → List String → Option Node → Outcome Processed
  | 0,_,_,_,_ => .error .outOfGas
  | _+1,nodes,stored,path,none => .ok ⟨nodes,stored,.finished path,[],[]⟩
  | gas+1,nodes,stored,path,some currentNode => do
    let index := currentNode.index
    let path := path ++ [toString index]
    match ← Fault.attempt (run operation currentNode deps env) with
    | .ok (messages,node) =>
      let nodes := NodeStore.save nodes node
      if messages≠[] then return ⟨nodes,some path,.messages index messages node.index,[currentNode],[]⟩
      else
        let nextNode ← Fault.okay (NodeStore.getNext deps env nodes operation node)
        let rest ← processLoop deps env operation gas nodes stored path nextNode
        return { rest with executed := currentNode :: rest.executed,left := ⟨node,deps,env⟩ :: rest.left }
    | .error error =>
      return ⟨NodeStore.save nodes currentNode,some path,.failed index error,[currentNode],[]⟩

/-- `StrategyExecuteMsg::Process` before its response is built. -/
def process (gas : ℕ) (deps : Deps) (env : Env) (storage : StrategyStorage) (operation : StrategyOperation)
    (previous : Option ℕ) : Outcome Processed :=
  match previous with
  | none => do
    let nextNode ← Fault.okay (NodeStore.load storage.nodes 0)
    processLoop deps env operation gas storage.nodes storage.path [] nextNode
  | some previous => do
    let previousNode ← NodeStore.load storage.nodes previous
    let nextNode ← Fault.okay (NodeStore.getNext deps env storage.nodes operation previousNode)
    let updatedNode ← previousNode.commit deps env
    let nodes := NodeStore.save storage.nodes updatedNode
    match storage.path with
    | none => .error (.err (.notFound "path"))
    | some path =>
      let rest ← processLoop deps env operation gas nodes storage.path path nextNode
      return { rest with left := ⟨previousNode,deps,env⟩ :: rest.left }

/-- The response of a `Process` call. -/
def processResponse (env : Env) (operation : StrategyOperation) : Progress → StrategyResponse
  | .messages index messages previous =>
    ⟨[.processNodeMessages index messages],
      messages.map (fun message => ⟨message,.always,index⟩) ++ [callSelf env (.process operation (some previous))]⟩
  | .failed index error =>
    ⟨[.processNodeMessages index [],.processNodeError index error],
      [callSelf env (.process operation (some index))]⟩
  | .finished path => ⟨[.process operation (String.intercalate "," path)],[]⟩

/-- The amounts that `Withdraw` takes out, each clamped to the balance of its denom. -/
def withdrawals (deps : Deps) (env : Env) (amounts : List Coin) : Outcome Coins :=
  amounts.foldlM (fun withdrawals amount => do
    if amount.amount=0 then return withdrawals
    else
      let balance ← query (deps.queryBalance env.contract amount.denom)
      withdrawals.add ⟨min balance.amount amount.amount,amount.denom⟩) Coins.empty

/-- The fees of one withdrawn coin, and what is left of it. -/
def takeFees (amount : Coin) : List (Affiliate × Coins) → ℕ → Outcome (List (Affiliate × Coins) × ℕ)
  | [],workingAmount => .ok ([],workingAmount)
  | (affiliate,amounts) :: rest,workingAmount => do
    let fee ← Uint128.mulFloor amount.amount (← Decimal.fromRatio affiliate.bps 10000)
    let amounts ← amounts.add ⟨fee,amount.denom⟩
    let (rest,workingAmount) ← takeFees amount rest (workingAmount-fee)
    return ((affiliate,amounts) :: rest,workingAmount)

/-- `StrategyExecuteMsg::Withdraw` after the check of its sender. -/
def withdraw (deps : Deps) (env : Env) (storage : StrategyStorage) (amounts : List Coin) :
    Outcome (StrategyStorage × StrategyResponse) := do
  if amounts.isEmpty then return (storage,⟨[],[]⟩)
  else
    let withdrawn ← withdrawals deps env amounts
    if withdrawn.isEmpty then return (storage,⟨[],[]⟩)
    else
      let (affiliateAmounts,finalWithdrawals) ← withdrawn.toVec.foldlM (fun state amount => do
        let (affiliateAmounts,workingAmount) ← takeFees amount state.1 amount.amount
        let finalWithdrawals ← Coins.add state.2 ⟨workingAmount,amount.denom⟩
        return (affiliateAmounts,finalWithdrawals))
        (storage.affiliates.map fun affiliate => (affiliate,Coins.empty),Coins.empty)
      let withdrawalMsg : SubMsg := ⟨.bankSend storage.owner finalWithdrawals.toVec,.never,0⟩
      let feeMsgs : List SubMsg := (affiliateAmounts.filter fun entry => ¬entry.2.isEmpty).map
        fun entry => ⟨.bankSend entry.1.address entry.2.toVec,.never,0⟩
      let total ← finalWithdrawals.addAll storage.withdrawals
      return ({ storage with withdrawals := total.toVec },⟨[.withdraw],withdrawalMsg :: feeMsgs⟩)

/-- `instantiate`. -/
def instantiate (env : Env) (info : MessageInfo) (msg : StrategyInstantiateMsg) :
    Outcome (StrategyStorage × StrategyResponse) :=
  if msg.contractAddress≠env.contract then
    genericErr s!"Strategy contract address mismatch: expected {env.contract}, got {msg.contractAddress}"
  else .ok ({ manager := info.sender,owner := msg.owner,affiliates := msg.affiliates
              deposits := [],withdrawals := [],nodes := Table.empty,path := none },
    ⟨[],[callSelf env (.init msg.nodes)]⟩)

/-- The record of attached funds. -/
def deposit (storage : StrategyStorage) (info : MessageInfo) : Outcome StrategyStorage := do
  if info.funds.isEmpty then return storage
  else
    let deposits ← Coins.tryFrom storage.deposits
    let deposits ← deposits.addAll info.funds
    return { storage with deposits := deposits.toVec }

/-- The messages of `execute`, once attached funds are recorded. -/
def dispatch (gas : ℕ) (deps : Deps) (env : Env) (info : MessageInfo) (storage : StrategyStorage) :
    StrategyExecuteMsg → Outcome (StrategyStorage × StrategyResponse)
  | .init nodes => do
    if info.sender≠env.contract then .error (.err .unauthorized)
    else
      let store ← NodeStore.init deps env storage.affiliates storage.nodes nodes
      return ({ storage with nodes := store },⟨[.init],[callSelf env (.process .execute none)]⟩)
  | .execute =>
    if info.sender≠storage.manager then .error (.err .unauthorized)
    else .ok (storage,⟨[.execute],[callSelf env (.process .execute none)]⟩)
  | .update nodes =>
    if info.sender≠storage.manager then .error (.err .unauthorized)
    else .ok (storage,⟨[.update],[callSelf env (.process .cancel none),callSelf env (.init nodes)]⟩)
  | .withdraw amounts =>
    if info.sender≠storage.owner then .error (.err .unauthorized)
    else withdraw deps env storage amounts
  | .cancel =>
    if info.sender≠storage.manager then .error (.err .unauthorized)
    else .ok (storage,⟨[.cancel],[callSelf env (.process .cancel none)]⟩)
  | .process operation previous => do
    if info.sender≠env.contract then .error (.err .unauthorized)
    else
      let result ← process gas deps env storage operation previous
      return ({ storage with nodes := result.nodes,path := result.path },
        processResponse env operation result.progress)

/-- `execute`. -/
def execute (gas : ℕ) (deps : Deps) (env : Env) (info : MessageInfo) (storage : StrategyStorage)
    (msg : StrategyExecuteMsg) : Outcome (StrategyStorage × StrategyResponse) := do
  let storage ← deposit storage info
  dispatch gas deps env info storage msg

/-- `reply`. -/
def reply (id : ℕ) (result : Except String Unit) : Outcome StrategyResponse :=
  match result with
  | .ok _ => .ok ⟨[.processNodeResult id none],[]⟩
  | .error error => .ok ⟨[.processNodeResult id (some error)],[]⟩

structure Config where
  manager : Addr
  owner : Addr
  nodes : List Node
  withdrawals : List Coin
  deriving DecidableEq

/-- `StrategyQueryMsg::Config`. -/
def queryConfig (storage : StrategyStorage) : Config :=
  ⟨storage.manager,storage.owner,NodeStore.all storage.nodes,storage.withdrawals⟩

/-- `StrategyQueryMsg::Balances`. -/
def queryBalances (deps : Deps) (env : Env) (storage : StrategyStorage) : Outcome (List Coin) := do
  let balances ← (NodeStore.all storage.nodes).foldlM (fun acc node => do
    let nodeBalances ← node.balances deps env
    acc.addAll nodeBalances.toVec) Coins.empty
  let held ← query (deps.queryAllBalances env.contract)
  let balances ← balances.addAll held
  return balances.toVec

end StrategyContract
end CalcRs
