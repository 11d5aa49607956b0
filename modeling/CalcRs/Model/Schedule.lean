import CalcRs.Model.Types

/-! Cadences and the schedule condition: `cadence.rs` and `conditions/schedule.rs`. -/
namespace CalcRs

/-- `Condition::is_satisfied` on the two conditions that only read the block. -/
def Condition.isReached (self : Condition) (env : Env) : Bool :=
  match self with
  | .timestampElapsed timestamp => decide (timestamp≤env.block.time)
  | .blocksCompleted height => decide (height≤env.block.height)
  | _ => false

namespace Cadence

/-- The occurrence of a cron expression after a time, in seconds. -/
def cronAfter [Crates] (expr : String) (time : Timestamp) : Outcome (Option ℤ) :=
  match Crates.cronAfter expr with
  | .error e => genericErr s!"Invalid cron expression: {e}"
  | .ok after => .ok (after (U64.asI64 time.nanos))

/-- `Cadence::into_condition`. -/
def intoCondition [Crates] (self : Cadence) (env : Env) : Outcome Condition :=
  match self with
  | .blocks _ none => .ok (.blocksCompleted env.block.height)
  | .blocks interval (some previous) => Condition.blocksCompleted <$> U64.add previous interval
  | .time _ none => .ok (.timestampElapsed env.block.time)
  | .time duration (some previous) => Condition.timestampElapsed <$> previous.plusSeconds duration.secs
  | .cron expr previous => do
    match ← cronAfter expr (previous.getD env.block.time) with
    | some next => Condition.timestampElapsed <$> Timestamp.fromSeconds (asU64 next)
    -- no next occurrence: never due
    | none => return .blocksCompleted (2^64-1)

/-- `Cadence::is_due`. -/
def isDue [Crates] (self : Cadence) (env : Env) : Outcome Bool :=
  match self with
  | .blocks _ none => .ok true
  | .blocks interval (some previous) => do
    let due ← U64.add previous interval
    return decide (due≤env.block.height)
  | .time _ none => .ok true
  | .time duration (some previous) => do
    let due ← U64.add previous.seconds duration.secs
    return decide (due≤env.block.time.seconds)
  | .cron _ none => .ok true
  | .cron expr (some previous) => do
    let condition ← intoCondition (.cron expr (some previous)) env
    return condition.isReached env

/-- The time after which `crank` looks for the next occurrence. -/
def cronBase (previous : Option Timestamp) (env : Env) : Timestamp :=
  match previous with
  | none => env.block.time
  | some previous => if previous<env.block.time then env.block.time else previous

/-- `Cadence::crank`. -/
def crank [Crates] (self : Cadence) (env : Env) : Outcome Cadence :=
  match self with
  | .blocks interval none => .ok (.blocks interval (some env.block.height))
  | .blocks interval (some previous) => do
    let next ← U64.add previous interval
    let threshold ← U64.sub env.block.height interval
    if next<threshold then
      let blocksCompleted ← U64.sub env.block.height previous
      let late ← U64.mod blocksCompleted interval
      let aligned ← U64.sub env.block.height late
      return .blocks interval (some aligned)
    else return .blocks interval (some next)
  | .time duration none => .ok (.time duration (some env.block.time))
  | .time duration (some previous) => do
    let next ← previous.plusSeconds duration.secs
    let threshold ← env.block.time.minusSeconds duration.secs
    if next<threshold then
      let timeElapsed ← U64.sub env.block.time.seconds previous.seconds
      let late ← U64.mod timeElapsed duration.secs
      let aligned ← env.block.time.minusSeconds late
      return .time duration (some aligned)
    else return .time duration (some next)
  | .cron expr previous => do
    match ← cronAfter expr (cronBase previous env) with
    | some next => (fun t => .cron expr (some t)) <$> Timestamp.fromSeconds (asU64 next)
    -- no next occurrence: never due
    | none => (fun t => .cron expr (some t)) <$> Timestamp.fromSeconds (2^64-1)

end Cadence

namespace Schedule

/-- `Schedule::can_execute`. -/
def canExecute [Crates] (self : Schedule) (env : Env) : Outcome Bool :=
  match self.maxExecutions,self.executions with
  | some max,some executions => if max≤executions then .ok false else self.cadence.isDue env
  | _,_ => self.cadence.isDue env

/-- The check of `execute_unsafe` against `max_executions`. -/
def checkExecutions (self : Schedule) : Outcome Unit :=
  match self.maxExecutions with
  | none => .ok ()
  | some max => do
    let executions ← fits 32 (self.executions.getD 0+1)
    if max<executions then genericErr "Max executions exceeded" else return ()

/-- The rebate attached to the trigger: each entry clamped to the balance of its denom. -/
def rebate (self : Schedule) (deps : Deps) (env : Env) : Outcome Coins :=
  self.executionRebate.foldlM (fun rebate amount => do
    let balance ← query (deps.queryBalance env.contract amount.denom)
    rebate.add ⟨min amount.amount balance.amount,amount.denom⟩) Coins.empty

/-- The condition of the trigger and the schedule to store: a due cadence is cranked first. -/
def advance [Crates] (self : Schedule) (env : Env) : Outcome (Condition × Schedule) := do
  if ← self.cadence.isDue env then
    let current ← self.cadence.crank env
    let condition ← current.intoCondition env
    return (condition,{ self with next := some current })
  else
    let condition ← self.cadence.intoCondition env
    return (condition,self)

/-- The trigger that calls `Execute` of the manager for this strategy. -/
def createTriggerMsg [Crates] (self : Schedule) (env : Env) (condition : Condition) : CreateTriggerMsg where
  condition := condition
  msg := Crates.managerJson (.execute env.contract)
  contractAddress := self.managerAddress
  executors := self.executors
  jitter := self.jitter

/-- `Schedule::execute_unsafe`. -/
def executeUnsafe [Crates] (self : Schedule) (deps : Deps) (env : Env) :
    Outcome (List CosmosMsg × Condition) := do
  self.checkExecutions
  let rebate ← self.rebate deps env
  let (condition,schedule) ← self.advance env
  let createTrigger := CosmosMsg.wasmExecute schedule.schedulerAddress
    (.scheduler (.create (schedule.createTriggerMsg env condition))) rebate.toVec
  return ([createTrigger],.schedule schedule)

/-- `Schedule::init`. -/
def init [Crates] (self : Schedule) (deps : Deps) : Outcome Condition := do
  if deps.addrValidate self.managerAddress=false then
    genericErr s!"Invalid manager address for schedule: {self.managerAddress}"
  else if deps.addrValidate self.schedulerAddress=false then
    genericErr s!"Invalid scheduler address for schedule: {self.schedulerAddress}"
  else if self.jitter.isSome ∧ self.executors.isEmpty then
    genericErr "Schedule jitter is set but executors are not restricted, rendering the jitter ineffective"
  else match self.cadence with
    | .cron expr _ =>
      match Crates.cronAfter expr with
      | .error e => genericErr s!"Invalid cron string: {e}"
      | .ok _ => return .schedule self
    | _ => return .schedule self

/-- The executions after one more. -/
def countExecution (self : Schedule) : Outcome ℕ :=
  match self.executions with
  | none => .ok 1
  | some executions => fits 32 (executions+1)

/-- `Schedule::commit`. -/
def commit (self : Schedule) : Outcome Condition := do
  match self.next with
  | some next =>
    let executions ← self.countExecution
    return .schedule { self with cadence := next,next := none,executions := some executions }
  | none => return .schedule self

end Schedule
end CalcRs
