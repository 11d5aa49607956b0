import CalcRs.Model.Strategy
import Mathlib.Data.Prod.Lex

/-! The scheduler contract: `scheduler.rs` and `contracts/scheduler`. -/
namespace CalcRs

def MAX_EXECUTORS : ℕ := 10

/-- `Hash for u64`: eight bytes, the lowest first. -/
def littleEndian (bytes n : ℕ) : List UInt8 := (List.range bytes).map fun i => UInt8.ofNat (n/256^i)

/-- `Hash for str`: the bytes of the string and a terminator. -/
def hashStr (s : String) : List UInt8 := asBytes s ++ [255]

/-- `Display for Side`. -/
def Side.toText : Side → String
  | .base => "base"
  | .quote => "quote"

/-- `Display for Decimal`: no trailing zeros. -/
def Decimal.toText (d : Decimal) : String :=
  let whole := toString (d.atomics/fractional)
  let digits := (toString (d.atomics%fractional)).toList
  let padded := List.replicate (18-digits.length) '0' ++ digits
  if d.atomics%fractional=0 then whole
  else whole ++ "." ++ String.ofList (padded.reverse.dropWhile (· = '0')).reverse

variable [Crates]

/-- The bytes that `CreateTriggerMsg::id` writes for the condition. -/
def conditionBytes : Condition → Outcome (List UInt8)
  | .timestampElapsed timestamp => .ok (0 :: littleEndian 8 timestamp.seconds)
  | .blocksCompleted height => .ok (1 :: littleEndian 8 height)
  | .finLimitOrderFilled owner pairAddress side price =>
    .ok (2 :: hashStr (owner.getD "") ++ hashStr pairAddress ++ hashStr side.toText ++ hashStr price.toText)
  | condition => genericErr s!"ID generation for condition {Crates.debugCondition condition} not supported"

/-- `CreateTriggerMsg::id`. -/
def CreateTriggerMsg.id (self : CreateTriggerMsg) (owner : Addr) : Outcome ℕ := do
  let condition ← conditionBytes self.condition
  return Crates.hash (asBytes owner ++ condition ++ self.msg ++ asBytes self.contractAddress)

/-- `ConditionFilter`: the bounds `start` and `end`. -/
inductive ConditionFilter where
  | timestamp (start stop : Option Timestamp)
  | blockHeight (start stop : Option ℕ)
  deriving DecidableEq

namespace TriggerStore

/-- `TriggerStore::save`. -/
def save (store : Table ℕ Trigger) (trigger : Trigger) : Table ℕ Trigger := store.insert trigger.id trigger

/-- The index `timestamp`: triggers of another kind are under the largest number. -/
def timestamp (t : Trigger) : ℕ :=
  match t.condition with
  | .timestampElapsed timestamp => timestamp.seconds
  | _ => U64.MAX

/-- The index `block_height`. -/
def blockHeight (t : Trigger) : ℕ :=
  match t.condition with
  | .blocksCompleted height => height
  | _ => U64.MAX

/-- `MultiIndex::range` in ascending order: the keys are the indexed numbers, each with the id. -/
def range (index : Trigger → ℕ) (store : Table ℕ Trigger) (min max : Option (ℕ ×ₗ ℕ)) : List Trigger :=
  let key (e : ℕ × Trigger) : ℕ ×ₗ ℕ := toLex (index e.2,e.1)
  let sorted := store.entries.insertionSort fun a b => key a ≤ key b
  (sorted.filter fun e => min.all (· ≤ key e) ∧ max.all (key e ≤ ·)).map Prod.snd

/-- `TriggerStore::filtered`. -/
def filtered (store : Table ℕ Trigger) (filter : ConditionFilter) (limit : Option ℕ) : List Trigger :=
  let triggers := match filter with
    | .blockHeight start stop => range blockHeight store
      (start.map fun s => toLex (s,0)) (stop.map fun e => toLex (e,U64.MAX))
    | .timestamp start stop => range timestamp store
      (start.map fun (s : Timestamp) => toLex (s.seconds,0)) (stop.map fun (e : Timestamp) => toLex (e.seconds,U64.MAX))
  triggers.take (limit.getD 30)

end TriggerStore

namespace SchedulerContract

/-- The payment of a rebate, unless the rebate is empty. -/
def payRebate (toAddress : Addr) (rebate : List Coin) : List SubMsg :=
  if rebate.isEmpty then [] else [⟨.bankSend toAddress rebate,.never,0⟩]

/-- The kinds of condition that a trigger may have. -/
def checkCondition : Condition → Outcome Unit
  | .blocksCompleted _ => .ok ()
  | .timestampElapsed _ => .ok ()
  | condition => genericErr s!"Unsupported condition type for trigger: {Crates.debugConditionPretty condition}"

/-- An existing trigger of the same owner is removed and its rebate refunded. -/
def removeExisting (info : MessageInfo) (triggers : Table ℕ Trigger) (triggerId : ℕ) :
    Outcome (Table ℕ Trigger × List SubMsg) :=
  match triggers.get? triggerId with
  | some existingTrigger =>
    if info.sender≠existingTrigger.owner then genericErr "Only the owner can update an existing trigger"
    else .ok (triggers.erase existingTrigger.id,payRebate existingTrigger.owner existingTrigger.executionRebate)
  | none => .ok (triggers,[])

/-- `SchedulerExecuteMsg::Create`. -/
def create (info : MessageInfo) (triggers : Table ℕ Trigger) (command : CreateTriggerMsg) :
    Outcome (Table ℕ Trigger × List SubMsg) := do
  if MAX_EXECUTORS<command.executors.length then
    genericErr s!"Cannot specify more than {MAX_EXECUTORS} executors"
  else
    checkCondition command.condition
    let triggerId ← command.id info.sender
    let (triggers,subMessages) ← removeExisting info triggers triggerId
    let rebate ← Coins.tryFrom info.funds
    return (TriggerStore.save triggers {
      id := triggerId
      owner := info.sender
      condition := command.condition
      msg := command.msg
      contractAddress := command.contractAddress
      executors := command.executors
      executionRebate := rebate.toVec
      jitter := command.jitter },subMessages)

/-- One round of the loop of `SchedulerExecuteMsg::Execute`. -/
def executeTrigger (deps : Deps) (env : Env) (info : MessageInfo) (state : Table ℕ Trigger × List SubMsg)
    (id : ℕ) : Outcome (Table ℕ Trigger × List SubMsg) := do
  match state.1.get? id with
  | none => return state
  | some trigger =>
    if trigger.executors≠[] ∧ info.sender ∉ trigger.executors then return state
    else
      let satisfied ← Fault.unwrapOr (trigger.condition.isSatisfied deps env) false
      if satisfied=false then return state
      else
        let call : SubMsg := ⟨.wasmExecute trigger.contractAddress (.raw trigger.msg) [],.error,0⟩
        return (state.1.erase trigger.id,state.2 ++ call :: payRebate info.sender trigger.executionRebate)

/-- `execute`. -/
def execute (deps : Deps) (env : Env) (info : MessageInfo) (triggers : Table ℕ Trigger) :
    SchedulerExecuteMsg → Outcome (Table ℕ Trigger × List SubMsg)
  | .create command => create info triggers command
  | .execute ids => ids.foldlM (executeTrigger deps env info) (triggers,[])

/-- `SchedulerQueryMsg::CanExecute`. -/
def canExecute (deps : Deps) (env : Env) (triggers : Table ℕ Trigger) (id : ℕ) : Outcome Bool :=
  match triggers.get? id with
  | some trigger => trigger.condition.isSatisfied deps env
  | none => .error (.err (.notFound "trigger"))

/-- `reply`: the attribute it adds for an error. -/
def reply (result : Except String Unit) : Outcome (Option String) :=
  match result with
  | .ok _ => .ok none
  | .error error => .ok (some error)

end SchedulerContract
end CalcRs
