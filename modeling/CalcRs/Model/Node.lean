import CalcRs.Model.Condition
import CalcRs.Model.Distribution

/-! Actions and the nodes of a strategy graph: `actions/action.rs` and `strategy.rs`. -/
namespace CalcRs

variable [Crates]

namespace Action

/-- `Action::size`. -/
def size : Action → ℕ
  | .swap s => s.routes.length*4+1
  | .distribute d => d.destinations.length+1
  | .limitOrder _ => 4

/-- `Action::init`. -/
def init (self : Action) (deps : Deps) (env : Env) (affiliates : List Affiliate) : Outcome Action :=
  match self with
  | .swap s => Action.swap <$> s.init deps env
  | .limitOrder o => Action.limitOrder <$> o.init
  | .distribute d => Action.distribute <$> d.init deps affiliates

/-- `Action::execute`. -/
def execute (self : Action) (deps : Deps) (env : Env) : Outcome (List CosmosMsg × Action) :=
  match self with
  | .swap s => (fun r => (r.1,.swap r.2)) <$> s.executeUnsafe deps env
  | .limitOrder o => (fun r => (r.1,.limitOrder r.2)) <$> o.executeUnsafe deps env
  | .distribute d => (fun r => (r.1,.distribute r.2)) <$> d.executeUnsafe deps env

/-- `Action::balances`. -/
def balances (self : Action) (deps : Deps) (env : Env) : Outcome Coins :=
  match self with
  | .limitOrder o => o.balances deps env
  | _ => .ok Coins.empty

/-- `Action::cancel`. -/
def cancel (self : Action) (deps : Deps) (env : Env) : Outcome (List CosmosMsg × Action) :=
  match self with
  | .limitOrder o => (fun r => (r.1,.limitOrder r.2)) <$> o.cancel deps env
  | a => .ok ([],a)

/-- `Action::commit`. -/
def commit (self : Action) (deps : Deps) (env : Env) : Outcome Action :=
  match self with
  | .limitOrder o => Action.limitOrder <$> o.commit deps env
  | a => .ok a

end Action

namespace Node

/-- `Node::size`. -/
def size : Node → ℕ
  | .action a _ _ => a.size
  | .condition c _ _ _ => c.size

/-- `Node::index`. -/
def index : Node → ℕ
  | .action _ i _ => i
  | .condition _ i _ _ => i

/-- `Node::next_index`: an error of the condition counts as not satisfied. -/
def nextIndex (self : Node) (deps : Deps) (env : Env) : Outcome (Option ℕ) :=
  match self with
  | .action _ _ next => .ok next
  | .condition c _ onSuccess onFailure => do
    if ← Fault.unwrapOr (c.isSatisfied deps env) false then return onSuccess
    else return onFailure

/-- `Node::init`. -/
def init (self : Node) (deps : Deps) (env : Env) (affiliates : List Affiliate) : Outcome Node :=
  match self with
  | .action a i next => (fun a => .action a i next) <$> a.init deps env affiliates
  | .condition c i onSuccess onFailure => (fun c => .condition c i onSuccess onFailure) <$> c.init deps env

/-- `Node::execute`. -/
def execute (self : Node) (deps : Deps) (env : Env) : Outcome (List CosmosMsg × Node) :=
  match self with
  | .action a i next => (fun r => (r.1,.action r.2 i next)) <$> a.execute deps env
  | .condition c i onSuccess onFailure =>
    (fun r => (r.1,.condition r.2 i onSuccess onFailure)) <$> c.execute deps env

/-- `Node::commit`. -/
def commit (self : Node) (deps : Deps) (env : Env) : Outcome Node :=
  match self with
  | .action a i next => (fun a => .action a i next) <$> a.commit deps env
  | .condition c i onSuccess onFailure => (fun c => .condition c i onSuccess onFailure) <$> c.commit

/-- `Node::balances`. -/
def balances (self : Node) (deps : Deps) (env : Env) : Outcome Coins :=
  match self with
  | .action a _ _ => a.balances deps env
  | .condition .. => .ok Coins.empty

/-- `Node::cancel`. -/
def cancel (self : Node) (deps : Deps) (env : Env) : Outcome (List CosmosMsg × Node) :=
  match self with
  | .action a i next => (fun r => (r.1,.action r.2 i next)) <$> a.cancel deps env
  | .condition c i onSuccess onFailure =>
    (fun r => (r.1,.condition r.2 i onSuccess onFailure)) <$> c.cancel

end Node
end CalcRs
