import CalcRs.Actions.Payouts
import CalcRs.Foundation.Dispatch
import CalcRs.Model.Manager

/-! The manager, the scheduler and the strategies on one chain, with the bank and everyone else: how a
message is delivered, and what its receiver sends. -/
namespace CalcRs

/-- A message with the account or contract that sends it. -/
structure Packet where
  sender : Addr
  sub : SubMsg
  deriving DecidableEq

/-- The storages of the contracts and the balances of everyone. -/
structure World where
  bank : Addr → Denom → ℕ
  manager : ManagerStorage
  triggers : Table ℕ Trigger
  strategies : Addr → Option StrategyStorage

/-- Where the manager and the scheduler are. -/
structure Site where
  manager : Addr
  scheduler : Addr
  distinct : manager≠scheduler

/-- The emitter is told that the message succeeded or failed. -/
def ReplyOn.asks : ReplyOn → Bool → Bool
  | .always,_ => true
  | .error,ok => !ok
  | .success,ok => ok
  | .never,_ => false

section

variable [Crates]

/-- A body that the manager parses: its own message, or bytes that encode one. -/
def Body.toManager : Body → Option ManagerExecuteMsg
  | .manager msg => some msg
  | .raw bytes => Crates.parseManager bytes
  | _ => none

def Body.toScheduler : Body → Option SchedulerExecuteMsg
  | .scheduler msg => some msg
  | .raw bytes => Crates.parseScheduler bytes
  | _ => none

def Body.toStrategy : Body → Option StrategyExecuteMsg
  | .strategy msg => some msg
  | .raw bytes => Crates.parseStrategy bytes
  | _ => none

/-- The call of the strategy at this address that a message is, if it is one. -/
def CosmosMsg.strategyCall (message : CosmosMsg) (a : Addr) : Option StrategyExecuteMsg :=
  match message with
  | .wasmExecute target body _ => if target=a then body.toStrategy else none
  | _ => none

def Packet.calls (p : Packet) (a : Addr) : Option StrategyExecuteMsg := p.sub.msg.strategyCall a

def Packet.funds (p : Packet) : List Coin := p.sub.msg.funds

/-- Who gets the funds: a deposit goes to the network. -/
def Packet.receiver (p : Packet) : Option Addr :=
  match p.sub.msg with
  | .bankSend target _ => some target
  | .wasmExecute target _ _ => some target
  | .instantiate2 _ codeId _ salt _ _ => some (Crates.instantiate2Address codeId p.sender salt)
  | .deposit _ => none

/-- What the sender of a message loses by it. -/
def Packet.outflow (p : Packet) (a : Addr) (x : Denom) : ℕ := if p.sender=a then amountIn x p.funds else 0

/-- What the receiver of a message gets by it. -/
def Packet.inflow (p : Packet) (a : Addr) (x : Denom) : ℕ := if p.receiver=some a then amountIn x p.funds else 0

namespace World

def Covers (w : World) (p : Packet) : Prop := ∀ x, amountIn x p.funds≤w.bank p.sender x

/-- The world after the transfer of the attached funds. -/
def charge (w : World) (p : Packet) : World :=
  { w with bank := fun a x => w.bank a x-p.outflow a x+p.inflow a x }

/-- The queries of a contract are answered from the bank and the registry. -/
structure Answers (site : Site) (w : World) (deps : Deps) : Prop where
  bank : ∀ a, deps.Answers a (w.bank a)
  registry : ∀ a, match w.manager.strategies.get? a with
    | some strategy => deps.managerStrategy site.manager a=.ok strategy
    | none => ∃ e, deps.managerStrategy site.manager a=.error e

theorem bank_charge {w : World} {p : Packet} (h : w.Covers p) (a : Addr) (x : Denom) :
    (w.charge p).bank a x+p.outflow a x=w.bank a x+p.inflow a x := by
  have hle : p.outflow a x≤w.bank a x := by
    unfold Packet.outflow
    split_ifs with ha
    · exact ha ▸ h x
    · exact Nat.zero_le _
  simp only [charge]
  omega

end World

namespace Site

/-- An account or a contract of someone else: no strategy of the manager has or will have its address. -/
def Outside (site : Site) (a : Addr) : Prop :=
  a≠site.manager ∧ a≠site.scheduler ∧ ∀ codeId salt, a≠Crates.instantiate2Address codeId site.manager salt

/-- An address that the manager may give a strategy. -/
def Strategy (site : Site) (a : Addr) : Prop :=
  a≠site.manager ∧ a≠site.scheduler ∧ ∃ codeId salt, a=Crates.instantiate2Address codeId site.manager salt

theorem Outside.not_strategy {site : Site} {a : Addr} (h : site.Outside a) : ¬site.Strategy a :=
  fun ⟨_,_,codeId,salt,he⟩ => h.2.2 codeId salt he

/-- The call of the manager that a message is, if it is one. -/
def toManager (site : Site) (p : Packet) : Option ManagerExecuteMsg :=
  match p.sub.msg with
  | .wasmExecute target body _ => if target=site.manager then body.toManager else none
  | _ => none

/-- The delivery of a message: the transfer of its funds and the call of its receiver, if that is a
contract. Contracts outside may send anything. -/
inductive Delivers (site : Site) (w : World) (p : Packet) : World → List Packet → Prop
  | send {target : Addr} {amount : List Coin} : p.sub.msg=.bankSend target amount → w.Covers p →
      Delivers site w p (w.charge p) []
  | deposit {msg : MsgDeposit} : p.sub.msg=.deposit msg → w.Covers p → Delivers site w p (w.charge p) []
  | manager {body : Body} {funds : List Coin} {msg : ManagerExecuteMsg} {deps : Deps} {env : Env}
      {storage : ManagerStorage} {response : ManagerResponse} : p.sub.msg=.wasmExecute site.manager body funds →
      w.Covers p → body.toManager=some msg → (w.charge p).Answers site deps → env.contract=site.manager →
      ManagerContract.execute deps env ⟨p.sender,funds⟩ w.manager msg=.ok (storage,response) →
      Delivers site w p { w.charge p with manager := storage } (response.messages.map (Packet.mk site.manager))
  | scheduler {body : Body} {funds : List Coin} {msg : SchedulerExecuteMsg} {deps : Deps} {env : Env}
      {triggers : Table ℕ Trigger} {messages : List SubMsg} : p.sub.msg=.wasmExecute site.scheduler body funds →
      w.Covers p → body.toScheduler=some msg → (w.charge p).Answers site deps → env.contract=site.scheduler →
      SchedulerContract.execute deps env ⟨p.sender,funds⟩ w.triggers msg=.ok (triggers,messages) →
      Delivers site w p { w.charge p with triggers := triggers } (messages.map (Packet.mk site.scheduler))
  | strategy {target : Addr} {body : Body} {funds : List Coin} {msg : StrategyExecuteMsg} {gas : ℕ} {deps : Deps}
      {env : Env} {s s' : StrategyStorage} {response : StrategyResponse} : p.sub.msg=.wasmExecute target body funds →
      w.Covers p → w.strategies target=some s → body.toStrategy=some msg → (w.charge p).Answers site deps →
      env.contract=target → StrategyContract.execute gas deps env ⟨p.sender,funds⟩ s msg=.ok (s',response) →
      Delivers site w p { w.charge p with strategies := Function.update w.strategies target (some s') }
        (response.messages.map (Packet.mk target))
  | instantiate {admin : Option Addr} {codeId : ℕ} {label : String} {salt : ℕ} {msg : StrategyInstantiateMsg}
      {funds : List Coin} {env : Env} {s : StrategyStorage} {response : StrategyResponse} :
      p.sub.msg=.instantiate2 admin codeId label salt msg funds → p.sender=site.manager → w.Covers p →
      env.contract=Crates.instantiate2Address codeId site.manager salt → env.contract≠site.manager →
      env.contract≠site.scheduler → w.strategies env.contract=none →
      StrategyContract.instantiate env ⟨p.sender,funds⟩ msg=.ok (s,response) →
      Delivers site w p { w.charge p with strategies := Function.update w.strategies env.contract (some s) }
        (response.messages.map (Packet.mk env.contract))
  | outside {target : Addr} {out : List Packet} : p.receiver=some target → site.Outside target → w.Covers p →
      (∀ q ∈ out, q.sender=target) → Delivers site w p (w.charge p) out

/-- What the emitter of a message sends when it learns the outcome: the contracts here send nothing. -/
inductive Replies (site : Site) (p : Packet) (ok : Bool) : List Packet → Prop
  | unasked : p.sub.replyOn.asks ok=false → Replies site p ok []
  | strategy {result : Except String Unit} {response : StrategyResponse} : result.isOk=ok →
      StrategyContract.reply p.sub.id result=.ok response → Replies site p ok (response.messages.map (Packet.mk p.sender))
  | scheduler {result : Except String Unit} {note : Option String} : p.sender=site.scheduler → result.isOk=ok →
      SchedulerContract.reply result=.ok note → Replies site p ok []
  | outside {out : List Packet} : site.Outside p.sender → (∀ q ∈ out, q.sender=p.sender) → Replies site p ok out

/-- The chain as a machine: transactions are begun by accounts outside. -/
def machine (site : Site) : Dispatch.Machine World Packet where
  begins _ p := site.Outside p.sender
  delivers w p w' out := site.Delivers w p w' out
  catches p := p.sub.replyOn.asks false=true
  replies p ok out := site.Replies p ok out

variable {site : Site} {w w' : World} {p : Packet} {out : List Packet}

/-- The bank only moves the attached funds. -/
theorem Delivers.bank (h : site.Delivers w p w' out) : w.Covers p ∧ w'.bank=(w.charge p).bank := by
  cases h with
  | send _ hc => exact ⟨hc,rfl⟩
  | deposit _ hc => exact ⟨hc,rfl⟩
  | manager _ hc => exact ⟨hc,rfl⟩
  | scheduler _ hc => exact ⟨hc,rfl⟩
  | strategy _ hc => exact ⟨hc,rfl⟩
  | instantiate _ _ hc => exact ⟨hc,rfl⟩
  | outside _ _ hc => exact ⟨hc,rfl⟩

/-- Only a contract outside sends anything in reply. -/
theorem Replies.senders {ok : Bool} (h : site.Replies p ok out) : ∀ q ∈ out, site.Outside q.sender := by
  cases h with
  | unasked _ => simp
  | @strategy result response _ hr =>
    cases result with
    | ok _ => cases hr; simp
    | error _ => cases hr; simp
  | scheduler _ _ _ => simp
  | outside ho hq => exact fun q hm => (hq q hm).symm ▸ ho

end Site
end
end CalcRs
