import CalcRs.Actions.Orders
import CalcRs.Runs.Ascent
import CalcRs.System.World

/-! Who may call a strategy, and what the strategy sends then. -/
namespace CalcRs

/-- The node pays the balance out. -/
def Node.distributes : Node → Bool
  | .action (.distribute _) _ _ => true
  | _ => false

namespace Node

theorem commit_distributes {node node' : Node} {deps : Deps} {env : Env}
    (h : node.commit deps env=.ok node') : node'.distributes=node.distributes := by
  cases node with
  | condition c i s f =>
    obtain ⟨_,_,he⟩ := Except.map_eq_ok.mp h
    cases he
    rfl
  | action a i next =>
    obtain ⟨_,ha,he⟩ := Except.map_eq_ok.mp h
    cases he
    cases a with
    | limitOrder o =>
      obtain ⟨_,_,he⟩ := Except.map_eq_ok.mp ha
      cases he
      rfl
    | swap s => cases ha; rfl
    | distribute d => cases ha; rfl

end Node

namespace StrategyContract

/-- A response holds the messages of a node, and after them the call that goes on with the run. -/
theorem mem_processResponse {env : Env} {operation : StrategyOperation} {progress : Progress} {sub : SubMsg}
    (h : sub ∈ (processResponse env operation progress).messages) :
    (∃ m ∈ progress.emitted, ∃ i, sub=⟨m,.always,i⟩) ∨ ∃ p, sub=callSelf env (.process operation (some p)) := by
  cases progress with
  | messages i ms q =>
    rcases List.mem_append.mp h with h | h
    · obtain ⟨m,hm,rfl⟩ := List.mem_map.mp h
      exact .inl ⟨m,hm,i,rfl⟩
    · exact .inr ⟨q,List.mem_singleton.mp h⟩
  | failed i e => exact .inr ⟨i,List.mem_singleton.mp h⟩
  | finished path => simp [processResponse] at h

end StrategyContract

variable [Crates]

section Nodes

variable {node node' : Node} {deps : Deps} {env : Env} {messages : List CosmosMsg}

/-- The message is no call of a strategy or of the manager, nor can its bytes be read as one. -/
def CosmosMsg.Foreign (message : CosmosMsg) : Prop :=
  ∀ target body funds, message=.wasmExecute target body funds → body.toStrategy=none ∧ body.toManager=none

theorem CosmosMsg.Foreign.strategyCall {message : CosmosMsg} (h : message.Foreign) (a : Addr) :
    message.strategyCall a=none := by
  cases message with
  | wasmExecute target body funds => simp [CosmosMsg.strategyCall,(h target body funds rfl).1]
  | _ => rfl

namespace Node

/-- Only payments carry bytes of the user. -/
theorem execute_foreign (h : node.execute deps env=.ok (messages,node')) (hd : node.distributes=false) :
    ∀ m ∈ messages, m.Foreign := by
  rintro m hm target body funds rfl
  cases node with
  | condition c i s f =>
    obtain ⟨⟨ms,c'⟩,hc,he⟩ := Except.map_eq_ok.mp h
    cases he
    rcases Condition.execute_message hc with rfl | ⟨_,_,_,rfl⟩
    · simp at hm
    · cases List.mem_singleton.mp hm
      exact ⟨rfl,rfl⟩
  | action a i next =>
    obtain ⟨⟨ms,a'⟩,ha,he⟩ := Except.map_eq_ok.mp h
    cases he
    cases a with
    | swap s =>
      obtain ⟨⟨ms',s'⟩,hs,he⟩ := Except.map_eq_ok.mp ha
      cases he
      obtain ⟨message,rfl,hkind⟩ := Swap.executeUnsafe_message hs
      obtain rfl := List.mem_singleton.mp hm
      rcases hkind with ⟨_,_,_,he⟩ | ⟨_,he⟩
      · cases he
        exact ⟨rfl,rfl⟩
      · cases he
    | distribute d => cases hd
    | limitOrder o =>
      obtain ⟨⟨ms',o'⟩,ho,he⟩ := Except.map_eq_ok.mp ha
      cases he
      obtain ⟨price,address,coins,he⟩ := FinLimitOrder.executeUnsafe_messages ho _ hm
      cases he
      exact ⟨rfl,rfl⟩

/-- No other node calls a strategy. -/
theorem execute_calls (h : node.execute deps env=.ok (messages,node')) (hd : node.distributes=false) :
    ∀ m ∈ messages, ∀ a, m.strategyCall a=none := fun m hm => (execute_foreign h hd m hm).strategyCall

/-- A cancelled node closes its order and sends nothing else. -/
theorem cancel_foreign (h : node.cancel deps env=.ok (messages,node')) : ∀ m ∈ messages, m.funds=[] ∧ m.Foreign := by
  intro m hm
  rw [(cancel_orders h).2,Option.mem_toList] at hm
  obtain ⟨slot,_,rfl⟩ := Option.map_eq_some_iff.mp hm
  refine ⟨rfl,fun target body funds he => ?_⟩
  cases he
  exact ⟨rfl,rfl⟩

theorem cancel_closes (h : node.cancel deps env=.ok (messages,node')) :
    ∀ m ∈ messages, m.funds=[] ∧ ∀ a, m.strategyCall a=none :=
  fun m hm => ⟨(cancel_foreign h m hm).1,(cancel_foreign h m hm).2.strategyCall⟩

theorem execute_distributes (h : node.execute deps env=.ok (messages,node')) :
    node'.distributes=node.distributes := by
  cases node with
  | condition c i s f =>
    obtain ⟨_,_,he⟩ := Except.map_eq_ok.mp h
    cases he
    rfl
  | action a i next =>
    obtain ⟨_,ha,he⟩ := Except.map_eq_ok.mp h
    cases he
    cases a <;> obtain ⟨_,_,he⟩ := Except.map_eq_ok.mp ha <;> cases he <;> rfl

end Node

theorem StrategyContract.Stage.distributes (h : Stage node node') : node'.distributes=node.distributes := by
  cases h with
  | run operation deps env messages h =>
    cases operation with
    | execute => exact Node.execute_distributes h
    | cancel => rw [(Node.cancel_orders h).1]
  | commit deps env h => exact Node.commit_distributes h

end Nodes

namespace StrategyContract

variable {deps : Deps} {env : Env} {gas : ℕ} {operation : StrategyOperation} {previous : Option ℕ}

theorem Loops.emitted {nodes : Table ℕ Node} {stored : Option (List String)} {path : List String}
    {next : Option Node} {r : Processed} (h : Loops operation deps env stored nodes path next r) :
    ∀ m ∈ r.progress.emitted, ∃ node ms node', run operation node deps env=.ok (ms,node') ∧ m ∈ ms := by
  induction h with
  | finished => simp [Progress.emitted]
  | failed _ => simp [Progress.emitted]
  | messages hrun _ => exact fun m hm => ⟨_,_,_,hrun,hm⟩
  | next _ _ _ ih => exact ih

/-- What a call emits comes from one of its nodes. -/
theorem process_emitted {storage : StrategyStorage} {r : Processed}
    (h : process gas deps env storage operation previous=.ok r) :
    ∀ m ∈ r.progress.emitted, ∃ node ms node', run operation node deps env=.ok (ms,node') ∧ m ∈ ms := by
  cases process_eq_ok h with
  | first hloop => exact hloop.emitted
  | resumed _ _ _ _ hloop =>
    have hemitted := hloop.emitted
    exact hemitted

/-- The sender that each message needs, and what the contract sends for it. -/
theorem execute_sends {info : MessageInfo} {s s' : StrategyStorage} {msg : StrategyExecuteMsg}
    {response : StrategyResponse} (h : execute gas deps env info s msg=.ok (s',response)) :
    s'.manager=s.manager ∧ match msg with
      | .init _ => info.sender=env.contract ∧ response.messages=[callSelf env (.process .execute none)]
      | .execute => info.sender=s.manager ∧ response.messages=[callSelf env (.process .execute none)]
      | .withdraw _ => ∀ sub ∈ response.messages, ∃ target amount, sub.msg=.bankSend target amount
      | .update nodes => info.sender=s.manager ∧
          response.messages=[callSelf env (.process .cancel none),callSelf env (.init nodes)]
      | .cancel => info.sender=s.manager ∧ response.messages=[callSelf env (.process .cancel none)]
      | .process operation previous => info.sender=env.contract ∧ ∃ r deposits,
          process gas deps env { s with deposits := deposits } operation previous=.ok r ∧ s'.nodes=r.nodes ∧
          response.messages=(processResponse env operation r.progress).messages := by
  obtain ⟨deposits,h⟩ := execute_eq_ok h
  cases h with
  | init hs _ => exact ⟨rfl,hs,rfl⟩
  | process hs hp => exact ⟨rfl,hs,_,deposits,hp,rfl,rfl⟩
  | withdraw _ hw =>
    obtain ⟨_,rfl⟩ := withdraw_keeps hw
    exact ⟨rfl,withdraw_sends hw⟩
  | execute hs => exact ⟨rfl,hs,rfl⟩
  | update hs => exact ⟨rfl,hs,rfl⟩
  | cancel hs => exact ⟨rfl,hs,rfl⟩

end StrategyContract

namespace Site

variable {site : Site} {w w' : World} {p : Packet} {out : List Packet} {a : Addr}

/-- A delivery that calls a strategy is a run of its `execute`. -/
theorem Delivers.to_strategy (h : site.Delivers w p w' out) (ha : site.Strategy a) {msg : StrategyExecuteMsg}
    (hc : p.calls a=some msg) : ∃ gas deps env s s' response, w.strategies a=some s ∧ (w.charge p).Answers site deps ∧
      env.contract=a ∧ StrategyContract.execute gas deps env ⟨p.sender,p.funds⟩ s msg=.ok (s',response) ∧
      w'={ w.charge p with strategies := Function.update w.strategies a (some s') } ∧
      out=response.messages.map (Packet.mk a) := by
  obtain ⟨body,funds,hmsg,hbody⟩ : ∃ body funds, p.sub.msg=.wasmExecute a body funds ∧ body.toStrategy=some msg := by
    unfold Packet.calls CosmosMsg.strategyCall at hc
    split at hc
    · split_ifs at hc with ht
      subst ht
      exact ⟨_,_,by assumption,hc⟩
    · cases hc
  have hfunds : p.funds=funds := by simp [Packet.funds,hmsg,CosmosMsg.funds]
  cases h with
  | send h _ => simp [hmsg] at h
  | deposit h _ => simp [hmsg] at h
  | manager h _ _ _ _ _ =>
    simp only [hmsg,CosmosMsg.wasmExecute.injEq] at h
    exact absurd h.1 ha.1
  | scheduler h _ _ _ _ _ =>
    simp only [hmsg,CosmosMsg.wasmExecute.injEq] at h
    exact absurd h.1 ha.2.1
  | strategy h _ hs hbody' hanswers henv hexec =>
    simp only [hmsg,CosmosMsg.wasmExecute.injEq] at h
    obtain ⟨rfl,rfl,rfl⟩ := h
    obtain rfl := Option.some.inj (hbody.symm.trans hbody')
    exact ⟨_,_,_,_,_,_,hs,hanswers,henv,hfunds ▸ hexec,rfl,rfl⟩
  | instantiate h _ _ _ _ _ _ _ => simp [hmsg] at h
  | outside h ho _ _ =>
    rw [Packet.receiver,hmsg] at h
    exact absurd (Option.some.inj h ▸ ha) ho.not_strategy

/-- A delivery that does not call a strategy leaves its storage alone, and sends nothing in its name. -/
theorem Delivers.past_strategy (h : site.Delivers w p w' out) (ha : site.Strategy a) (hs : (w.strategies a).isSome)
    (hc : p.calls a=none) : w'.strategies a=w.strategies a ∧ ∀ q ∈ out, q.sender≠a := by
  cases h with
  | send _ _ => exact ⟨rfl,by simp⟩
  | deposit _ _ => exact ⟨rfl,by simp⟩
  | manager _ _ _ _ _ _ =>
    refine ⟨rfl,fun q hq => ?_⟩
    obtain ⟨_,_,rfl⟩ := List.mem_map.mp hq
    exact ha.1.symm
  | scheduler _ _ _ _ _ _ =>
    refine ⟨rfl,fun q hq => ?_⟩
    obtain ⟨_,_,rfl⟩ := List.mem_map.mp hq
    exact ha.2.1.symm
  | @strategy target _ _ _ _ _ _ _ _ _ hmsg _ _ hbody _ _ _ =>
    have hne : target≠a := fun he => by simp [Packet.calls,CosmosMsg.strategyCall,hmsg,he,hbody] at hc
    refine ⟨by simp [Function.update_of_ne hne.symm],fun q hq => ?_⟩
    obtain ⟨_,_,rfl⟩ := List.mem_map.mp hq
    exact hne
  | instantiate _ _ _ _ _ _ hnone _ =>
    have hne : ∀ {b}, w.strategies b=none → b≠a := fun hb he => by simp [← he,hb] at hs
    refine ⟨by simp [Function.update_of_ne (hne hnone).symm],fun q hq => ?_⟩
    obtain ⟨_,_,rfl⟩ := List.mem_map.mp hq
    exact hne hnone
  | outside _ ho _ hq => exact ⟨rfl,fun q hm he => ho.not_strategy ((hq q hm) ▸ he ▸ ha)⟩

end Site
end CalcRs
