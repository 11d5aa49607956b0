import CalcRs.Actions.Routes
import CalcRs.Conditions.Execution
import CalcRs.Runs.Replacement
import CalcRs.System.Calls
import CalcRs.System.Fees

/-! Whom the nodes of a strategy pay, or call with funds, and that execution names nobody new. -/
namespace CalcRs

/-- Somebody whom a node list names. The network is paid for swaps, with the memo that it quoted. -/
inductive Payee where
  | account (address : Addr)
  | contract (address : Addr) (msg : Binary)
  | memo (memo : String)
  | pair (address : Addr)
  | network
  | scheduler (address manager : Addr)
  deriving DecidableEq

def Recipient.payee : Recipient → Payee
  | .bank address => .account address
  | .contract address msg => .contract address msg
  | .deposit memo => .memo memo

def SwapRoute.payee : SwapRoute → Payee
  | .fin route => .pair route.pairAddress
  | .thorchain _ => .network

def Action.payees : Action → List Payee
  | .swap s => s.routes.map SwapRoute.payee
  | .limitOrder o => [.pair o.pairAddress]
  | .distribute d => d.destinations.map fun destination => destination.recipient.payee

def Condition.payees : Condition → List Payee
  | .schedule s => [.scheduler s.schedulerAddress s.managerAddress]
  | _ => []

def Node.payees : Node → List Payee
  | .action a _ _ => a.payees
  | .condition c _ _ _ => c.payees

namespace Swap

theorem payee_identity {route : SwapRoute} : route.identity.payee=route.payee := by cases route <;> rfl

end Swap

namespace FinLimitOrder

theorem commit_pair {deps : Deps} {env : Env} {self stored : FinLimitOrder}
    (h : self.commit deps env=.ok stored) : stored.pairAddress=self.pairAddress := by
  unfold commit at h
  split at h
  · obtain ⟨attempt,_,h⟩ := Except.bind_eq_ok.mp h
    cases attempt <;> cases h <;> rfl
  · cases h
    rfl

theorem init_same {self stored : FinLimitOrder} (h : self.init=.ok stored) : stored=self := by
  simp only [init,genericErr] at h
  obtain ⟨_,_,h⟩ := Except.bind_eq_ok.mp h
  simp only [Except.ite_error_eq_ok] at h
  obtain ⟨_,h⟩ := h
  split at h
  · simp only [Except.ite_error_eq_ok] at h
    cases h.2
    rfl
  · cases h
    rfl

end FinLimitOrder

namespace Node

theorem commit_payees {deps : Deps} {env : Env} {node node' : Node}
    (h : node.commit deps env=.ok node') : node'.payees=node.payees := by
  cases node with
  | condition c i s f =>
    obtain ⟨c',hc,rfl⟩ := Except.map_eq_ok.mp h
    cases c with
    | schedule schedule =>
      obtain ⟨_,rfl⟩ | ⟨_,_,rfl⟩ := Schedule.commit_eq_ok hc
      · rfl
      · rfl
    | _ => cases hc; rfl
  | action a i next =>
    obtain ⟨a',ha,rfl⟩ := Except.map_eq_ok.mp h
    cases a with
    | limitOrder o =>
      obtain ⟨o',ho,rfl⟩ := Except.map_eq_ok.mp ha
      have hpair := (FinLimitOrder.commit_pair ho)
      simp only [payees,Action.payees,hpair]
    | swap s => cases ha; rfl
    | distribute d => cases ha; rfl

end Node

section

variable [Crates]

/-- The message pays the payee. The memo of a swap was quoted for output to the strategy itself, and a trigger asks the
manager to execute the strategy. -/
inductive Pays (self : Addr) : CosmosMsg → Payee → Prop
  | account {address : Addr} {coins : List Coin} : Pays self (.bankSend address coins) (.account address)
  | contract {address : Addr} {msg : Binary} {coins : List Coin} :
      Pays self (.wasmExecute address (.raw msg) coins) (.contract address msg)
  | memo {msg : MsgDeposit} : Pays self (.deposit msg) (.memo msg.memo)
  | swap {address : Addr} {minimum : ℕ} {coins : List Coin} :
      Pays self (.wasmExecute address (.finSwap minimum) coins) (.pair address)
  | order {address : Addr} {orders : List (Side × Decimal × Option ℕ)} {coins : List Coin} :
      Pays self (.wasmExecute address (.finOrder orders) coins) (.pair address)
  | quoted {deps : Deps} {request : SwapQuoteRequest} {response : ThorchainSwapQuote} {msg : MsgDeposit} :
      deps.thorchainQuote request=.ok response → request.destination=self → request.refundAddress=self →
      msg.memo=response.memo → Pays self (.deposit msg) .network
  | trigger {address : Addr} {command : CreateTriggerMsg} {coins : List Coin} :
      command.msg=Crates.managerJson (.execute self) →
      Pays self (.wasmExecute address (.scheduler (.create command)) coins) (.scheduler address command.contractAddress)

variable {deps : Deps} {env : Env} {messages : List CosmosMsg}

/-- Only bytes of the node list call a strategy. -/
theorem Pays.strategyCall {message : CosmosMsg} {payee : Payee} {self a : Addr} (h : Pays self message payee)
    {call : StrategyExecuteMsg} (hc : message.strategyCall a=some call) :
    ∃ msg, payee=.contract a msg ∧ Crates.parseStrategy msg=some call := by
  cases h with
  | contract =>
    simp only [CosmosMsg.strategyCall] at hc
    split_ifs at hc with ht
    exact ⟨_,by rw [ht],hc⟩
  | swap => simp [CosmosMsg.strategyCall,Body.toStrategy] at hc
  | order => simp [CosmosMsg.strategyCall,Body.toStrategy] at hc
  | trigger _ => simp [CosmosMsg.strategyCall,Body.toStrategy] at hc
  | account => cases hc
  | memo => cases hc
  | quoted _ _ _ _ => cases hc

namespace Swap

variable {self stored : Swap} {route : SwapRoute} {quote : SwapQuote Executable}

theorem adjust_destination {start : SwapQuote New} {adjusted : SwapQuote Adjusted}
    (h : start.adjust deps env=.ok adjusted) : adjusted.destination=start.destination := by
  obtain ⟨balance,_,h⟩ := Except.bind_eq_ok.mp h
  simp only [genericErr,Except.ite_error_eq_ok] at h
  obtain ⟨_,h⟩ := h
  cases hadj : start.adjustment with
  | fixed =>
    simp only [hadj] at h
    obtain ⟨_,_,h⟩ := Except.bind_eq_ok.mp h
    obtain ⟨_,_,h⟩ := Except.bind_eq_ok.mp h
    cases h
    rfl
  | linearScalar base least scalar =>
    simp only [hadj,Except.error_bind] at h
    obtain ⟨_,_,h⟩ := Except.bind_eq_ok.mp h
    simp only [Except.ite_error_eq_ok] at h
    obtain ⟨_,_,h⟩ := Except.bind_eq_ok.mp h.2
    obtain ⟨_,_,h⟩ := Except.bind_eq_ok.mp h
    obtain ⟨_,_,h⟩ := Except.bind_eq_ok.mp h
    obtain ⟨_,_,h⟩ := Except.bind_eq_ok.mp h
    -- the price goes up or down by the same steps
    split at h
    all_goals
      obtain ⟨_,_,h⟩ := Except.bind_eq_ok.mp h
      obtain ⟨_,h⟩ := Except.ite_error_eq_ok.mp h
      obtain ⟨_,_,h⟩ := Except.bind_eq_ok.mp h
      obtain ⟨_,_,h⟩ := Except.bind_eq_ok.mp h
      cases h
      rfl

theorem validateAdjusted_destination {adjusted : SwapQuote Adjusted}
    (h : route.validateAdjusted deps env adjusted=.ok quote) : quote.destination=adjusted.destination := by
  cases route with
  | fin r =>
    simp only [SwapRoute.validateAdjusted,FinRoute.validateAdjusted,genericErr,Except.ite_error_eq_ok] at h
    obtain ⟨_,_,h⟩ := Except.bind_eq_ok.mp h.2
    simp only [Except.ite_error_eq_ok] at h
    obtain ⟨_,_,h⟩ := Except.bind_eq_ok.mp h.2
    obtain ⟨pair,_,h⟩ := Except.bind_eq_ok.mp h
    by_cases hbase : adjusted.swapAmount.denom=pair.denoms.base
    · rw [if_pos hbase] at h
      obtain ⟨_,_,h⟩ := Except.bind_eq_ok.mp h
      obtain ⟨_,_,h⟩ := Except.bind_eq_ok.mp h
      obtain ⟨rfl,_⟩ := slippage_eq_ok h
      rfl
    · rw [if_neg hbase,Except.ok_bind] at h
      obtain ⟨_,_,h⟩ := Except.bind_eq_ok.mp h
      obtain ⟨rfl,_⟩ := slippage_eq_ok h
      rfl
  | thorchain r =>
    simp only [SwapRoute.validateAdjusted,ThorchainRoute.validateAdjusted,genericErr,Except.ite_error_eq_ok] at h
    obtain ⟨_,_,h⟩ := Except.bind_eq_ok.mp h.2
    simp only [Except.ite_error_eq_ok] at h
    obtain ⟨_,_,h⟩ := Except.bind_eq_ok.mp h.2.2.2
    cases h
    rfl

/-- The output of a swap goes to the strategy. -/
theorem routeQuote_destination (h : self.routeQuote deps env route=.ok quote) : quote.destination=env.contract := by
  obtain ⟨adjusted,hadjusted,h⟩ := Except.bind_eq_ok.mp h
  exact (validateAdjusted_destination h).trans (adjust_destination hadjusted)

theorem executeUnsafe_pays (h : self.executeUnsafe deps env=.ok (messages,stored)) :
    (∀ m ∈ messages, ∃ payee ∈ (Action.swap self).payees, Pays env.contract m payee) ∧
      (Action.swap stored).payees ⊆ (Action.swap self).payees := by
  obtain ⟨j,quote,message,hw,hm,rfl,rfl⟩ := executeUnsafe_eq_ok h
  obtain ⟨route,hroute,hoffer⟩ := hw.made
  have hquote := Except.toOption_eq_some.mp hoffer
  obtain ⟨adjusted,hadjusted,_⟩ := Except.bind_eq_ok.mp hquote
  obtain ⟨coin,hb,_⟩ := Except.bind_eq_ok.mp hadjusted
  have haccepts := routeQuote_accepts (query_eq_ok.mp hb) hquote
  have hpayee : quote.route.payee=route.payee := by
    rw [← payee_identity,haccepts.identity,payee_identity]
  have hmem : route.payee ∈ self.routes.map SwapRoute.payee := List.mem_map_of_mem (List.mem_of_getElem? hroute)
  refine ⟨fun m hmem' => ?_,fun payee hp => ?_⟩
  · obtain rfl := List.mem_singleton.mp hmem'
    refine ⟨route.payee,hmem,?_⟩
    have hspends := haccepts.spends _ hm
    cases route with
    | fin r =>
      obtain rfl : m=_ := hspends
      exact .swap
    | thorchain r =>
      obtain ⟨response,signer,hresponse,rfl⟩ := hspends
      obtain ⟨request,hrequest,hresponse⟩ := getThorchainSwapQuote_eq_ok.mp hresponse
      have hself := routeQuote_destination hquote
      unfold SwapQuoteRequest.tryFrom at hrequest
      split at hrequest
      · cases hrequest
        exact .quoted hresponse hself hself rfl
      · cases hrequest
  · obtain ⟨r,hr,rfl⟩ := List.mem_map.mp hp
    obtain ⟨r',hr',rfl⟩ := List.mem_map.mp hr
    split_ifs
    · exact hpayee ▸ hmem
    · exact List.mem_map_of_mem hr'

end Swap

namespace Distribution

variable {self stored : Distribution}

theorem distributeMessage_pays {recipient : Recipient} {coins : List Coin} {message : CosmosMsg}
    (h : recipient.distributeMessage deps env coins=.ok message) : Pays env.contract message recipient.payee := by
  cases recipient with
  | bank address => cases h; exact .account
  | contract address msg => cases h; exact .contract
  | deposit memo =>
    obtain ⟨_,_,h⟩ := Except.bind_eq_ok.mp h
    cases h
    exact .memo

theorem executeUnsafe_pays (h : self.executeUnsafe deps env=.ok (messages,stored)) :
    (∀ m ∈ messages, ∃ payee ∈ (Action.distribute self).payees, Pays env.contract m payee) ∧
      (Action.distribute stored).payees ⊆ (Action.distribute self).payees := by
  obtain ⟨balances,hread,⟨_,rfl,rfl⟩ | ⟨_,_,hpaid,htally⟩⟩ := executeUnsafe_payments h
  · exact ⟨by simp,fun _ hp => hp⟩
  have hnamed : ∀ p ∈ (self.payments deps env).filter fun p => p.2≠[], p.1.recipient.payee ∈
      (Action.distribute self).payees := fun p hp => by
    have hmem : p.1 ∈ self.destinations := payments_fst hread ▸ List.mem_map_of_mem (List.mem_of_mem_filter hp)
    exact List.mem_map_of_mem hmem
  refine ⟨fun m hm => ?_,fun payee hp => ?_⟩
  · obtain ⟨p,hp,hpay⟩ := forall₂_mem_right hpaid hm
    exact ⟨_,hnamed p hp,distributeMessage_pays hpay⟩
  · obtain ⟨d,hd,rfl⟩ := List.mem_map.mp hp
    obtain ⟨p,hpaid,ht⟩ := forall₂_mem_right htally hd
    obtain ⟨_,_,_,_,rfl⟩ := tally_eq_ok ht
    exact hnamed p hpaid

end Distribution

/-- The check of a condition changes nothing. -/
theorem Condition.init_same {c c' : Condition} (h : c.init deps env=.ok c') : c'=c := by
  cases c with
  | schedule s =>
    simp only [init,Schedule.init,genericErr,Except.ite_error_eq_ok] at h
    obtain ⟨_,_,_,h⟩ := h
    split at h
    · split at h
      · cases h
      · cases h
        rfl
    · cases h
      rfl
  | balanceAvailable address amount =>
    simp only [init] at h
    split at h
    · cases h
      rfl
    · split_ifs at h
      · cases h
        rfl
      · cases h
  | canSwap swap =>
    obtain ⟨_,_,h⟩ := Except.bind_eq_ok.mp h
    cases h
    rfl
  | strategyStatus m a status =>
    obtain ⟨_,_,h⟩ := Except.bind_eq_ok.mp h
    cases h
    rfl
  | finLimitOrderFilled owner pair side price =>
    obtain ⟨_,_,h⟩ := Except.bind_eq_ok.mp h
    obtain ⟨_,_,h⟩ := Except.bind_eq_ok.mp h
    cases h
    rfl
  | oraclePrice asset direction price =>
    simp only [init] at h
    split at h
    · cases h
    · cases h
      rfl
  | assetValueRatio ratio =>
    obtain ⟨_,_,h⟩ := Except.bind_eq_ok.mp h
    cases h
    rfl
  | timestampElapsed t => cases h; rfl
  | blocksCompleted height => cases h; rfl

namespace Node

variable {node node' : Node}

/-- Every message of a node pays someone whom the node names, and the node names nobody new. -/
theorem execute_pays (h : node.execute deps env=.ok (messages,node')) :
    (∀ m ∈ messages, ∃ payee ∈ node.payees, Pays env.contract m payee) ∧ node'.payees ⊆ node.payees := by
  cases node with
  | condition c i s f =>
    obtain ⟨⟨ms,c'⟩,hc,he⟩ := Except.map_eq_ok.mp h
    cases he
    cases c with
    | schedule schedule =>
      obtain ⟨rebate,condition,s₁,_,_,hadvance,rfl,rfl⟩ := Schedule.executeUnsafe_eq_ok hc
      refine ⟨fun m hm => ?_,?_⟩
      · obtain rfl := List.mem_singleton.mp hm
        exact ⟨_,List.mem_singleton.mpr rfl,.trigger rfl⟩
      · obtain ⟨_,_,_,_,rfl⟩ | ⟨_,_,rfl⟩ := Schedule.advance_eq_ok hadvance
        · exact fun _ hp => hp
        · exact fun _ hp => hp
    | _ => cases hc; exact ⟨by simp,fun _ hp => hp⟩
  | action a i next =>
    obtain ⟨⟨ms,a'⟩,ha,he⟩ := Except.map_eq_ok.mp h
    cases he
    cases a with
    | swap s =>
      obtain ⟨_,hs,he⟩ := Except.map_eq_ok.mp ha
      cases he
      exact Swap.executeUnsafe_pays hs
    | distribute d =>
      obtain ⟨_,hd,he⟩ := Except.map_eq_ok.mp ha
      cases he
      exact Distribution.executeUnsafe_pays hd
    | limitOrder o =>
      obtain ⟨⟨ms',o'⟩,ho,he⟩ := Except.map_eq_ok.mp ha
      cases he
      refine ⟨fun m hm => ?_,?_⟩
      · obtain ⟨price,target,funds,rfl⟩ := FinLimitOrder.executeUnsafe_messages ho m hm
        exact ⟨_,List.mem_singleton.mpr rfl,.order⟩
      · obtain ⟨_,_,ho⟩ := Except.bind_eq_ok.mp ho
        obtain ⟨_,_,ho⟩ := Except.bind_eq_ok.mp ho
        cases ho
        exact fun _ hp => hp

theorem cancel_pays (h : node.cancel deps env=.ok (messages,node')) :
    (∀ m ∈ messages, ∃ payee ∈ node.payees, Pays env.contract m payee) ∧ node'.payees ⊆ node.payees := by
  obtain ⟨rfl,rfl⟩ := cancel_orders h
  refine ⟨fun m hm => ?_,fun _ hp => hp⟩
  obtain ⟨slot,hslot,rfl⟩ := Option.map_eq_some_iff.mp (Option.mem_toList.mp hm)
  unfold named at hslot
  split at hslot
  · obtain ⟨_,_,rfl⟩ := Option.map_eq_some_iff.mp hslot
    exact ⟨_,List.mem_singleton.mpr rfl,.order⟩
  · cases hslot

/-- A node that is checked names its own payees and the affiliates. -/
theorem init_payees {affiliates : List Affiliate} (h : node.init deps env affiliates=.ok node') :
    ∀ payee ∈ node'.payees, payee ∈ node.payees ∨ ∃ affiliate ∈ affiliates, payee=.account affiliate.address := by
  cases node with
  | condition c i s f =>
    obtain ⟨c',hc,rfl⟩ := Except.map_eq_ok.mp h
    obtain rfl : c'=c := Condition.init_same hc
    exact fun _ hp => .inl hp
  | action a i next =>
    obtain ⟨a',ha,rfl⟩ := Except.map_eq_ok.mp h
    cases a with
    | limitOrder o =>
      obtain ⟨o',ho,rfl⟩ := Except.map_eq_ok.mp ha
      obtain rfl : o'=o := FinLimitOrder.init_same ho
      exact fun _ hp => .inl hp
    | swap s =>
      obtain ⟨s',hs,rfl⟩ := Except.map_eq_ok.mp ha
      obtain ⟨_,_,hs⟩ := Except.bind_eq_ok.mp hs
      cases hs
      intro payee hp
      obtain ⟨r,hr,rfl⟩ := List.mem_map.mp hp
      obtain ⟨r',hr',rfl⟩ := List.mem_map.mp hr
      refine .inl (List.mem_map.mpr ⟨r',hr',?_⟩)
      cases r' <;> rfl
    | distribute d =>
      obtain ⟨d',hd,rfl⟩ := Except.map_eq_ok.mp ha
      simp only [Distribution.init,genericErr,Except.ite_error_eq_ok] at hd
      obtain ⟨_,_,hd⟩ := Except.bind_eq_ok.mp hd.2.2.2
      simp only [Except.ite_error_eq_ok] at hd
      intro payee hp
      obtain ⟨destination,hmem,rfl⟩ := List.mem_map.mp hp
      rw [(Distribution.withAffiliates_eq_ok hd.2).2] at hmem
      rcases List.mem_append.mp hmem with hmem | hmem
      · exact .inl (List.mem_map_of_mem hmem)
      · obtain ⟨affiliate,haff,rfl⟩ := List.mem_map.mp hmem
        exact .inr ⟨affiliate,haff,rfl⟩

end Node
end
end CalcRs
