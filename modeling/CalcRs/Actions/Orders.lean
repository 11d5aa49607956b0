import CalcRs.Actions.Payouts
import CalcRs.Model.Node

/-! The orders that the stages of a node place and close, and the order that the node names meanwhile. -/
namespace CalcRs

/-- The place of an order among the orders of one owner. -/
structure Slot where
  pair : Addr
  side : Side
  price : Decimal
  deriving DecidableEq

/-- The message that closes the order in its place. -/
def Slot.closing (slot : Slot) : CosmosMsg := .wasmExecute slot.pair (.finOrder [(slot.side,slot.price,some 0)]) []

/-- The order that is named by the stored `current_order`. -/
def FinLimitOrder.named (self : FinLimitOrder) : Option Slot :=
  self.currentOrder.map fun order => ⟨self.pairAddress,self.side,order.price⟩

def Node.named : Node → Option Slot
  | .action (.limitOrder o) _ _ => o.named
  | _ => none

theorem FinLimitOrder.named_eq_none {self : FinLimitOrder} : self.named=none ↔ self.currentOrder=none :=
  Option.map_eq_none_iff

/-- The price moved so far that an execution gives up the order at the current price. -/
def FinLimitOrder.isReset [Crates] (self : FinLimitOrder) (deps : Deps) : Bool :=
  match self.currentOrder,self.strategy.getNewPrice deps self.pairAddress with
  | some order,.ok newPrice => self.strategy.shouldReset order.price newPrice
  | _,_ => false

def Node.isReset [Crates] (deps : Deps) : Node → Bool
  | .action (.limitOrder o) _ _ => o.isReset deps
  | _ => false

/-- The entries of an `Order` message with their places; other messages have none. -/
def CosmosMsg.orders [Crates] : CosmosMsg → List (Slot × Option ℕ)
  | .wasmExecute pair (.finOrder entries) _ => entries.map fun e => (⟨pair,e.1,e.2.1⟩,e.2.2)
  | .wasmExecute pair (.raw body) _ => ((Crates.parseOrder body).getD []).map fun e => (⟨pair,e.1,e.2.1⟩,e.2.2)
  | _ => []

/-- No destination of the node is sent an `Order` message of the user's. -/
def Node.NoUserOrders [Crates] : Node → Prop
  | .action (.distribute d) _ _ => ∀ dest ∈ d.destinations, ∀ address body,
      dest.recipient=.contract address body → Crates.parseOrder body=none
  | _ => True

/-- All messages are about one order. -/
def OnlyAt [Crates] (slot : Option Slot) (messages : List CosmosMsg) : Prop :=
  ∀ m ∈ messages, ∀ e ∈ m.orders, slot=some e.1

namespace FinLimitOrder

variable {deps : Deps} {env : Env} {self self' : FinLimitOrder} {messages : List CosmosMsg}

/-- `cancel` changes nothing and closes the order, if there is one to be named. -/
theorem cancel_eq_ok (h : self.cancel deps env=.ok (messages,self')) :
    self'=self ∧ match self.currentOrder with
      | none => messages=[]
      | some current => messages=[orderMsg self current.price 0 []] := by
  unfold cancel at h
  cases hc : self.currentOrder with
  | none =>
    simp only [hc] at h
    cases h
    exact ⟨rfl,rfl⟩
  | some current =>
    simp only [hc] at h
    obtain ⟨refreshed,hr,h⟩ := Except.bind_eq_ok.mp h
    obtain ⟨_,_,hr⟩ := Except.bind_eq_ok.mp hr
    cases hr
    cases h
    exact ⟨rfl,rfl⟩

theorem refresh_eq_err {order : StaleOrder} {e : StdError} (h : order.refresh deps env self=.error (.err e)) :
    ∃ e, deps.finOrder self.pairAddress env.contract self.side order.price=.error e := by
  rcases Except.bind_eq_error.mp h with hq | ⟨_,_,h⟩
  · cases ho : deps.finOrder self.pairAddress env.contract self.side order.price with
    | ok response => simp [ho] at hq
    | error e => exact ⟨e,rfl⟩
  · cases h

/-- `cancel` fails when the order does not exist. -/
theorem cancel_eq_err {e : StdError} (h : self.cancel deps env=.error (.err e)) :
    ∃ current e, self.currentOrder=some current ∧
      deps.finOrder self.pairAddress env.contract self.side current.price=.error e := by
  unfold cancel at h
  cases hc : self.currentOrder with
  | none => simp [hc] at h
  | some current =>
    simp only [hc] at h
    rcases Except.bind_eq_error.mp h with hr | ⟨_,_,h⟩
    · obtain ⟨e,he⟩ := refresh_eq_err hr
      exact ⟨current,e,rfl,he⟩
    · cases h

/-- `commit` forgets the order only when it does not exist. -/
theorem commit_eq_ok (h : self.commit deps env=.ok self') : self'=self ∨
    ∃ current e, self.currentOrder=some current ∧ self'.currentOrder=none ∧
      deps.finOrder self.pairAddress env.contract self.side current.price=.error e := by
  unfold commit at h
  cases hc : self.currentOrder with
  | none =>
    simp only [hc] at h
    exact .inl (Except.ok.inj h).symm
  | some current =>
    simp only [hc] at h
    obtain ⟨result,hr,h⟩ := Except.bind_eq_ok.mp h
    cases result with
    | ok _ => exact .inl (Except.ok.inj h).symm
    | error e =>
      obtain ⟨e,he⟩ := refresh_eq_err (Fault.attempt_eq_ok_error.mp hr)
      cases h
      exact .inr ⟨current,e,rfl,rfl,he⟩

end FinLimitOrder

/-- A route is executed by a swap on its pair or by a deposit. -/
theorem SwapRoute.execute_message {deps : Deps} {env : Env} {route : SwapRoute} {a b : Coin} {message : CosmosMsg}
    (h : route.execute deps env a b=.ok message) :
    (∃ pair minimum funds, message=.wasmExecute pair (.finSwap minimum) funds) ∨ ∃ d, message=.deposit d := by
  cases route with
  | fin route =>
    cases h
    exact .inl ⟨_,_,_,rfl⟩
  | thorchain route =>
    simp only [SwapRoute.execute,ThorchainRoute.execute] at h
    cases hl : route.latestSwap with
    | none => simp [hl,genericErr] at h
    | some swap =>
      simp only [hl] at h
      obtain ⟨_,_,h⟩ := Except.bind_eq_ok.mp h
      cases h
      exact .inr ⟨_,rfl⟩

namespace Node

variable {deps : Deps} {env : Env} {node node' : Node} {messages : List CosmosMsg}

/-- A cancelled node is kept, and the order that it names is closed. -/
theorem cancel_orders (h : node.cancel deps env=.ok (messages,node')) :
    node'=node ∧ messages=(node.named.map Slot.closing).toList := by
  cases node with
  | condition c i s f =>
    cases h
    exact ⟨rfl,rfl⟩
  | action a i next =>
    obtain ⟨⟨ms,a'⟩,ha,he⟩ := Except.map_eq_ok.mp h
    cases he
    cases a with
    | swap s =>
      cases ha
      exact ⟨rfl,rfl⟩
    | distribute d =>
      cases ha
      exact ⟨rfl,rfl⟩
    | limitOrder o =>
      obtain ⟨⟨ms',o'⟩,ho,he⟩ := Except.map_eq_ok.mp ha
      cases he
      obtain ⟨rfl,hm⟩ := FinLimitOrder.cancel_eq_ok ho
      refine ⟨rfl,?_⟩
      cases hc : o'.currentOrder with
      | none => simpa [named,FinLimitOrder.named,hc] using hm
      | some current => simpa [named,FinLimitOrder.named,hc,Slot.closing,orderMsg] using hm

/-- The order exists, to the pair that is asked about it. -/
def Exists (deps : Deps) (env : Env) (slot : Slot) : Prop :=
  ∃ order, deps.finOrder slot.pair env.contract slot.side slot.price=.ok order

theorem cancel_err_named {e : StdError} (h : node.cancel deps env=.error (.err e)) :
    ∃ slot, node.named=some slot ∧ ¬Exists deps env slot := by
  have hmap : ∀ {α β : Type} {g : α → β} {x : Outcome α}, g <$> x=.error (.err e) → x=.error (.err e) :=
    fun {_ _ _ x} hx => by
      cases x with
      | ok a => cases hx
      | error f => cases hx; rfl
  cases node with
  | condition c i s f => cases h
  | action a i next =>
    have ha := hmap h
    cases a with
    | swap s => cases ha
    | distribute d => cases ha
    | limitOrder o =>
      obtain ⟨current,e,hc,he⟩ := FinLimitOrder.cancel_eq_err (hmap ha)
      refine ⟨⟨o.pairAddress,o.side,current.price⟩,by simp [named,FinLimitOrder.named,hc],?_⟩
      rintro ⟨order,ho⟩
      simp [he] at ho

/-- A commit forgets only an order that does not exist. -/
theorem commit_named (h : node.commit deps env=.ok node') {slot : Slot} (hn : node.named=some slot)
    (hs : Exists deps env slot) : node'.named=some slot := by
  cases node with
  | condition c i s f => cases hn
  | action a i next =>
    obtain ⟨a',ha,rfl⟩ := Except.map_eq_ok.mp h
    cases a with
    | swap s => cases hn
    | distribute d => cases hn
    | limitOrder o =>
      obtain ⟨o',ho,rfl⟩ := Except.map_eq_ok.mp ha
      rcases FinLimitOrder.commit_eq_ok ho with rfl | ⟨current,e,hc,_,he⟩
      · exact hn
      · exfalso
        obtain rfl : slot=⟨o.pairAddress,o.side,current.price⟩ := by
          simpa [named,FinLimitOrder.named,hc] using hn.symm
        obtain ⟨order,ho⟩ := hs
        simp [he] at ho

end Node

section

variable [Crates] {deps : Deps} {env : Env}

@[simp] theorem onlyAt_nil {slot : Option Slot} : OnlyAt slot [] := by simp [OnlyAt]

theorem onlyAt_append {slot : Option Slot} {xs ys : List CosmosMsg} :
    OnlyAt slot (xs ++ ys) ↔ OnlyAt slot xs ∧ OnlyAt slot ys := by
  simp only [OnlyAt,List.mem_append]
  exact ⟨fun h => ⟨fun m hm => h m (.inl hm),fun m hm => h m (.inr hm)⟩,
    fun h m hm => hm.elim (h.1 m) (h.2 m)⟩

theorem orderMsg_orders (o : FinLimitOrder) (price : Decimal) (target : ℕ) (funds : List Coin) :
    (orderMsg o price target funds).orders=[(⟨o.pairAddress,o.side,price⟩,some target)] := rfl

theorem onlyAt_orderMsg (o : FinLimitOrder) (price : Decimal) (target : ℕ) (funds : List Coin) :
    OnlyAt (some ⟨o.pairAddress,o.side,price⟩) [orderMsg o price target funds] := by
  simp [OnlyAt,orderMsg_orders]

namespace FinLimitOrder

variable {self self' : FinLimitOrder} {messages : List CosmosMsg}

theorem set_eq_ok {state : UnsetOrder} {setting : SettingOrder} (h : state.set self deps env=.ok setting) :
    ∃ newPrice, self.strategy.getNewPrice deps self.pairAddress=.ok newPrice ∧
      setting.price=(self.reprice newPrice).2 ∧
      (setting.messages=[] ∨ ∃ target funds, setting.messages=[orderMsg self setting.price target funds]) := by
  obtain ⟨newPrice,hp,h⟩ := Except.bind_eq_ok.mp h
  simp only at h
  obtain ⟨balance,_,h⟩ := Except.bind_eq_ok.mp h
  obtain ⟨orders,_,h⟩ := Except.bind_eq_ok.mp h
  obtain ⟨unclaimed,_,h⟩ := Except.bind_eq_ok.mp h
  obtain ⟨available,_,h⟩ := Except.bind_eq_ok.mp h
  obtain ⟨finalOffer,_,h⟩ := Except.bind_eq_ok.mp h
  obtain ⟨deployable,_,h⟩ := Except.bind_eq_ok.mp h
  refine ⟨newPrice,hp,?_⟩
  split_ifs at h
  · cases h
    exact ⟨rfl,.inl rfl⟩
  · cases h
    exact ⟨rfl,.inr ⟨finalOffer,_,rfl⟩⟩

/-- A reset closes the order first; otherwise every message is about the order that is kept. -/
theorem withdrawExisting_eq_ok {order : UnsetOrder} (h : self.withdrawExisting deps env=.ok (messages,order)) :
    match self.currentOrder with
    | none => messages=[]
    | some current => messages=[] ∧ self.isReset deps=false ∨ messages=[orderMsg self current.price 0 []] := by
  unfold withdrawExisting at h
  cases hc : self.currentOrder with
  | none =>
    simp only [hc] at h
    cases h
    rfl
  | some current =>
    simp only [hc] at h
    obtain ⟨refreshed,hr,h⟩ := Except.bind_eq_ok.mp h
    obtain ⟨withdrawing,hw,h⟩ := Except.bind_eq_ok.mp h
    cases h
    obtain ⟨_,_,hr⟩ := Except.bind_eq_ok.mp hr
    cases hr
    obtain ⟨newPrice,hp,hw⟩ := Except.bind_eq_ok.mp hw
    obtain ⟨ratio,_,hw⟩ := Except.bind_eq_ok.mp hw
    simp only at hw
    cases hreset : self.strategy.shouldReset current.price newPrice with
    | true =>
      simp only [hreset,or_true,if_true] at hw
      cases hw
      exact .inr rfl
    | false =>
      simp only [hreset,Bool.false_eq_true,if_false] at hw
      split_ifs at hw
      · cases hw
        exact .inr rfl
      · cases hw
        exact .inl ⟨rfl,by simp [isReset,hc,hp,hreset]⟩

/-- An execution either keeps the place of the order or, when it is due, closes the order in its first
message and goes on at another place. -/
theorem executeUnsafe_orders (h : self.executeUnsafe deps env=.ok (messages,self')) :
    ((∀ slot, self.named=some slot → self'.named=some slot) ∧ OnlyAt self'.named messages) ∨
      self.isReset deps=true ∧ ∃ current rest, self.currentOrder=some current ∧
        messages=orderMsg self current.price 0 [] :: rest ∧ OnlyAt self'.named rest := by
  obtain ⟨⟨withdrawMessages,order⟩,hw,h⟩ := Except.bind_eq_ok.mp h
  obtain ⟨setting,hs,h⟩ := Except.bind_eq_ok.mp h
  obtain ⟨hmessages,hself⟩ := Prod.mk.inj (Except.ok.inj h)
  obtain ⟨newPrice,hp,hprice,hsent⟩ := set_eq_ok hs
  have hset : OnlyAt (some ⟨self.pairAddress,self.side,setting.price⟩) setting.messages := by
    rcases hsent with he | ⟨target,funds,he⟩ <;> rw [he]
    · exact onlyAt_nil
    · exact onlyAt_orderMsg self _ target funds
  have hw := withdrawExisting_eq_ok hw
  have hnamed : self'.named=some ⟨self.pairAddress,self.side,setting.price⟩ := by
    rw [← hself]
    rfl
  rw [hnamed,← hmessages]
  cases hc : self.currentOrder with
  | none =>
    simp only [hc] at hw
    subst hw
    exact .inl ⟨by simp [named,hc],hset⟩
  | some current =>
    simp only [hc] at hw
    have hreset : self.isReset deps=self.strategy.shouldReset current.price newPrice := by simp [isReset,hc,hp]
    by_cases hr : self.isReset deps=true
    · refine .inr ⟨hr,current,setting.messages,rfl,?_,hset⟩
      rcases hw with ⟨_,hr'⟩ | rfl
      · simp [hr] at hr'
      · rfl
    · have hkeep : setting.price=current.price := by
        rw [hprice]
        simp [reprice,hc,← hreset,hr]
      rw [hkeep] at hset ⊢
      refine .inl ⟨by simp [named,hc],?_⟩
      rcases hw with ⟨rfl,_⟩ | rfl
      · exact hset
      · exact onlyAt_append.mpr ⟨onlyAt_orderMsg self current.price 0 [],hset⟩

/-- An execution sends nothing but order messages to its pair. -/
theorem executeUnsafe_messages (h : self.executeUnsafe deps env=.ok (messages,self')) :
    ∀ m ∈ messages, ∃ price target funds, m=orderMsg self price target funds := by
  obtain ⟨⟨withdrawMessages,order⟩,hw,h⟩ := Except.bind_eq_ok.mp h
  obtain ⟨setting,hs,h⟩ := Except.bind_eq_ok.mp h
  obtain ⟨rfl,-⟩ := Prod.mk.inj (Except.ok.inj h)
  obtain ⟨_,_,_,hset⟩ := set_eq_ok hs
  intro m hm
  rcases List.mem_append.mp hm with hm | hm
  · have hw := withdrawExisting_eq_ok hw
    cases hc : self.currentOrder with
    | none =>
      simp only [hc] at hw
      simp [hw] at hm
    | some current =>
      simp only [hc] at hw
      rcases hw with ⟨hw,_⟩ | hw
      · simp [hw] at hm
      · exact ⟨_,_,_,List.mem_singleton.mp (hw ▸ hm)⟩
  · rcases hset with he | ⟨target,funds,he⟩
    · simp [he] at hm
    · exact ⟨_,_,_,List.mem_singleton.mp (he ▸ hm)⟩

end FinLimitOrder

theorem Swap.executeUnsafe_message {s s' : Swap} {messages : List CosmosMsg}
    (h : s.executeUnsafe deps env=.ok (messages,s')) : ∃ message, messages=[message] ∧
      ((∃ pair minimum funds, message=.wasmExecute pair (.finSwap minimum) funds) ∨ ∃ d, message=.deposit d) := by
  obtain ⟨quote,_,h⟩ := Except.bind_eq_ok.mp h
  obtain ⟨message,hm,h⟩ := Except.bind_eq_ok.mp h
  cases h
  exact ⟨message,rfl,SwapRoute.execute_message hm⟩

/-- A condition creates a trigger, or sends nothing. -/
theorem Condition.execute_message {c c' : Condition} {messages : List CosmosMsg}
    (h : c.execute deps env=.ok (messages,c')) :
    messages=[] ∨ ∃ scheduler command funds, messages=[.wasmExecute scheduler (.scheduler (.create command)) funds] := by
  cases c with
  | schedule schedule =>
    obtain ⟨_,_,h⟩ := Except.bind_eq_ok.mp h
    obtain ⟨_,_,h⟩ := Except.bind_eq_ok.mp h
    obtain ⟨_,_,h⟩ := Except.bind_eq_ok.mp h
    cases h
    exact .inr ⟨_,_,_,rfl⟩
  | _ =>
    cases h
    exact .inl rfl

theorem Recipient.distributeMessage_orders {recipient : Recipient} {coins : List Coin} {message : CosmosMsg}
    (hr : ∀ address body, recipient=.contract address body → Crates.parseOrder body=none)
    (h : recipient.distributeMessage deps env coins=.ok message) : message.orders=[] := by
  cases recipient with
  | bank address =>
    cases h
    rfl
  | contract address body =>
    cases h
    simp [CosmosMsg.orders,hr address body rfl]
  | deposit memo =>
    obtain ⟨_,_,h⟩ := Except.bind_eq_ok.mp h
    cases h
    rfl

theorem Distribution.executeUnsafe_orders {d d' : Distribution} {messages : List CosmosMsg}
    (hr : ∀ dest ∈ d.destinations, ∀ address body, dest.recipient=.contract address body →
      Crates.parseOrder body=none)
    (h : d.executeUnsafe deps env=.ok (messages,d')) : ∀ m ∈ messages, m.orders=[] := by
  obtain ⟨balances,hread,⟨_,rfl,_⟩ | ⟨_,_,hmessages,_⟩⟩ := Distribution.executeUnsafe_payments h
  · simp
  · intro m hm
    obtain ⟨i,hi,rfl⟩ := List.getElem_of_mem hm
    have hi' := hmessages.length_eq ▸ hi
    refine Recipient.distributeMessage_orders (hr _ ?_) (hmessages.get hi' hi)
    rw [← Distribution.payments_fst hread]
    exact List.mem_map_of_mem (List.mem_of_mem_filter (List.get_mem _ ⟨i,hi'⟩))

namespace Node

variable {node node' : Node} {messages : List CosmosMsg}

/-- What an execution does to the order that the node names. -/
theorem execute_orders (h : node.execute deps env=.ok (messages,node')) :
    ((∀ slot, node.named=some slot → node'.named=some slot) ∧ (node.NoUserOrders → OnlyAt node'.named messages)) ∨
      node.isReset deps=true ∧ ∃ slot close rest, node.named=some slot ∧ close.orders=[(slot,some 0)] ∧
        messages=close :: rest ∧ OnlyAt node'.named rest := by
  cases node with
  | condition c i s f =>
    obtain ⟨⟨ms,c'⟩,hc,he⟩ := Except.map_eq_ok.mp h
    cases he
    refine .inl ⟨by simp [named],fun _ m hm => ?_⟩
    rcases Condition.execute_message hc with rfl | ⟨_,_,_,rfl⟩
    · simp at hm
    · rw [List.mem_singleton.mp hm]
      simp [CosmosMsg.orders]
  | action a i next =>
    obtain ⟨⟨ms,a'⟩,ha,he⟩ := Except.map_eq_ok.mp h
    cases he
    cases a with
    | swap s =>
      obtain ⟨⟨ms',s'⟩,hs,he⟩ := Except.map_eq_ok.mp ha
      cases he
      obtain ⟨message,rfl,hkind⟩ := Swap.executeUnsafe_message hs
      refine .inl ⟨by simp [named],fun _ m hm => ?_⟩
      rw [List.mem_singleton.mp hm]
      rcases hkind with ⟨_,_,_,rfl⟩ | ⟨_,rfl⟩ <;> simp [CosmosMsg.orders]
    | distribute d =>
      obtain ⟨⟨ms',d'⟩,hd,he⟩ := Except.map_eq_ok.mp ha
      cases he
      refine .inl ⟨by simp [named],fun hu m hm => ?_⟩
      rw [Distribution.executeUnsafe_orders hu hd m hm]
      simp
    | limitOrder o =>
      obtain ⟨⟨ms',o'⟩,ho,he⟩ := Except.map_eq_ok.mp ha
      cases he
      rcases FinLimitOrder.executeUnsafe_orders ho with hkeep | ⟨hr,current,rest,hc,hm,hrest⟩
      · exact .inl ⟨hkeep.1,fun _ => hkeep.2⟩
      · exact .inr ⟨hr,⟨o.pairAddress,o.side,current.price⟩,orderMsg o current.price 0 [],rest,
          by simp [named,FinLimitOrder.named,hc],rfl,hm,hrest⟩

end Node
end
end CalcRs
