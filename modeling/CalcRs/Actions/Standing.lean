import CalcRs.Actions.Targets

/-! Running a limit order again: what a FIN pair does with its messages, and the order that stands. -/
namespace CalcRs

/-- A FIN pair: the denom that an order of a side offers, and another one that it is paid in. -/
structure FinPair where
  bid : Side → Denom
  ask : Side → Denom
  distinct : ∀ side, bid side≠ask side

namespace Account

/-- The bank after an order message: `paid` leaves it, and the excess and what was filled comes back. -/
def settled (account : Account) (bid ask : Denom) (paid back filled : ℕ) (denom : Denom) : ℕ :=
  if denom=bid then account.bank denom-paid+back
  else if denom=ask then account.bank denom+filled
  else account.bank denom

/-- An order message with one target: it pays out what was filled and makes the offer and the remaining
amount exactly the target. Funds of another denom, or too little of them, are rejected. -/
def setOrder (account : Account) (pair : FinPair) (side : Side) (price : Decimal) (target : ℕ) (funds : List Coin) :
    Account :=
  let remaining := ((account.orderAt side price).map OrderResponse.remaining).getD 0
  let filled := ((account.orderAt side price).map OrderResponse.filled).getD 0
  let bid := pair.bid side
  let paid := amountIn bid funds
  if (∀ coin ∈ funds, coin.denom=bid) ∧ paid≤account.bank bid ∧ target ≤ remaining+paid then
    { bank := account.settled bid (pair.ask side) paid (remaining+paid-target) filled
      orders := account.orders.filter (fun order => order.place≠(side,price)) ++
        if target=0 then [] else [⟨side,price,target,target,0⟩] }
  else account

/-- A message arrives at the pair. -/
def deliver (pair : FinPair) (pairAddress : Addr) (account : Account) : CosmosMsg → Account
  | .wasmExecute address (.finOrder [(side,price,some target)]) funds =>
    if address=pairAddress then account.setOrder pair side price target funds else account
  | _ => account

section

variable {account : Account} {pair : FinPair} {side : Side} {price : Decimal} {target : ℕ} {order : OrderResponse}

theorem orderAt_nil {bank : Denom → ℕ} : (Account.mk bank []).orderAt side price=none := rfl

theorem orderAt_of_nil (h : account.orders=[]) : account.orderAt side price=none := by rw [orderAt,h]; rfl

theorem orderAt_of_singleton (h : account.orders=[order]) (hp : order.place=(side,price)) :
    account.orderAt side price=some order := by
  rw [orderAt,h]
  simp [hp]

/-- Funds of another denom are turned away. -/
theorem setOrder_otherDenom {amount : ℕ} {denom : Denom} (h : denom≠pair.bid side) :
    account.setOrder pair side price target [⟨amount,denom⟩]=account :=
  if_neg fun hall => h (hall.1 _ List.mem_cons_self)

/-- Closing the only order gives back what is left of it and pays out what was filled. -/
theorem setOrder_close (h : account.orders=[order]) (hp : order.place=(side,price)) :
    account.setOrder pair side price 0 []=
      ⟨account.settled (pair.bid side) (pair.ask side) 0 order.remaining order.filled,[]⟩ := by
  unfold setOrder
  rw [orderAt_of_singleton h hp,h]
  simp [hp]

/-- With no order open, the funds become the order. -/
theorem setOrder_new (h : account.orders=[]) (hpaid : target≤account.bank (pair.bid side)) :
    account.setOrder pair side price target [⟨target,pair.bid side⟩]=
      ⟨account.settled (pair.bid side) (pair.ask side) target 0 0,
        if target=0 then [] else [⟨side,price,target,target,0⟩]⟩ := by
  unfold setOrder
  rw [orderAt_of_nil h,h]
  simp [hpaid]

/-- The only order is set again. -/
theorem setOrder_again {amount : ℕ} (h : account.orders=[order]) (hp : order.place=(side,price))
    (hpaid : amount≤account.bank (pair.bid side)) (htarget : target≤order.remaining+amount) :
    account.setOrder pair side price target [⟨amount,pair.bid side⟩]=
      ⟨account.settled (pair.bid side) (pair.ask side) amount (order.remaining+amount-target) order.filled,
        if target=0 then [] else [⟨side,price,target,target,0⟩]⟩ := by
  unfold setOrder
  rw [orderAt_of_singleton h hp,h]
  simp [hp,hpaid,htarget]

theorem settled_bid {bid ask : Denom} {paid back filled : ℕ} :
    account.settled bid ask paid back filled bid=account.bank bid-paid+back := if_pos rfl

/-- What is paid comes back, and nothing was filled. -/
theorem settled_nothing {bid ask : Denom} {paid : ℕ} (h : paid≤account.bank bid) :
    account.settled bid ask paid paid 0=account.bank := by
  funext denom
  unfold settled
  split_ifs with hbid
  · rw [hbid]
    omega
  · rfl
  · rfl

end

end Account

/-- A limit order node, and what its strategy has on the pair. -/
@[ext] structure Held where
  node : FinLimitOrder
  account : Account

namespace Held

/-- `commit`, when the messages have arrived. -/
def committed (market : Deps) (env : Env) (x : Held) : Outcome Held := do
  let node ← x.node.commit (market.seeing x.node.pairAddress env.contract x.account) env
  return ⟨node,x.account⟩

/-- The action executes, its messages arrive and it commits; a call that errs emits none. -/
def process [Crates] (pair : FinPair) (market : Deps) (env : Env) (x : Held) : Outcome Held := do
  match ← Fault.attempt (x.node.executeUnsafe (market.seeing x.node.pairAddress env.contract x.account) env) with
  | .ok (messages,node) =>
    Held.committed market env ⟨node,messages.foldl (Account.deliver pair x.node.pairAddress) x.account⟩
  | .error _ => x.committed market env

/-- One run of the action; one that aborts leaves everything as it was. -/
def run [Crates] (pair : FinPair) (market : Deps) (env : Env) (x : Held) : Held :=
  (x.process pair market env).toOption.getD x

/-- The order that the node names, if any, is the only one that is open. -/
def Sole (x : Held) : Prop :=
  (x.node.currentOrder=none ∧ x.account.orders=[]) ∨
    ∃ current order, x.node.currentOrder=some current ∧ x.account.orders=[order] ∧
      order.place=(x.node.side,current.price)

/-- A commit forgets an order that is not open. -/
def known (x : Held) : Held :=
  ⟨{ x.node with currentOrder := x.node.currentOrder.filter fun current =>
      (x.account.orderAt x.node.side current.price).isSome },x.account⟩

variable {pair : FinPair} {market : Deps} {env : Env} {x : Held}

theorem known_of_none (hc : x.node.currentOrder=none) : x.known=x := by
  have hfilter : (x.node.currentOrder.filter fun current => (x.account.orderAt x.node.side current.price).isSome)=
      x.node.currentOrder := by rw [hc]; rfl
  rw [known,hfilter]

theorem known_of_open {current : StaleOrder} {order : OrderResponse} (hc : x.node.currentOrder=some current)
    (ho : x.account.orderAt x.node.side current.price=some order) : x.known=x := by
  have hfilter : (x.node.currentOrder.filter fun current => (x.account.orderAt x.node.side current.price).isSome)=
      x.node.currentOrder := by
    rw [hc,Option.filter_eq_some_iff]
    exact ⟨rfl,by rw [ho]; rfl⟩
  rw [known,hfilter]

theorem known_of_closed {current : StaleOrder} (hc : x.node.currentOrder=some current)
    (ho : x.account.orderAt x.node.side current.price=none) :
    x.known=⟨{ x.node with currentOrder := none },x.account⟩ := by
  have hfilter : (x.node.currentOrder.filter fun current => (x.account.orderAt x.node.side current.price).isSome)=
      none := by
    rw [hc,Option.filter_eq_none_iff]
    rintro _ ⟨⟩
    simp [ho]
  rw [known,hfilter]

theorem known_of_sole (h : x.Sole) : x.known=x := by
  obtain ⟨hc,_⟩ | ⟨current,order,hc,ho,hp⟩ := h
  · exact known_of_none hc
  · exact known_of_open hc (Account.orderAt_of_singleton ho hp)

theorem committed_eq : x.committed market env=.ok x.known := by
  unfold committed FinLimitOrder.commit
  cases hc : x.node.currentOrder with
  | none => rw [known_of_none hc]; rfl
  | some current =>
    have hquery : (market.seeing x.node.pairAddress env.contract x.account).finOrder x.node.pairAddress env.contract
        x.node.side current.price=x.account.order x.node.side current.price := if_pos ⟨rfl,rfl⟩
    simp only [StaleOrder.refresh,hquery,Account.order]
    cases ho : x.account.orderAt x.node.side current.price with
    | none => rw [known_of_closed hc ho]; rfl
    | some order => rw [known_of_open hc ho]; rfl

/-! ### Orders that stand -/

section

variable {node : FinLimitOrder} {newPrice : Decimal} {messages : List CosmosMsg}

/-- What the order is sized by. -/
def available (x : Held) : ℕ := x.account.bank x.node.bidDenom+(x.account.orders.map x.node.counted).sum

/-- The order is left alone: nothing is withdrawn, and setting it again changes nothing. -/
structure Stands (pair : FinPair) (newPrice : Decimal) (x : Held) : Prop where
  sole : x.Sole
  kept : ∀ current, x.node.currentOrder=some current → ∀ order ∈ x.account.orders,
    ¬x.node.Withdraws current.price newPrice order
  again : (x.node.setTo newPrice (x.node.sized x.available) (x.account.bank x.node.bidDenom)).messages.foldl
    (Account.deliver pair x.node.pairAddress) x.account=x.account

theorem Sole.nodup (h : x.Sole) : (x.account.orders.map OrderResponse.place).Nodup := by
  obtain ⟨_,ho⟩ | ⟨_,_,_,ho,_⟩ := h <;> rw [ho] <;> simp

theorem Sole.orders_eq (h : x.Sole) {current : StaleOrder} (hc : x.node.currentOrder=some current) {order : OrderResponse}
    (hmem : order ∈ x.account.orders) : x.account.orders=[order] := by
  obtain ⟨hc',_⟩ | ⟨_,o,_,ho,_⟩ := h
  · exact absurd (hc'.symm.trans hc) (by simp)
  · obtain rfl := List.mem_singleton.mp (ho ▸ hmem)
    exact ho

theorem Sole.orders_nil (h : x.Sole) (hc : x.node.currentOrder=none) : x.account.orders=[] := by
  obtain ⟨_,ho⟩ | ⟨_,_,hc',_⟩ := h
  · exact ho
  · exact absurd (hc.symm.trans hc') (by simp)

theorem available_of_one {order : OrderResponse} {price : Decimal} (ho : x.account.orders=[order])
    (hp : order.place=(x.node.side,price)) : x.available=x.account.bank x.node.bidDenom+order.remaining := by
  rw [available,ho]
  simp [FinLimitOrder.counted,(FinLimitOrder.place_eq.mp hp).1]

theorem deliver_orderMsg (account : Account) (price : Decimal) (target : ℕ) (funds : List Coin) :
    Account.deliver pair node.pairAddress account (orderMsg node price target funds)=
      account.setOrder pair node.side price target funds := if_pos rfl

/-- In a denom that the pair does not take nothing is ever set. -/
theorem set_otherDenom (h : node.bidDenom≠pair.bid node.side) (finalOffer deployable : ℕ) (account : Account) :
    (node.setTo newPrice finalOffer deployable).messages.foldl (Account.deliver pair node.pairAddress) account=account := by
  unfold FinLimitOrder.setTo
  split_ifs
  · rfl
  · exact (deliver_orderMsg _ _ _ _).trans (Account.setOrder_otherDenom h)

theorem stands_otherDenom (h : x.node.bidDenom≠pair.bid x.node.side) (hs : x.Sole)
    (hkept : ∀ current, x.node.currentOrder=some current → ∀ order ∈ x.account.orders,
      ¬x.node.Withdraws current.price newPrice order) : x.Stands pair newPrice :=
  ⟨hs,hkept,set_otherDenom h _ _ _⟩

/-- The price of an order is as it has to be once it is set. -/
theorem reprice_settled (node : FinLimitOrder) (newPrice : Decimal) :
    node.strategy.shouldReset (node.reprice newPrice).2 newPrice=false := by
  cases hc : node.currentOrder with
  | none => rw [FinLimitOrder.reprice,hc,PriceStrategy.shouldReset_self]
  | some current =>
    rw [FinLimitOrder.reprice_some hc]
    cases hr : node.strategy.shouldReset current.price newPrice with
    | true => exact PriceStrategy.shouldReset_self _ _
    | false => exact hr

/-- Nothing is open, and there is nothing to set. -/
theorem stands_empty (hb : x.node.bidDenom=pair.bid x.node.side) (hc : x.node.currentOrder=none)
    (ho : x.account.orders=[]) (h0 : x.node.sized (x.account.bank x.node.bidDenom)=0) : x.Stands pair newPrice where
  sole := .inl ⟨hc,ho⟩
  kept current hc' := by simp [hc] at hc'
  again := by
    have havailable : x.available=x.account.bank x.node.bidDenom := by rw [available,ho]; rfl
    rw [havailable,h0,FinLimitOrder.setTo,Nat.min_zero]
    split_ifs
    · rfl
    · rw [List.foldl_cons,List.foldl_nil,deliver_orderMsg,hb,Account.setOrder_new ho (Nat.zero_le _),if_pos rfl,
        Account.settled_nothing (Nat.zero_le _),← ho]

/-- The order is the target, of what it is sized by. -/
theorem stands_placed {price : Decimal} {offer : ℕ} (hb : x.node.bidDenom=pair.bid x.node.side)
    (hc : x.node.currentOrder=some ⟨price⟩) (ho : x.account.orders=[⟨x.node.side,price,offer,offer,0⟩]) (h0 : offer≠0)
    (hreset : x.node.strategy.shouldReset price newPrice=false)
    (hsized : x.node.sized (x.account.bank x.node.bidDenom+offer)=offer) : x.Stands pair newPrice where
  sole := .inr ⟨_,_,hc,ho,rfl⟩
  kept current hc' order hmem := by
    obtain rfl := Option.some.inj (hc.symm.trans hc')
    obtain rfl := List.mem_singleton.mp (ho ▸ hmem)
    simp [FinLimitOrder.Withdraws,h0,hreset]
  again := by
    have havailable : x.available=x.account.bank x.node.bidDenom+offer := by
      rw [available,ho]
      simp [FinLimitOrder.counted]
    have hprice : x.node.reprice newPrice=(false,price) := by
      rw [FinLimitOrder.reprice_some hc,hreset]
      rfl
    rw [havailable,hsized,FinLimitOrder.setTo,hprice]
    by_cases hzero : min (x.account.bank x.node.bidDenom) offer=0
    · rw [if_pos ⟨hzero,Bool.false_ne_true⟩]
      rfl
    · rw [if_neg fun h => hzero h.1,List.foldl_cons,List.foldl_nil,deliver_orderMsg,hb,
        Account.setOrder_again ho rfl (Nat.min_le_left _ _) (Nat.le_add_right _ _),if_neg h0,Nat.add_sub_cancel_left,
        Account.settled_nothing (Nat.min_le_left _ _),← ho]

/-- What is set with nothing else open stands. -/
theorem stands_set {account : Account} {price : Decimal} (hb : node.bidDenom=pair.bid node.side)
    (ho : account.orders=[]) (hreset : node.strategy.shouldReset price newPrice=false)
    (hle : node.sized (account.bank node.bidDenom)≤account.bank node.bidDenom) :
    (Held.known ⟨{ node with currentOrder := some ⟨price⟩ },account.setOrder pair node.side price
      (node.sized (account.bank node.bidDenom)) [⟨node.sized (account.bank node.bidDenom),node.bidDenom⟩]⟩).Stands
        pair newPrice := by
  generalize hoffer : node.sized (account.bank node.bidDenom)=offer at hle ⊢
  have hset := @Account.setOrder_new account pair node.side price offer ho (hb ▸ hle)
  rw [← hb] at hset
  rw [hset]
  by_cases h0 : offer=0
  · subst h0
    rw [if_pos rfl,Account.settled_nothing (Nat.zero_le _)]
    have hclosed := @known_of_closed ⟨{ node with currentOrder := some ⟨price⟩ },⟨account.bank,[]⟩⟩ _ rfl Account.orderAt_nil
    rw [hclosed]
    exact stands_empty hb rfl rfl hoffer
  · rw [if_neg h0]
    have hopen := @known_of_open ⟨{ node with currentOrder := some ⟨price⟩ },
      ⟨account.settled node.bidDenom (pair.ask node.side) offer 0 0,[⟨node.side,price,offer,offer,0⟩]⟩⟩ _ _ rfl
      (Account.orderAt_of_singleton rfl rfl)
    rw [hopen]
    refine stands_placed hb rfl rfl h0 hreset ?_
    dsimp only
    rw [Account.settled_bid,Nat.add_zero,Nat.sub_add_cancel hle]
    exact hoffer

/-- The node as it is once its order is set, after these messages. -/
def after (x : Held) (pair : FinPair) (newPrice : Decimal) (messages : List CosmosMsg) : Held :=
  ⟨{ x.node with currentOrder := some ⟨(x.node.reprice newPrice).2⟩ },
    messages.foldl (Account.deliver pair x.node.pairAddress) x.account⟩

theorem after_fresh (hs : x.Sole) (hsized : ∀ amount, x.node.sized amount≤amount) (hc : x.node.currentOrder=none) :
    (x.after pair newPrice (x.node.setTo newPrice (x.node.sized x.available)
      (x.account.bank x.node.bidDenom)).messages).known.Stands pair newPrice := by
  have ho : x.account.orders=[] := hs.orders_nil hc
  by_cases hb : x.node.bidDenom=pair.bid x.node.side
  · have havailable : x.available=x.account.bank x.node.bidDenom := by rw [available,ho]; rfl
    have hreset : (x.node.reprice newPrice).1=true := by rw [FinLimitOrder.reprice,hc]
    rw [after,havailable,FinLimitOrder.setTo,if_neg (by simp [hreset]),List.foldl_cons,List.foldl_nil,deliver_orderMsg,
      Nat.min_eq_right (hsized _)]
    exact stands_set hb ho (reprice_settled _ _) (hsized _)
  · have hclosed := @known_of_closed ⟨{ x.node with currentOrder := some ⟨(x.node.reprice newPrice).2⟩ },x.account⟩ _ rfl
      (Account.orderAt_of_nil ho)
    rw [after,set_otherDenom hb,hclosed]
    exact stands_otherDenom hb (.inl ⟨rfl,ho⟩) fun _ h => by cases h

/-- An order that is kept is topped up to the target, or left as it is. -/
theorem after_kept (hs : x.Sole) (hsized : ∀ amount, x.node.sized amount≤amount) {current : StaleOrder}
    {order : OrderResponse} (hc : x.node.currentOrder=some current) (hmem : order ∈ x.account.orders)
    (hplace : order.place=(x.node.side,current.price)) (hkeep : ¬x.node.Withdraws current.price newPrice order) :
    (x.after pair newPrice (x.node.setTo newPrice (x.node.sized x.available)
      (x.account.bank x.node.bidDenom)).messages).known.Stands pair newPrice := by
  have ho : x.account.orders=[order] := hs.orders_eq hc hmem
  have hreset : x.node.strategy.shouldReset current.price newPrice=false := FinLimitOrder.not_reset_of_kept hkeep
  have hprice : x.node.reprice newPrice=(false,current.price) := by
    rw [FinLimitOrder.reprice_some hc,hreset]
    rfl
  have hsame : ({ x.node with currentOrder := some ⟨(x.node.reprice newPrice).2⟩ } : FinLimitOrder)=x.node := by
    rw [hprice,← hc]
  have hkept : ∀ c, x.node.currentOrder=some c → ∀ o ∈ x.account.orders, ¬x.node.Withdraws c.price newPrice o := by
    intro c hc' o hmem'
    obtain rfl := Option.some.inj (hc.symm.trans hc')
    obtain rfl := List.mem_singleton.mp (ho ▸ hmem')
    exact hkeep
  rw [after,hsame]
  by_cases hb : x.node.bidDenom=pair.bid x.node.side
  · have havailable : x.available=x.account.bank x.node.bidDenom+order.remaining := available_of_one ho hplace
    by_cases hzero : min (x.account.bank x.node.bidDenom) (x.node.sized x.available)=0
    · have hsilent : (x.node.setTo newPrice (x.node.sized x.available) (x.account.bank x.node.bidDenom)).messages=[] := by
        rw [FinLimitOrder.setTo,hprice,if_pos ⟨hzero,Bool.false_ne_true⟩]
      rw [hsilent,List.foldl_nil,show Held.mk x.node x.account=x from rfl,known_of_sole hs]
      exact ⟨hs,hkept,by rw [hsilent]; rfl⟩
    · have hle : x.node.sized x.available≤x.account.bank x.node.bidDenom+order.remaining := havailable ▸ hsized _
      rw [FinLimitOrder.setTo,hprice,if_neg fun h => hzero h.1,List.foldl_cons,List.foldl_nil,deliver_orderMsg]
      generalize hoffer : x.node.sized x.available=offer at hzero hle ⊢
      have hset := @Account.setOrder_again x.account pair x.node.side current.price offer order
        (min (x.account.bank x.node.bidDenom) offer) ho hplace (hb ▸ Nat.min_le_left _ _) (by omega)
      have h0 : offer≠0 := fun h0 => hzero (by rw [h0,Nat.min_zero])
      rw [← hb,if_neg h0] at hset
      have hopen := @known_of_open ⟨x.node,⟨x.account.settled x.node.bidDenom (pair.ask x.node.side)
        (min (x.account.bank x.node.bidDenom) offer)
        (order.remaining+min (x.account.bank x.node.bidDenom) offer-offer) order.filled,
          [⟨x.node.side,current.price,offer,offer,0⟩]⟩⟩ _ _ hc (Account.orderAt_of_singleton rfl rfl)
      rw [hset,hopen]
      refine stands_placed hb hc rfl h0 hreset ?_
      dsimp only
      rw [Account.settled_bid]
      have hbank : x.account.bank x.node.bidDenom-min (x.account.bank x.node.bidDenom) offer+
          (order.remaining+min (x.account.bank x.node.bidDenom) offer-offer)+offer=x.available := by omega
      rw [hbank,hoffer]
  · rw [set_otherDenom hb,show Held.mk x.node x.account=x from rfl,known_of_sole hs]
    exact stands_otherDenom hb hs hkept

/-- An order that is closed first leaves all of its amount to be set again. -/
theorem after_closed (hs : x.Sole) (hsized : ∀ amount, x.node.sized amount≤amount) {current : StaleOrder}
    {order : OrderResponse} (hc : x.node.currentOrder=some current) (hmem : order ∈ x.account.orders)
    (hplace : order.place=(x.node.side,current.price)) :
    (x.after pair newPrice (orderMsg x.node current.price 0 [] :: (x.node.setTo newPrice (x.node.sized x.available)
      (x.account.bank x.node.bidDenom+order.remaining)).messages)).known.Stands pair newPrice := by
  have ho : x.account.orders=[order] := hs.orders_eq hc hmem
  rw [after,List.foldl_cons,deliver_orderMsg,Account.setOrder_close ho hplace]
  generalize haccount : Account.mk (x.account.settled (pair.bid x.node.side) (pair.ask x.node.side) 0
    order.remaining order.filled) []=account
  have hnone : account.orders=[] := by rw [← haccount]
  have hclosed := @known_of_closed ⟨{ x.node with currentOrder := some ⟨(x.node.reprice newPrice).2⟩ },account⟩ _ rfl
    (Account.orderAt_of_nil hnone)
  by_cases hb : x.node.bidDenom=pair.bid x.node.side
  · have hbank : account.bank x.node.bidDenom=x.available := by
      rw [← haccount,available_of_one ho hplace,hb]
      exact Account.settled_bid
    rw [← available_of_one ho hplace]
    by_cases hsilent : min x.available (x.node.sized x.available)=0 ∧ ¬(x.node.reprice newPrice).1
    · have hzero : x.node.sized x.available=0 := by
        have := hsized x.available
        omega
      rw [FinLimitOrder.setTo,if_pos hsilent,List.foldl_nil,hclosed]
      exact stands_empty hb rfl hnone (by rw [← hbank] at hzero; exact hzero)
    · rw [FinLimitOrder.setTo,if_neg hsilent,List.foldl_cons,List.foldl_nil,deliver_orderMsg,
        Nat.min_eq_right (hsized _),← hbank]
      exact stands_set hb hnone (reprice_settled _ _) (hsized _)
  · rw [set_otherDenom hb,hclosed]
    exact stands_otherDenom hb (.inl ⟨rfl,hnone⟩) fun _ h => by cases h

/-- A bid amount that `init` accepts is at most what is available. -/
theorem sized_le_of_init {node' : FinLimitOrder} (h : node.init=.ok node') (amount : ℕ) : node.sized amount≤amount := by
  obtain ⟨_,hcheck,_⟩ := Except.bind_eq_ok.mp h
  unfold FinLimitOrder.checkBidAmount at hcheck
  unfold FinLimitOrder.sized
  cases hbid : node.bidAmount with
  | fixed n => exact Nat.min_le_left _ _
  | fraction percent =>
    rw [hbid] at hcheck
    dsimp only at hcheck
    have hle : percent.atomics≤Decimal.fractional := by
      by_contra hgt
      have hlt : Decimal.percent 100<percent := Nat.not_le.mp hgt
      rw [if_pos (Or.inr hlt)] at hcheck
      cases hcheck
    exact Decimal.scale_le amount hle

/-! ### One run -/

variable [Crates]

theorem run_of_ok (h : x.node.executeUnsafe (market.seeing x.node.pairAddress env.contract x.account) env=.ok (messages,node)) :
    x.run pair market env=
      Held.known ⟨node,messages.foldl (Account.deliver pair x.node.pairAddress) x.account⟩ := by
  rw [run,process,h,Fault.attempt_ok,Except.ok_bind]
  dsimp only
  rw [committed_eq]
  rfl

/-- A run that does not get to its messages changes nothing. -/
theorem run_of_not_ok (hs : x.Sole)
    (h : ∀ r, x.node.executeUnsafe (market.seeing x.node.pairAddress env.contract x.account) env≠.ok r) :
    x.run pair market env=x := by
  rw [run,process]
  rcases hx : x.node.executeUnsafe (market.seeing x.node.pairAddress env.contract x.account) env with (e | _ | _) | r
  · rw [Fault.attempt_err,Except.ok_bind]
    dsimp only
    rw [committed_eq,known_of_sole hs]
    rfl
  · rfl
  · rfl
  · exact absurd hx (h r)

/-- Of the market and the block, an execution uses the new price only. -/
theorem executeUnsafe_congr {market' : Deps} {env' : Env}
    (h : x.node.strategy.getNewPrice market x.node.pairAddress=x.node.strategy.getNewPrice market' x.node.pairAddress) :
    x.node.executeUnsafe (market.seeing x.node.pairAddress env.contract x.account) env=
      x.node.executeUnsafe (market'.seeing x.node.pairAddress env'.contract x.account) env' := by
  have hprice : ∀ (market : Deps) owner, x.node.strategy.getNewPrice (market.seeing x.node.pairAddress owner x.account)
      x.node.pairAddress=x.node.strategy.getNewPrice market x.node.pairAddress := fun _ _ => rfl
  have hbalance : ∀ (market : Deps) owner, (market.seeing x.node.pairAddress owner x.account).queryBalance owner
      x.node.bidDenom=.ok ⟨x.account.bank x.node.bidDenom,x.node.bidDenom⟩ := fun _ _ => if_pos rfl
  have horders : ∀ (market : Deps) owner, (market.seeing x.node.pairAddress owner x.account).finOrders
      x.node.pairAddress owner=.ok x.account.orders := fun _ _ => if_pos ⟨rfl,rfl⟩
  have horder : ∀ (market : Deps) owner price, (market.seeing x.node.pairAddress owner x.account).finOrder
      x.node.pairAddress owner x.node.side price=x.account.order x.node.side price := fun _ _ _ => if_pos ⟨rfl,rfl⟩
  unfold FinLimitOrder.executeUnsafe FinLimitOrder.withdrawExisting UnsetOrder.set
  simp only [StaleOrder.refresh,SetOrder.saturatingWithdraw,hprice,hbalance,horders,horder,h]

theorem run_congr {market' : Deps} {env' : Env}
    (h : x.node.strategy.getNewPrice market x.node.pairAddress=x.node.strategy.getNewPrice market' x.node.pairAddress) :
    x.run pair market env=x.run pair market' env' := by
  have hcommit : ∀ y : Held, y.committed market env=y.committed market' env' :=
    fun y => committed_eq.trans committed_eq.symm
  have hexec := @executeUnsafe_congr market env x _ market' env' h
  rw [run,run,process,process,hexec]
  simp only [hcommit]

/-- What an execution emits, when nothing else is open. -/
theorem executeUnsafe_sole (hs : x.Sole)
    (hp : x.node.strategy.getNewPrice market x.node.pairAddress=.ok newPrice)
    (h : x.node.executeUnsafe (market.seeing x.node.pairAddress env.contract x.account) env=.ok (messages,node)) :
    ∃ closing withdrawn, x.node.Withdrawn newPrice x.account.orders closing withdrawn ∧
      messages=closing ++ (x.node.setTo newPrice (x.node.sized x.available)
        (x.account.bank x.node.bidDenom+withdrawn)).messages ∧
      node={ x.node with currentOrder := some ⟨(x.node.reprice newPrice).2⟩ } :=
  FinLimitOrder.executeUnsafe_withdrawn (Deps.seeing_lists market _ _ hs.nodup) hp (if_pos rfl) h

theorem Stands.run_eq (h : x.Stands pair newPrice)
    (hp : x.node.strategy.getNewPrice market x.node.pairAddress=.ok newPrice) : x.run pair market env=x := by
  by_cases hok : ∃ r, x.node.executeUnsafe (market.seeing x.node.pairAddress env.contract x.account) env=.ok r
  · obtain ⟨⟨messages,node⟩,hok⟩ := hok
    obtain ⟨closing,withdrawn,hw,rfl,rfl⟩ := executeUnsafe_sole h.sole hp hok
    rw [run_of_ok hok]
    cases hw with
    | fresh hc =>
      rw [List.nil_append,Nat.add_zero,h.again]
      have hnone := h.sole.orders_nil hc
      have hclosed := @known_of_closed ⟨{ x.node with currentOrder := some ⟨(x.node.reprice newPrice).2⟩ },x.account⟩ _ rfl
        (Account.orderAt_of_nil hnone)
      refine hclosed.trans ?_
      dsimp only
      rw [← hc]
    | kept current order hc hmem hplace hkeep =>
      rw [List.nil_append,Nat.add_zero,h.again]
      have hreset := FinLimitOrder.not_reset_of_kept hkeep
      have hsame : ({ x.node with currentOrder := some ⟨(x.node.reprice newPrice).2⟩ } : FinLimitOrder)=x.node := by
        rw [FinLimitOrder.reprice_some hc,hreset]
        dsimp only
        rw [if_neg Bool.false_ne_true,← hc]
      rw [hsame]
      exact known_of_sole h.sole
    | closed current order hc hmem hplace hwith => exact absurd hwith (h.kept current hc order hmem)
  · exact run_of_not_ok h.sole fun r hr => hok ⟨r,hr⟩

/-- The first run already leaves an order that stands. -/
theorem run_stands (hs : x.Sole) (hsized : ∀ amount, x.node.sized amount≤amount)
    (hp : x.node.strategy.getNewPrice market x.node.pairAddress=.ok newPrice)
    (hok : x.node.executeUnsafe (market.seeing x.node.pairAddress env.contract x.account) env=.ok (messages,node)) :
    (x.run pair market env).Stands pair newPrice := by
  obtain ⟨closing,withdrawn,hw,rfl,rfl⟩ := executeUnsafe_sole hs hp hok
  rw [run_of_ok hok]
  cases hw with
  | fresh hc => exact after_fresh hs hsized hc
  | kept current order hc hmem hplace hkeep => exact after_kept hs hsized hc hmem hplace hkeep
  | closed current order hc hmem hplace _ => exact after_closed hs hsized hc hmem hplace

/-- A second run with the same new price and no fill in between changes nothing. -/
theorem run_again {market' : Deps} {env' : Env} (hs : x.Sole)
    (hinit : FinLimitOrder.init { x.node with currentOrder := none }=.ok { x.node with currentOrder := none })
    (h : x.node.strategy.getNewPrice market x.node.pairAddress=x.node.strategy.getNewPrice market' x.node.pairAddress) :
    (x.run pair market env).run pair market' env'=x.run pair market env := by
  by_cases hok : ∃ r, x.node.executeUnsafe (market.seeing x.node.pairAddress env.contract x.account) env=.ok r
  · obtain ⟨⟨messages,node⟩,hok⟩ := hok
    obtain ⟨_,_,hset⟩ := Except.bind_eq_ok.mp hok
    obtain ⟨_,hset,_⟩ := Except.bind_eq_ok.mp hset
    obtain ⟨newPrice,hprice,_⟩ := FinLimitOrder.set_eq_ok hset
    have hp : x.node.strategy.getNewPrice market x.node.pairAddress=.ok newPrice := hprice
    have hsized : ∀ amount, x.node.sized amount≤amount := fun amount => sized_le_of_init hinit amount
    have hstands : (x.run pair market env).Stands pair newPrice := run_stands hs hsized hp hok
    refine hstands.run_eq ?_
    obtain ⟨_,_,_,_,rfl⟩ := executeUnsafe_sole hs hp hok
    rw [run_of_ok hok]
    exact h.symm.trans hp
  · have hnot := fun r hr => hok ⟨r,hr⟩
    rw [run_of_not_ok hs hnot,← run_congr h]
    exact run_of_not_ok hs hnot

end

section

attribute [local instance] Crates.plain

def runeUsdPair : FinPair where
  bid side := if side=.base then "rune" else "usd"
  ask side := if side=.base then "usd" else "rune"
  distinct side := by cases side <;> decide

/-- Half of what is available is bid, and 300 of the 400 bid before were filled. -/
def partlyFilled : Held :=
  ⟨⟨"pair","rune",.fraction (.percent 50),.base,.fixed .one,none,some ⟨.one⟩⟩,
    ⟨fun denom => if denom="rune" then 700 else 0,[⟨.base,.one,400,100,300⟩]⟩⟩

/-- The first run claims the 300 and sets half of the 800 again; the second finds it so. -/
theorem run_again_partlyFilled :
    (partlyFilled.run runeUsdPair Deps.silent ⟨⟨1,⟨1⟩⟩,"strategy"⟩).account.orders=[⟨.base,.one,400,400,0⟩] ∧
      (partlyFilled.run runeUsdPair Deps.silent ⟨⟨1,⟨1⟩⟩,"strategy"⟩).run runeUsdPair Deps.silent ⟨⟨2,⟨2⟩⟩,"strategy"⟩=
        partlyFilled.run runeUsdPair Deps.silent ⟨⟨1,⟨1⟩⟩,"strategy"⟩ :=
  ⟨by decide +kernel,run_again (.inr ⟨_,_,rfl,rfl,rfl⟩) (by decide +kernel) rfl⟩

end

end Held
end CalcRs
