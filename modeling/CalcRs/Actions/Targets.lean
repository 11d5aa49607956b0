import CalcRs.Foundation.Lists
import CalcRs.Actions.Orders

/-! The target of a limit order, and what there is to back it. -/
namespace CalcRs

theorem PriceStrategy.shouldReset_self (strategy : PriceStrategy) (price : Decimal) :
    strategy.shouldReset price price=false := by
  have hdelta : price.absDiff price=Decimal.zero := by simp [Decimal.absDiff,Decimal.zero]
  have hzero : ∀ d : Decimal, ¬d<Decimal.zero := fun d => Nat.not_lt_zero _
  cases strategy with
  | fixed p => simp [shouldReset]
  | offset side direction delta tolerance =>
    cases tolerance with
    | none => simp [shouldReset]
    | some tolerance => cases tolerance <;> simp [shouldReset,hdelta,hzero]

/-- The place of an order on its pair. -/
def OrderResponse.place (order : OrderResponse) : Side × Decimal := (order.side,order.price)

/-- The owner's orders on a pair, one in each place, and the answers of the pair about them. -/
structure Deps.Lists (deps : Deps) (pair owner : Addr) (orders : List OrderResponse) : Prop where
  distinct : (orders.map OrderResponse.place).Nodup
  listed : deps.finOrders pair owner=.ok orders
  found : ∀ side price order, deps.finOrder pair owner side price=.ok order ↔ order ∈ orders ∧ order.place=(side,price)

/-- What an owner has: its bank balances, and its open orders on one pair. -/
structure Account where
  bank : Denom → ℕ
  orders : List OrderResponse

namespace Account

def orderAt (account : Account) (side : Side) (price : Decimal) : Option OrderResponse :=
  account.orders.find? fun order => order.place=(side,price)

/-- A query for an order that is not open errs. -/
def order (account : Account) (side : Side) (price : Decimal) : StdResult OrderResponse :=
  match account.orderAt side price with
  | some order => .ok order
  | none => .error (.notFound "order")

end Account

/-- The same chain, with the owner's account answered. -/
def Deps.seeing (deps : Deps) (pair owner : Addr) (account : Account) : Deps :=
  { deps with
    queryBalance := fun address denom =>
      if address=owner then .ok ⟨account.bank denom,denom⟩ else deps.queryBalance address denom
    finOrders := fun address o => if address=pair ∧ o=owner then .ok account.orders else deps.finOrders address o
    finOrder := fun address o side price =>
      if address=pair ∧ o=owner then account.order side price else deps.finOrder address o side price }

theorem Deps.seeing_lists (deps : Deps) (pair owner : Addr) {account : Account}
    (h : (account.orders.map OrderResponse.place).Nodup) :
    (deps.seeing pair owner account).Lists pair owner account.orders where
  distinct := h
  listed := if_pos ⟨rfl,rfl⟩
  found side price order := by
    have hquery : (deps.seeing pair owner account).finOrder pair owner side price=account.order side price :=
      if_pos ⟨rfl,rfl⟩
    rw [hquery,Account.order]
    cases hfind : account.orderAt side price with
    | none =>
      refine iff_of_false (fun h => by cases h) fun hmem => ?_
      exact absurd hmem.2 (of_decide_eq_false (Bool.of_not_eq_true (List.find?_eq_none.mp hfind order hmem.1)))
    | some found =>
      have hplace : found.place=(side,price) := by simpa using List.find?_some hfind
      have hmem : found ∈ account.orders := List.mem_of_find?_eq_some hfind
      rw [Except.ok.injEq]
      constructor
      · rintro rfl
        exact ⟨hmem,hplace⟩
      · exact fun ho => List.inj_on_of_nodup_map h hmem ho.1 (hplace.trans ho.2.symm)

/-- What is left of the orders in one place. -/
def restingAt (orders : List OrderResponse) (side : Side) (price : Decimal) : ℕ :=
  ((orders.filter fun order => order.place=(side,price)).map OrderResponse.remaining).sum

theorem restingAt_eq {orders : List OrderResponse} (h : (orders.map OrderResponse.place).Nodup) {order : OrderResponse}
    (ho : order ∈ orders) {side : Side} {price : Decimal} (hp : order.place=(side,price)) :
    restingAt orders side price=order.remaining := by
  rw [restingAt,← hp,filter_key_eq h ho]
  simp

namespace FinLimitOrder

/-- What an order of the strategy adds to the amount that the offer is sized by. -/
def counted (self : FinLimitOrder) (order : OrderResponse) : ℕ :=
  if order.side=self.side then order.remaining else order.filled

/-- The offer out of what is available, before it has to fit. -/
def sized (self : FinLimitOrder) (available : ℕ) : ℕ :=
  match self.bidAmount with
  | .fixed amount => min available amount
  | .fraction percent => available*percent.atomics/Decimal.fractional

/-- The order that is set with this much to fund it, if any. -/
def setTo (self : FinLimitOrder) (newPrice : Decimal) (finalOffer deployable : ℕ) : SettingOrder :=
  if min deployable finalOffer=0 ∧ ¬(self.reprice newPrice).1 then ⟨(self.reprice newPrice).2,0,[]⟩
  else ⟨(self.reprice newPrice).2,finalOffer,
    [orderMsg self (self.reprice newPrice).2 finalOffer [⟨min deployable finalOffer,self.bidDenom⟩]]⟩

/-- Whether an execution first withdraws the order. -/
def Withdraws (self : FinLimitOrder) (price newPrice : Decimal) (order : OrderResponse) : Prop :=
  order.remaining=0 ∨ (0 < order.filled ∧ self.minFillRatio.getD Decimal.zero≤
    Decimal.one.saturatingSub ⟨order.remaining*Decimal.fractional/order.offer⟩) ∨
    self.strategy.shouldReset price newPrice

instance (self : FinLimitOrder) (price newPrice : Decimal) (order : OrderResponse) :
    Decidable (self.Withdraws price newPrice order) :=
  inferInstanceAs (Decidable (_ ∨ (_ ∧ _) ∨ _))

section

variable {self : FinLimitOrder} {newPrice : Decimal} {balance : Coin} {orders : List OrderResponse}
  {messages closing : List CosmosMsg} {withdrawn : ℕ}

theorem finalOffer_eq_ok {available n : ℕ} (h : available<2^128) :
    self.finalOffer available=.ok n ↔ self.sized available<2^128 ∧ n=self.sized available := by
  unfold finalOffer sized
  cases self.bidAmount with
  | fixed amount =>
    simp only [Except.ok.injEq]
    constructor
    · rintro rfl
      exact ⟨by omega,rfl⟩
    · exact fun h => h.2.symm
  | fraction percent =>
    simp only [Uint128.mulFloor,fits_eq_ok]
    exact and_congr_right fun _ => eq_comm

theorem sum_eq_ok_iff {xs : List ℕ} {n a : ℕ} :
    (∃ m, Uint128.sum xs=.ok m ∧ Uint128.add a m=.ok n) ↔ a+xs.sum<2^128 ∧ n=a+xs.sum := by
  constructor
  · rintro ⟨m,hm,ha⟩
    obtain rfl := Uint128.sum_eq_ok hm
    obtain ⟨hlt,rfl⟩ := fits_eq_ok.mp ha
    exact ⟨hlt,rfl⟩
  · rintro ⟨hlt,rfl⟩
    exact ⟨_,Uint128.sum_of_lt (by omega),fits_of_lt hlt⟩

/-! ### What backs the target -/

/-- The order that the node names, or one in the place where it sets the next. -/
def Owns (self : FinLimitOrder) (newPrice : Decimal) (order : OrderResponse) : Prop :=
  order.side=self.side ∧ (order.price=(self.reprice newPrice).2 ∨ self.currentOrder=some ⟨order.price⟩)

instance (self : FinLimitOrder) (newPrice : Decimal) (order : OrderResponse) : Decidable (self.Owns newPrice order) :=
  inferInstanceAs (Decidable (_ ∧ (_ ∨ _)))

/-- The balance, and what is left of the orders that the node can use. -/
def backing (self : FinLimitOrder) (newPrice : Decimal) (orders : List OrderResponse) (balance : ℕ) : ℕ :=
  balance+((orders.filter fun order => self.Owns newPrice order).map OrderResponse.remaining).sum

/-- What the strategy's other orders on the pair add to the size. -/
def elsewhere (self : FinLimitOrder) (newPrice : Decimal) (orders : List OrderResponse) : ℕ :=
  ((orders.filter fun order => ¬self.Owns newPrice order).map self.counted).sum

/-- Nothing is deployed: the balance is empty, and the order is kept and nothing of it withdrawn. -/
def Idle (self : FinLimitOrder) (newPrice : Decimal) (orders : List OrderResponse) (balance : ℕ) : Prop :=
  balance=0 ∧ ∃ current, self.currentOrder=some current ∧ ¬self.strategy.shouldReset current.price newPrice ∧
    ∀ order ∈ orders, order.place=(self.side,current.price) →
      order.remaining=0 ∨ ¬self.Withdraws current.price newPrice order

/-- The other orders do not raise the offer above what backs it. -/
def Backed (self : FinLimitOrder) (newPrice : Decimal) (orders : List OrderResponse) (balance : ℕ) : Prop :=
  self.Idle newPrice orders balance ∨
    match self.bidAmount with
    | .fixed amount => self.elsewhere newPrice orders=0 ∨ amount ≤ self.backing newPrice orders balance
    | .fraction percent => (self.backing newPrice orders balance+self.elsewhere newPrice orders)*percent.atomics<
        (self.backing newPrice orders balance+1)*Decimal.fractional

/-- What is left of the order at this price after the messages before. -/
def stillResting (self : FinLimitOrder) (orders : List OrderResponse) (before : List CosmosMsg) (price : Decimal) : ℕ :=
  if orderMsg self price 0 [] ∈ before then 0 else restingAt orders self.side price

/-- What the messages before give back. -/
def returned (self : FinLimitOrder) (orders : List OrderResponse) (before : List CosmosMsg) : ℕ :=
  ((orders.filter fun order => order.side=self.side ∧ orderMsg self order.price 0 [] ∈ before).map
    OrderResponse.remaining).sum

/-- Every order that is set can be paid: by its funds and what rests already, and the funds by the bank. -/
def FullyFunded (self : FinLimitOrder) (orders : List OrderResponse) (balance : ℕ) (messages : List CosmosMsg) : Prop :=
  ∀ before after price target funding,
    messages=before ++ orderMsg self price target [⟨funding,self.bidDenom⟩] :: after →
      target≤funding+self.stillResting orders before price ∧ funding≤balance+self.returned orders before

theorem counted_of_owns {order : OrderResponse} (h : self.Owns newPrice order) : self.counted order=order.remaining :=
  if_pos h.1

theorem available_eq (amount : ℕ) :
    amount+(orders.map self.counted).sum=self.backing newPrice orders amount+self.elsewhere newPrice orders := by
  rw [backing,elsewhere,Nat.add_assoc,← List.sum_map_filter_add_sum_map_filter_not (fun order => self.Owns newPrice order)]
  congr 3
  exact List.map_congr_left fun order ho => counted_of_owns (of_decide_eq_true (List.mem_filter.mp ho).2)

theorem sized_le_iff {own others : ℕ} : self.sized (own+others)≤own ↔
    match self.bidAmount with
    | .fixed amount => others=0 ∨ amount≤own
    | .fraction percent => (own+others)*percent.atomics<(own+1)*Decimal.fractional := by
  unfold sized
  cases self.bidAmount with
  | fixed amount => simp only; omega
  | fraction percent =>
    simp only
    rw [← Nat.lt_succ_iff]
    exact Nat.div_lt_iff_lt_mul (by decide)

theorem orderMsg_inj {price price' : Decimal} {target target' : ℕ} {funds funds' : List Coin} :
    orderMsg self price target funds=orderMsg self price' target' funds' ↔
      price=price' ∧ target=target' ∧ funds=funds' := by
  simp [orderMsg,and_assoc]

theorem place_eq {order : OrderResponse} {side : Side} {price : Decimal} :
    order.place=(side,price) ↔ order.side=side ∧ order.price=price := Prod.mk_inj

/-- The price is kept unless the order is reset. -/
theorem reprice_some {current : StaleOrder} (hc : self.currentOrder=some current) :
    self.reprice newPrice=(self.strategy.shouldReset current.price newPrice,
      if self.strategy.shouldReset current.price newPrice then newPrice else current.price) := by
  rw [reprice,hc]

theorem backing_of_kept (h : ∀ current, self.currentOrder=some current → current.price=(self.reprice newPrice).2)
    (amount : ℕ) :
    self.backing newPrice orders amount=amount+restingAt orders self.side (self.reprice newPrice).2 := by
  rw [backing,restingAt]
  congr 3
  refine List.filter_congr fun order _ => decide_eq_decide.mpr ?_
  rw [Owns,place_eq]
  refine and_congr_right fun _ => or_iff_left_of_imp fun hc => ?_
  exact h _ hc

theorem backing_of_moved {current : StaleOrder} (hc : self.currentOrder=some current)
    (h : current.price≠(self.reprice newPrice).2) (amount : ℕ) :
    self.backing newPrice orders amount=
      amount+restingAt orders self.side current.price+restingAt orders self.side (self.reprice newPrice).2 := by
  rw [backing,restingAt,restingAt,Nat.add_assoc,
    ← List.sum_map_filter_add_sum_map_filter_not (fun order => order.place=(self.side,current.price)) _
      (orders.filter fun order => self.Owns newPrice order),List.filter_filter,List.filter_filter]
  congr 4
  · refine List.filter_congr fun order _ => ?_
    rw [← Bool.decide_and]
    refine decide_eq_decide.mpr ?_
    rw [place_eq,Owns,hc]
    constructor
    · exact fun hp => hp.1
    · exact fun hp => ⟨hp,hp.1,.inr (by rw [hp.2])⟩
  · refine List.filter_congr fun order _ => ?_
    rw [← Bool.decide_and]
    refine decide_eq_decide.mpr ?_
    rw [place_eq,place_eq,Owns,hc]
    constructor
    · rintro ⟨hne,hside,hprice | hprice⟩
      · exact ⟨hside,hprice⟩
      · obtain rfl := Option.some.inj hprice
        exact absurd ⟨hside,rfl⟩ hne
    · exact fun hp => ⟨fun hcur => h (hcur.2.symm.trans hp.2),hp.1,.inl hp.2⟩

theorem not_reset_of_kept {price : Decimal} {order : OrderResponse} (h : ¬self.Withdraws price newPrice order) :
    self.strategy.shouldReset price newPrice=false := by
  by_contra hr
  exact h (.inr (.inr (Bool.of_not_eq_false hr)))

/-- What an execution withdraws first, and how much that gives back. -/
inductive Withdrawn (self : FinLimitOrder) (newPrice : Decimal) (orders : List OrderResponse) :
    List CosmosMsg → ℕ → Prop where
  | fresh : self.currentOrder=none → Withdrawn self newPrice orders [] 0
  | kept (current : StaleOrder) (order : OrderResponse) : self.currentOrder=some current → order ∈ orders →
      order.place=(self.side,current.price) → ¬self.Withdraws current.price newPrice order →
      Withdrawn self newPrice orders [] 0
  | closed (current : StaleOrder) (order : OrderResponse) : self.currentOrder=some current → order ∈ orders →
      order.place=(self.side,current.price) → self.Withdraws current.price newPrice order →
      Withdrawn self newPrice orders [orderMsg self current.price 0 []] order.remaining

theorem setTo_price (finalOffer deployable : ℕ) :
    (self.setTo newPrice finalOffer deployable).price=(self.reprice newPrice).2 := by
  unfold setTo
  split_ifs <;> rfl

/-- The withdrawal gives back what was left of the order that it closes. -/
theorem Withdrawn.returned_eq (h : self.Withdrawn newPrice orders closing withdrawn)
    (hn : (orders.map OrderResponse.place).Nodup) : self.returned orders closing=withdrawn := by
  have hnone : self.returned orders []=0 := by simp [returned]
  cases h with
  | fresh => exact hnone
  | kept => exact hnone
  | closed current order hc hmem hplace _ =>
    rw [returned,← restingAt_eq hn hmem hplace,restingAt]
    congr 2
    refine List.filter_congr fun x _ => decide_eq_decide.mpr ?_
    rw [place_eq,List.mem_singleton,orderMsg_inj]
    simp

/-- Balance, withdrawal and what then still rests are all that backs the target. -/
theorem Withdrawn.backing_eq (h : self.Withdrawn newPrice orders closing withdrawn)
    (hn : (orders.map OrderResponse.place).Nodup) (amount : ℕ) :
    self.backing newPrice orders amount=
      amount+withdrawn+self.stillResting orders closing (self.reprice newPrice).2 := by
  cases h with
  | fresh hc =>
    rw [backing_of_kept (by simp [hc])]
    rfl
  | kept current order hc hmem hplace hkeep =>
    have hreset := not_reset_of_kept hkeep
    have hsame : ∀ c, self.currentOrder=some c → c.price=(self.reprice newPrice).2 := by
      intro c hc'
      obtain rfl := Option.some.inj (hc.symm.trans hc')
      rw [reprice_some hc,hreset]
      rfl
    rw [backing_of_kept hsame]
    rfl
  | closed current order hc hmem hplace _ =>
    have hmem' : orderMsg self (self.reprice newPrice).2 0 [] ∈ [orderMsg self current.price 0 []] ↔
        (self.reprice newPrice).2=current.price := by
      rw [List.mem_singleton,orderMsg_inj]
      simp
    rw [stillResting]
    by_cases hsame : (self.reprice newPrice).2=current.price
    · rw [if_pos (hmem'.mpr hsame),backing_of_kept (by rw [hc]; rintro _ ⟨⟩; exact hsame.symm),hsame,
        restingAt_eq hn hmem hplace]
      rfl
    · rw [if_neg fun hm => hsame (hmem'.mp hm),backing_of_moved hc (Ne.symm hsame),restingAt_eq hn hmem hplace]

/-- Nothing is set exactly when nothing has to be, or the target is zero. -/
theorem Withdrawn.silent_iff (h : self.Withdrawn newPrice orders closing withdrawn)
    (hn : (orders.map OrderResponse.place).Nodup) {amount finalOffer : ℕ} :
    min (amount+withdrawn) finalOffer=0 ∧ ¬(self.reprice newPrice).1 ↔
      self.Idle newPrice orders amount ∨ finalOffer=0 ∧ ¬(self.reprice newPrice).1 := by
  have hunique : ∀ {current : StaleOrder} {order : OrderResponse}, order ∈ orders → order.place=(self.side,current.price) →
      ∀ x ∈ orders, x.place=(self.side,current.price) → x=order :=
    fun hmem hplace x hx hxp => List.inj_on_of_nodup_map hn hx hmem (hxp.trans hplace.symm)
  cases h with
  | fresh hc =>
    have hreset : (self.reprice newPrice).1=true := by rw [reprice,hc]
    simp [Idle,hc,hreset]
  | kept current order hc hmem hplace hkeep =>
    have hreset := not_reset_of_kept hkeep
    have hidle : self.Idle newPrice orders amount ↔ amount=0 := by
      refine and_iff_left_of_imp fun _ => ⟨current,hc,by simp [hreset],fun x hx hxp => .inr ?_⟩
      rwa [hunique hmem hplace x hx hxp]
    rw [hidle,reprice_some hc,hreset,Nat.add_zero,Nat.min_eq_zero_iff]
    simp
  | closed current order hc hmem hplace hwith =>
    have hidle : self.Idle newPrice orders amount ↔
        (amount=0 ∧ order.remaining=0) ∧ ¬self.strategy.shouldReset current.price newPrice := by
      constructor
      · rintro ⟨h0,c,hc',hreset,hall⟩
        obtain rfl := Option.some.inj (hc.symm.trans hc')
        exact ⟨⟨h0,(hall order hmem hplace).resolve_right (not_not_intro hwith)⟩,hreset⟩
      · rintro ⟨⟨h0,hr0⟩,hreset⟩
        refine ⟨h0,current,hc,hreset,fun x hx hxp => .inl ?_⟩
        rwa [hunique hmem hplace x hx hxp]
    rw [hidle,reprice_some hc,Nat.min_eq_zero_iff,Nat.add_eq_zero_iff,or_and_right]

/-- Withdrawals are never the order that is set. -/
theorem Withdrawn.set_not_mem {closing : List CosmosMsg} {withdrawn : ℕ}
    (h : self.Withdrawn newPrice orders closing withdrawn) (price : Decimal) (target : ℕ) (coin : Coin) :
    orderMsg self price target [coin] ∉ closing := by
  cases h with
  | fresh => exact List.not_mem_nil
  | kept => exact List.not_mem_nil
  | closed =>
    rw [List.mem_singleton,orderMsg_inj]
    exact fun hm => List.cons_ne_nil _ _ hm.2.2

theorem fullyFunded_of_not_mem {amount : ℕ}
    (h : ∀ price target funding, orderMsg self price target [⟨funding,self.bidDenom⟩] ∉ messages) :
    self.FullyFunded orders amount messages := by
  intro before after price target funding he
  exact absurd (he ▸ List.mem_append_right _ List.mem_cons_self) (h price target funding)

/-- One order is set, and it comes last. -/
theorem fullyFunded_set {closing : List CosmosMsg} {price : Decimal} {target funding amount : ℕ}
    (h : ∀ price target funding, orderMsg self price target [⟨funding,self.bidDenom⟩] ∉ closing) :
    self.FullyFunded orders amount (closing ++ [orderMsg self price target [⟨funding,self.bidDenom⟩]]) ↔
      target≤funding+self.stillResting orders closing price ∧ funding≤amount+self.returned orders closing := by
  constructor
  · exact fun hf => hf closing [] price target funding rfl
  · intro hf before after price' target' funding' he
    rcases List.eq_nil_or_concat after with rfl | ⟨rest,last,rfl⟩
    · obtain ⟨rfl,hm⟩ := List.append_singleton_inj.mp he
      obtain ⟨rfl,rfl,hcoins⟩ := orderMsg_inj.mp hm
      obtain rfl : funding=funding' := by simpa using hcoins
      exact hf
    · rw [List.concat_eq_append,← List.cons_append,← List.append_assoc] at he
      obtain ⟨rfl,_⟩ := List.append_singleton_inj.mp he
      exact absurd (by simp) (h price' target' funding')

/-! ### One execution -/

variable [Crates] {deps : Deps} {env : Env} {self' : FinLimitOrder}

/-- What `set` does with the answers that it gets. -/
theorem set_eq_ok_iff (hp : self.strategy.getNewPrice deps self.pairAddress=.ok newPrice)
    (hb : deps.queryBalance env.contract self.bidDenom=.ok balance)
    (ho : deps.finOrders self.pairAddress env.contract=.ok orders) {state : UnsetOrder} {setting : SettingOrder} :
    state.set self deps env=.ok setting ↔
      (balance.amount+(orders.map self.counted).sum<2^128 ∧
        self.sized (balance.amount+(orders.map self.counted).sum)<2^128 ∧ balance.amount+state.withdrawing<2^128) ∧
      setting=self.setTo newPrice (self.sized (balance.amount+(orders.map self.counted).sum))
        (balance.amount+state.withdrawing) := by
  unfold UnsetOrder.set
  rw [hp,Except.ok_bind]
  dsimp only
  rw [hb,query_ok,Except.ok_bind,ho,query_ok,Except.ok_bind]
  constructor
  · intro h
    obtain ⟨unclaimed,hu,h⟩ := Except.bind_eq_ok.mp h
    obtain ⟨available,ha,h⟩ := Except.bind_eq_ok.mp h
    obtain ⟨hlt,rfl⟩ := sum_eq_ok_iff.mp ⟨unclaimed,hu,ha⟩
    obtain ⟨finalOffer,hf,h⟩ := Except.bind_eq_ok.mp h
    obtain ⟨hsized,rfl⟩ := (finalOffer_eq_ok hlt).mp hf
    obtain ⟨deployable,hd,h⟩ := Except.bind_eq_ok.mp h
    obtain ⟨hdlt,rfl⟩ := fits_eq_ok.mp hd
    refine ⟨⟨hlt,hsized,hdlt⟩,?_⟩
    rw [← apply_ite pure] at h
    exact (Except.ok.inj h).symm
  · rintro ⟨⟨hlt,hsized,hdlt⟩,rfl⟩
    obtain ⟨unclaimed,hu,ha⟩ := sum_eq_ok_iff.mpr ⟨hlt,rfl⟩
    refine Except.bind_eq_ok.mpr ⟨unclaimed,hu,Except.bind_eq_ok.mpr ⟨_,ha,?_⟩⟩
    refine Except.bind_eq_ok.mpr ⟨_,(finalOffer_eq_ok hlt).mpr ⟨hsized,rfl⟩,?_⟩
    refine Except.bind_eq_ok.mpr ⟨_,fits_of_lt hdlt,?_⟩
    rw [← apply_ite pure]
    rfl

/-- What is withdrawn of an order that the pair holds. -/
theorem withdrawExisting_eq_ok_iff (hp : self.strategy.getNewPrice deps self.pairAddress=.ok newPrice) {current : StaleOrder}
    (hc : self.currentOrder=some current) {order : OrderResponse}
    (ho : deps.finOrder self.pairAddress env.contract self.side current.price=.ok order)
    {result : List CosmosMsg × UnsetOrder} :
    self.withdrawExisting deps env=.ok result ↔
      (order.offer≠0 ∧ order.remaining*Decimal.fractional/order.offer<2^128) ∧
      result=if self.Withdraws current.price newPrice order then
          ([orderMsg self current.price 0 []],⟨0,order.remaining⟩)
        else ([],⟨order.remaining,0⟩) := by
  unfold withdrawExisting
  rw [hc]
  dsimp only [StaleOrder.refresh]
  rw [ho,query_ok,Except.ok_bind,pure_bind]
  dsimp only [SetOrder.saturatingWithdraw]
  rw [hp,Except.ok_bind]
  constructor
  · intro h
    obtain ⟨withdrawing,hw,h⟩ := Except.bind_eq_ok.mp h
    obtain ⟨ratio,hr,hw⟩ := Except.bind_eq_ok.mp hw
    obtain ⟨h0,hlt,rfl⟩ := Decimal.fromRatio_eq_ok.mp hr
    refine ⟨⟨h0,hlt⟩,?_⟩
    obtain rfl := Except.ok.inj h
    by_cases hwith : self.Withdraws current.price newPrice order
    · rw [if_pos hwith]
      obtain rfl := Except.ok.inj ((if_pos hwith).symm.trans hw)
      rfl
    · rw [if_neg hwith]
      obtain rfl := Except.ok.inj ((if_neg hwith).symm.trans hw)
      rfl
  · rintro ⟨⟨h0,hlt⟩,rfl⟩
    by_cases hwith : self.Withdraws current.price newPrice order
    · rw [if_pos hwith]
      refine Except.bind_eq_ok.mpr ⟨_,Except.bind_eq_ok.mpr ⟨_,Decimal.fromRatio_eq_ok.mpr ⟨h0,hlt,rfl⟩,if_pos hwith⟩,rfl⟩
    · rw [if_neg hwith]
      refine Except.bind_eq_ok.mpr ⟨_,Except.bind_eq_ok.mpr ⟨_,Decimal.fromRatio_eq_ok.mpr ⟨h0,hlt,rfl⟩,if_neg hwith⟩,rfl⟩

/-- An execution withdraws, and then sets the order with what it has. -/
theorem executeUnsafe_withdrawn (hl : deps.Lists self.pairAddress env.contract orders)
    (hp : self.strategy.getNewPrice deps self.pairAddress=.ok newPrice)
    (hb : deps.queryBalance env.contract self.bidDenom=.ok balance)
    (h : self.executeUnsafe deps env=.ok (messages,self')) :
    ∃ closing withdrawn, self.Withdrawn newPrice orders closing withdrawn ∧
      messages=closing ++ (self.setTo newPrice (self.sized (balance.amount+(orders.map self.counted).sum))
        (balance.amount+withdrawn)).messages ∧
      self'={ self with currentOrder := some ⟨(self.reprice newPrice).2⟩ } := by
  obtain ⟨⟨closing,state⟩,hw,h⟩ := Except.bind_eq_ok.mp h
  obtain ⟨setting,hs,h⟩ := Except.bind_eq_ok.mp h
  obtain ⟨_,rfl⟩ := (set_eq_ok_iff hp hb hl.listed).mp hs
  obtain ⟨hmessages,hself⟩ := Prod.mk.inj (Except.ok.inj h)
  refine ⟨closing,state.withdrawing,?_,hmessages.symm,?_⟩
  · cases hc : self.currentOrder with
    | none =>
      unfold withdrawExisting at hw
      rw [hc] at hw
      cases hw
      exact .fresh hc
    | some current =>
      have hquery : ∃ order, deps.finOrder self.pairAddress env.contract self.side current.price=.ok order := by
        unfold withdrawExisting at hw
        rw [hc] at hw
        obtain ⟨refreshed,hr,_⟩ := Except.bind_eq_ok.mp hw
        obtain ⟨order,ho,_⟩ := Except.bind_eq_ok.mp hr
        exact ⟨order,query_eq_ok.mp ho⟩
      obtain ⟨order,ho⟩ := hquery
      obtain ⟨hmem,hplace⟩ := (hl.found _ _ _).mp ho
      obtain ⟨_,he⟩ := (withdrawExisting_eq_ok_iff hp hc ho).mp hw
      by_cases hwith : self.Withdraws current.price newPrice order
      · rw [if_pos hwith] at he
        cases he
        exact .closed current order hc hmem hplace hwith
      · rw [if_neg hwith] at he
        cases he
        exact .kept current order hc hmem hplace hwith
  · rw [← hself]
    dsimp only [SettingOrder.execute]
    rw [setTo_price]

/-- The orders of an execution can be paid exactly when the strategy's other orders do not raise the target. -/
theorem fullyFunded_iff (hl : deps.Lists self.pairAddress env.contract orders)
    (hp : self.strategy.getNewPrice deps self.pairAddress=.ok newPrice)
    (hb : deps.queryBalance env.contract self.bidDenom=.ok balance)
    (h : self.executeUnsafe deps env=.ok (messages,self')) :
    self.FullyFunded orders balance.amount messages ↔ self.Backed newPrice orders balance.amount := by
  obtain ⟨closing,withdrawn,hw,rfl,_⟩ := executeUnsafe_withdrawn hl hp hb h
  have hbacking := hw.backing_eq hl.distinct balance.amount
  have hreturned := hw.returned_eq hl.distinct
  rw [Backed,← sized_le_iff,← available_eq]
  generalize self.sized (balance.amount+(orders.map self.counted).sum)=finalOffer
  by_cases hsilent : min (balance.amount+withdrawn) finalOffer=0 ∧ ¬(self.reprice newPrice).1
  · rw [setTo,if_pos hsilent,List.append_nil]
    refine iff_of_true (fullyFunded_of_not_mem fun _ _ _ => hw.set_not_mem _ _ _) ?_
    exact ((hw.silent_iff hl.distinct).mp hsilent).imp_right fun h0 => by omega
  · have hidle : ¬self.Idle newPrice orders balance.amount :=
      fun hi => hsilent ((hw.silent_iff hl.distinct).mpr (.inl hi))
    rw [setTo,if_neg hsilent,fullyFunded_set fun _ _ _ => hw.set_not_mem _ _ _,hreturned,or_iff_right hidle,hbacking]
    omega

end

section

attribute [local instance] Crates.plain

/-- Bid 1000 at a price of one. -/
def bidding (currentOrder : Option StaleOrder) : FinLimitOrder :=
  ⟨"pair","rune",.fixed 1000,.base,.fixed .one,none,currentOrder⟩

/-- A chain on which the strategy holds this much, and these orders. -/
def holdingOrders (balance : ℕ) (orders : List OrderResponse) : Deps :=
  Deps.silent.seeing "pair" "strategy" ⟨fun _ => balance,orders⟩

/-- An order of another node raises the target to 1000, but only 100 are there to pay for it. -/
theorem target_counts_other_orders : ((bidding none).init=.ok (bidding none)) ∧
    (bidding none).executeUnsafe (holdingOrders 100 [⟨.base,.percent 200,900,900,0⟩]) ⟨⟨1,⟨1⟩⟩,"strategy"⟩=
      .ok ([orderMsg (bidding none) .one 1000 [⟨100,"rune"⟩]],bidding (some ⟨.one⟩)) ∧
    ¬(bidding none).FullyFunded [⟨.base,.percent 200,900,900,0⟩] 100
      [orderMsg (bidding none) .one 1000 [⟨100,"rune"⟩]] := by
  refine ⟨by decide +kernel,by decide +kernel,fun h => ?_⟩
  have hfunded := h [] [] .one 1000 100 rfl
  exact absurd hfunded.1 (by decide +kernel)

theorem fullyFunded_iff_topUp : (bidding (some ⟨.one⟩)).FullyFunded [⟨.base,.one,400,400,0⟩] 700
    [orderMsg (bidding (some ⟨.one⟩)) .one 1000 [⟨700,"rune"⟩]] := by
  have hlists : (holdingOrders 700 [⟨.base,.one,400,400,0⟩]).Lists "pair" "strategy" [⟨.base,.one,400,400,0⟩] :=
    Deps.seeing_lists _ _ _ (by decide)
  have hexec : (bidding (some ⟨.one⟩)).executeUnsafe (holdingOrders 700 [⟨.base,.one,400,400,0⟩])
      ⟨⟨1,⟨1⟩⟩,"strategy"⟩=
        .ok ([orderMsg (bidding (some ⟨.one⟩)) .one 1000 [⟨700,"rune"⟩]],bidding (some ⟨.one⟩)) := by decide +kernel
  have hbalance : (holdingOrders 700 [⟨.base,.one,400,400,0⟩]).queryBalance "strategy" "rune"=.ok ⟨700,"rune"⟩ := rfl
  exact (fullyFunded_iff hlists rfl hbalance hexec).mpr (.inr (.inl (by decide +kernel)))

end

end FinLimitOrder
end CalcRs
