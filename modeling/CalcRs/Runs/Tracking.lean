import CalcRs.Actions.Targets
import CalcRs.Foundation.Hysteresis
import CalcRs.Runs.Orders

/-! A limit order follows the price that its strategy computes, within the tolerance: where the order stands after any
sequence of executions, commits and cancellations. -/
namespace CalcRs

open Hysteresis

/-! ### Prices -/

/-- How far apart two prices are. -/
def Decimal.apart (a b : Decimal) : ℕ := (a.absDiff b).atomics

theorem Decimal.apart_self (a : Decimal) : a.apart a=0 := by simp [apart,absDiff]

theorem Decimal.apart_triangle (a b c : Decimal) : a.apart c ≤ a.apart b+b.apart c := by
  simp only [apart,absDiff]
  omega

namespace PriceStrategy

/-- How far the computed price may be from that of the order. -/
def slack (self : PriceStrategy) (price : Decimal) : ℕ :=
  match self with
  | .offset _ _ _ (some (.exact value)) => value.atomics
  | .offset _ _ _ (some (.percent percent)) => (price.saturatingMul (Decimal.percent percent)).atomics
  | _ => 0

theorem shouldReset_iff (self : PriceStrategy) (current new : Decimal) :
    self.shouldReset current new=true ↔ self.slack current<current.apart new := by
  have hne : current≠new ↔ 0<current.apart new := by
    obtain ⟨a⟩ := current
    obtain ⟨b⟩ := new
    simp only [Decimal.apart,Decimal.absDiff,ne_eq,Decimal.mk.injEq]
    omega
  cases self with
  | fixed price => simpa [shouldReset,slack] using hne
  | offset side direction delta tolerance =>
    cases tolerance with
    | none => simpa [shouldReset,slack] using hne
    | some tolerance =>
      cases tolerance with
      | exact value => exact decide_eq_true_iff
      | percent percent => exact decide_eq_true_iff

end PriceStrategy

namespace FinLimitOrder

theorem commit_cases {order order' : FinLimitOrder} {deps : Deps} {env : Env} (h : order.commit deps env=.ok order') :
    order'=order ∨ order'={ order with currentOrder := none } := by
  unfold commit at h
  cases hc : order.currentOrder with
  | none =>
    simp only [hc] at h
    exact .inl (Except.ok.inj h).symm
  | some current =>
    simp only [hc] at h
    obtain ⟨result,_,h⟩ := Except.bind_eq_ok.mp h
    cases result with
    | ok _ => exact .inl (Except.ok.inj h).symm
    | error e => exact .inr (Except.ok.inj h).symm

theorem init_unplaced {order order' : FinLimitOrder} (h : order.init=.ok order') : order'.currentOrder=none := by
  obtain ⟨_,_,h⟩ := Except.bind_eq_ok.mp h
  simp only [genericErr,Except.ite_error_eq_ok] at h
  obtain ⟨hc,h⟩ := h
  suffices order'=order by rwa [this,← Option.not_isSome_iff_eq_none]
  cases hm : order.minFillRatio with
  | none =>
    simp only [hm] at h
    exact (Except.ok.inj h).symm
  | some ratio =>
    simp only [hm,Except.ite_error_eq_ok] at h
    exact (Except.ok.inj h.2).symm

variable [Crates] {start order order' : FinLimitOrder} {deps : Deps} {env : Env} {messages : List CosmosMsg}
  {target : Decimal} {targets : List Decimal}

/-- An order that is new at first is executed, committed and cancelled in any order, on any chain; the prices that were
computed in its executions since it was last forgotten. -/
inductive Tends (start : FinLimitOrder) : List Decimal → FinLimitOrder → Prop
  | new : start.currentOrder=none → Tends start [] start
  | execute {order order' : FinLimitOrder} {deps : Deps} {env : Env} {messages : List CosmosMsg} {target : Decimal}
      {targets : List Decimal} : Tends start targets order → order.strategy.getNewPrice deps order.pairAddress=.ok target →
      order.executeUnsafe deps env=.ok (messages,order') → Tends start (targets ++ [target]) order'
  | commit {order order' : FinLimitOrder} {deps : Deps} {env : Env} {targets : List Decimal} : Tends start targets order →
      order.commit deps env=.ok order' → Tends start (if order'.currentOrder=none then [] else targets) order'
  | cancel {order order' : FinLimitOrder} {deps : Deps} {env : Env} {messages : List CosmosMsg} {targets : List Decimal} :
      Tends start targets order → order.cancel deps env=.ok (messages,order') → Tends start targets order'

/-- Where the order stands after these prices. -/
def standing (strategy : PriceStrategy) : List Decimal → Option StaleOrder
  | [] => none
  | first :: rest => some ⟨final strategy.shouldReset first rest⟩

theorem executeUnsafe_price (h : order.executeUnsafe deps env=.ok (messages,order')) :
    ∃ target, order.strategy.getNewPrice deps order.pairAddress=.ok target ∧
      order'={ order with currentOrder := some ⟨(order.reprice target).2⟩ } := by
  obtain ⟨⟨_,state⟩,_,h⟩ := Except.bind_eq_ok.mp h
  obtain ⟨setting,hs,h⟩ := Except.bind_eq_ok.mp h
  obtain ⟨_,rfl⟩ := Prod.mk.inj (Except.ok.inj h)
  obtain ⟨target,hp,hprice,_⟩ := set_eq_ok hs
  exact ⟨target,hp,by rw [← hprice]⟩

/-- Only where it stands changes, and that is what the prices lead to. -/
theorem Tends.stands (h : Tends start targets order) :
    order={ start with currentOrder := standing start.strategy targets } := by
  induction h with
  | new hnone =>
    rw [standing,← hnone]
  | @execute order order' deps env messages target targets _ hp hx ih =>
    obtain ⟨target',hp',rfl⟩ := executeUnsafe_price hx
    obtain rfl := Except.ok.inj (hp.symm.trans hp')
    subst ih
    cases targets with
    | nil => rfl
    | cons first rest =>
      simp only [standing,reprice,List.cons_append,final_append,follow]
  | @commit order order' deps env targets _ hc ih =>
    rcases commit_cases hc with rfl | rfl
    · cases targets with
      | nil =>
        rw [ite_self]
        exact ih
      | cons first rest =>
        have hsome : order'.currentOrder≠none := by
          rw [ih]
          exact Option.some_ne_none _
        rw [if_neg hsome]
        exact ih
    · rw [if_pos rfl,ih]
      rfl
  | cancel _ hc ih => rw [(cancel_eq_ok hc).1,ih]

theorem set_placed {state : UnsetOrder} {setting : SettingOrder} (h : state.set order deps env=.ok setting)
    (hp : order.strategy.getNewPrice deps order.pairAddress=.ok target) (hreset : (order.reprice target).1=true) :
    ∃ offer funds, setting.messages=[orderMsg order (order.reprice target).2 offer funds] := by
  obtain ⟨target',hp',h⟩ := Except.bind_eq_ok.mp h
  obtain rfl := Except.ok.inj (hp.symm.trans hp')
  simp only at h
  obtain ⟨_,_,h⟩ := Except.bind_eq_ok.mp h
  obtain ⟨_,_,h⟩ := Except.bind_eq_ok.mp h
  obtain ⟨_,_,h⟩ := Except.bind_eq_ok.mp h
  obtain ⟨_,_,h⟩ := Except.bind_eq_ok.mp h
  obtain ⟨offer,_,h⟩ := Except.bind_eq_ok.mp h
  obtain ⟨_,_,h⟩ := Except.bind_eq_ok.mp h
  rw [if_neg fun hf => hf.2 hreset] at h
  obtain rfl := Except.ok.inj h
  exact ⟨offer,_,rfl⟩

/-- A reset closes the order at the old price and places one at the new price; else all is at the old price. -/
theorem executeUnsafe_moves (h : order.executeUnsafe deps env=.ok (messages,order'))
    (hp : order.strategy.getNewPrice deps order.pairAddress=.ok target) {current : StaleOrder}
    (hc : order.currentOrder=some current) :
    if order.strategy.shouldReset current.price target then
      ∃ offer funds, messages=[orderMsg order current.price 0 [],orderMsg order target offer funds]
    else ∀ m ∈ messages, ∃ offer funds, m=orderMsg order current.price offer funds := by
  obtain ⟨⟨withdrawMessages,state⟩,hw,h⟩ := Except.bind_eq_ok.mp h
  obtain ⟨setting,hs,h⟩ := Except.bind_eq_ok.mp h
  obtain ⟨rfl,_⟩ := Prod.mk.inj (Except.ok.inj h)
  have hw := withdrawExisting_eq_ok hw
  have hreset : order.isReset deps=order.strategy.shouldReset current.price target := by simp [isReset,hc,hp]
  have hreprice : order.reprice target=_ := reprice_some hc
  simp only [hc,hreset] at hw
  split_ifs with hr
  · rw [hr] at hw hreprice
    obtain ⟨offer,funds,hset⟩ := set_placed hs hp (by rw [hreprice])
    rcases hw with ⟨_,hfalse⟩ | rfl
    · cases hfalse
    · refine ⟨offer,funds,?_⟩
      rw [hset,hreprice]
      rfl
  · intro m hm
    obtain ⟨target',hp',hprice,hset⟩ := set_eq_ok hs
    obtain rfl := Except.ok.inj (hp.symm.trans hp')
    rw [hreprice,if_neg hr] at hprice
    rcases List.mem_append.mp hm with hm | hm
    · rcases hw with ⟨rfl,_⟩ | rfl
      · cases hm
      · exact ⟨_,_,List.mem_singleton.mp hm⟩
    · rcases hset with he | ⟨offer,funds,he⟩
      · rw [he] at hm
        cases hm
      · rw [he,hprice] at hm
        exact ⟨_,_,List.mem_singleton.mp hm⟩

/-- The price of the order after an execution that computes `target`, and what the execution sends. -/
structure Trails (start : FinLimitOrder) (targets : List Decimal) (order : FinLimitOrder) (target price : Decimal)
    (messages : List CosmosMsg) : Prop where
  /-- The price is within the tolerance of what was just computed. -/
  near : price.apart target ≤ start.strategy.slack price
  /-- Some execution computed this price, and none has computed one beyond the tolerance since. -/
  anchored : ∃ older since, targets ++ [target]=older ++ price :: since ∧
    ∀ x ∈ since, price.apart x ≤ start.strategy.slack price
  /-- The order moves if and only if the computed price is beyond the tolerance, and then the execution closes it at the
  old price and places it at the new one. -/
  moves : ∀ current, order.currentOrder=some current →
    if start.strategy.slack current.price<current.price.apart target then
      price=target ∧ ∃ offer funds, messages=[orderMsg start current.price 0 [],orderMsg start target offer funds]
    else price=current.price ∧ ∀ m ∈ messages, ∃ offer funds, m=orderMsg start price offer funds
  /-- What the tolerance allowed at the prices that were given up is no more than the computed prices have moved in all. -/
  spent : ∀ first rest, targets ++ [target]=first :: rest →
    spent start.strategy.shouldReset start.strategy.slack first rest ≤ variation Decimal.apart first rest

theorem Tends.trails (h : Tends start targets order) (hx : order.executeUnsafe deps env=.ok (messages,order')) :
    ∃ target price, start.strategy.getNewPrice deps start.pairAddress=.ok target ∧
      order'={ start with currentOrder := some ⟨price⟩ } ∧ Trails start targets order target price messages := by
  obtain ⟨target,hp,rfl⟩ := executeUnsafe_price hx
  have hstrategy : order.strategy=start.strategy := by rw [h.stands]
  have hpair : order.pairAddress=start.pairAddress := by rw [h.stands]
  have hnear : ∀ {x y}, start.strategy.shouldReset x y=false → x.apart y ≤ start.strategy.slack x := fun hr =>
    Nat.le_of_not_lt fun hlt => Bool.eq_false_iff.mp hr ((PriceStrategy.shouldReset_iff _ _ _).mpr hlt)
  have hmsg : orderMsg order=orderMsg start := by
    rw [h.stands]
    rfl
  obtain ⟨first,rest,hsplit⟩ : ∃ first rest, targets ++ [target]=first :: rest :=
    List.exists_cons_of_ne_nil (List.append_ne_nil_of_right_ne_nil _ (List.cons_ne_nil _ _))
  have hstands := (h.execute hp hx).stands
  rw [hsplit] at hstands
  have hprice : (order.reprice target).2=final start.strategy.shouldReset first rest :=
    congrArg StaleOrder.price (Option.some.inj (congrArg FinLimitOrder.currentOrder hstands))
  refine ⟨target,_,hstrategy ▸ hpair ▸ hp,hstands,⟨hnear (final_near start.strategy.shouldReset_self hsplit),?_,?_,?_⟩⟩
  · obtain ⟨older,since,heq,hsince⟩ := final_anchored first rest
    exact ⟨older,since,hsplit.trans heq,fun x hin => hnear (hsince x hin)⟩
  · intro current hc
    have hmoves := executeUnsafe_moves hx hp hc
    have hreprice : (order.reprice target).2=_ := congrArg Prod.snd (reprice_some hc)
    simp only [hmsg,hstrategy,PriceStrategy.shouldReset_iff] at hmoves hreprice
    rw [← hprice,hreprice]
    split_ifs with hfar
    · rw [if_pos hfar] at hmoves
      exact ⟨rfl,hmoves⟩
    · rw [if_neg hfar] at hmoves
      exact ⟨rfl,hmoves⟩
  · rintro first' rest' heq
    obtain ⟨rfl,rfl⟩ := List.cons.inj (hsplit.symm.trans heq)
    have hspent := spent_le (fun y x => (PriceStrategy.shouldReset_iff start.strategy y x).mp) Decimal.apart_self
      Decimal.apart_triangle first first rest
    rwa [Decimal.apart_self,Nat.zero_add] at hspent

end FinLimitOrder

namespace StrategyContract

open FinLimitOrder

section

variable [Crates] {order order' : FinLimitOrder} {node : Node} {i : ℕ} {next : Option ℕ}

/-- A stage that leads to a limit order executes, commits or cancels one. -/
theorem Stage.limitOrder (h : Stage node (.action (.limitOrder order') i next)) :
    ∃ order, node=.action (.limitOrder order) i next ∧
      ((∃ deps env messages, order.executeUnsafe deps env=.ok (messages,order')) ∨
        (∃ deps env, order.commit deps env=.ok order') ∨
        ∃ deps env messages, order.cancel deps env=.ok (messages,order')) := by
  cases h with
  | run operation deps env messages h =>
    cases operation with
    | execute =>
      cases node with
      | condition c j s f =>
        obtain ⟨_,_,he⟩ := Except.map_eq_ok.mp h
        cases he
      | action a j n =>
        obtain ⟨_,ha,he⟩ := Except.map_eq_ok.mp h
        cases a with
        | swap s =>
          obtain ⟨_,_,rfl⟩ := Except.map_eq_ok.mp ha
          cases he
        | distribute d =>
          obtain ⟨_,_,rfl⟩ := Except.map_eq_ok.mp ha
          cases he
        | limitOrder o =>
          obtain ⟨_,ho,rfl⟩ := Except.map_eq_ok.mp ha
          cases he
          exact ⟨o,rfl,.inl ⟨deps,env,_,ho⟩⟩
    | cancel =>
      cases node with
      | condition c j s f =>
        obtain ⟨_,_,he⟩ := Except.map_eq_ok.mp h
        cases he
      | action a j n =>
        obtain ⟨_,ha,he⟩ := Except.map_eq_ok.mp h
        cases a with
        | swap s =>
          cases ha
          cases he
        | distribute d =>
          cases ha
          cases he
        | limitOrder o =>
          obtain ⟨_,ho,rfl⟩ := Except.map_eq_ok.mp ha
          cases he
          exact ⟨o,rfl,.inr (.inr ⟨deps,env,_,ho⟩)⟩
  | commit deps env h =>
    cases node with
    | condition c j s f =>
      obtain ⟨_,_,he⟩ := Except.map_eq_ok.mp h
      cases he
    | action a j n =>
      obtain ⟨_,ha,he⟩ := Except.map_eq_ok.mp h
      cases a with
      | swap s =>
        cases ha
        cases he
      | distribute d =>
        cases ha
        cases he
      | limitOrder o =>
        obtain ⟨_,ho,rfl⟩ := Except.map_eq_ok.mp ha
        cases he
        exact ⟨o,rfl,.inr (.inl ⟨deps,env,ho⟩)⟩

/-- The limit order of a node, if it is one, has tended from a new one. -/
def Tended (node : Node) : Prop := ∀ {order : FinLimitOrder} {i : ℕ} {next : Option ℕ},
  node=.action (.limitOrder order) i next → ∃ start targets, Tends start targets order

theorem Stage.tended {node' : Node} (h : Stage node node') (ht : Tended node) : Tended node' := fun he => by
  subst he
  obtain ⟨order,hnode,hstage⟩ := h.limitOrder
  obtain ⟨start,targets,htends⟩ := ht hnode
  rcases hstage with ⟨deps,env,messages,hx⟩ | ⟨deps,env,hc⟩ | ⟨deps,env,messages,hc⟩
  · obtain ⟨target,hp,_⟩ := executeUnsafe_price hx
    exact ⟨start,_,htends.execute hp hx⟩
  · exact ⟨start,_,htends.commit hc⟩
  · exact ⟨start,_,htends.cancel hc⟩

theorem init_tended {deps : Deps} {env : Env} {affiliates : List Affiliate} {node' : Node}
    (h : node.init deps env affiliates=.ok node') : Tended node' := fun {order i next} he => by
  subst he
  cases node with
  | condition c j s f =>
    obtain ⟨_,_,he⟩ := Except.map_eq_ok.mp h
    cases he
  | action a j n =>
    obtain ⟨_,ha,he⟩ := Except.map_eq_ok.mp h
    cases a with
    | swap s =>
      obtain ⟨_,_,rfl⟩ := Except.map_eq_ok.mp ha
      cases he
    | distribute d =>
      obtain ⟨_,_,rfl⟩ := Except.map_eq_ok.mp ha
      cases he
    | limitOrder o =>
      obtain ⟨_,ho,rfl⟩ := Except.map_eq_ok.mp ha
      cases he
      exact ⟨order,[],.new (init_unplaced ho)⟩

/-- Every limit order that a strategy stores tends so, and whenever it is executed it trails the computed price. -/
theorem order_tracks_price {s : StrategyStorage} {lists : List (List Node)} (h : History s lists) {k i : ℕ}
    {next : Option ℕ} (hn : s.nodes.get? k=some (.action (.limitOrder order) i next)) :
    (∃ start targets, Tends start targets order) ∧ ∀ start targets, Tends start targets order →
      ∀ deps env messages order', order.executeUnsafe deps env=.ok (messages,order') →
        ∃ target price, start.strategy.getNewPrice deps start.pairAddress=.ok target ∧
          order'={ start with currentOrder := some ⟨price⟩ } ∧ Trails start targets order target price messages :=
  ⟨h.all init_tended Stage.tended k _ hn rfl,fun _ _ ht _ _ _ _ hx => ht.trails hx⟩

end

section

attribute [local instance] Crates.plain

/-- The limit order of the node `pegged`. -/
def peg (price : Option Decimal) : FinLimitOrder :=
  ⟨"pair","rune",.fixed 100,.base,.offset .base .above (.exact ⟨0⟩) none,none,price.map StaleOrder.mk⟩

theorem peg_tends : Tends (peg none) [Decimal.percent 100] (peg (some (Decimal.percent 100))) := by
  have hp : (peg none).strategy.getNewPrice (quoting 100 noOrders []) "pair"=.ok (Decimal.percent 100) := by decide +kernel
  have hx : (peg none).executeUnsafe (quoting 100 noOrders []) ⟨⟨1,⟨1⟩⟩,"strategy"⟩=
    .ok ([setBid 100],peg (some (Decimal.percent 100))) := by decide +kernel
  exact .execute (.new rfl) hp hx

/-- The price doubles under the bid of a strategy. -/
theorem order_tracks_price_doubled : ∃ target price,
    (peg none).strategy.getNewPrice (quoting 200 (withBid noOrders 100) [bid 100]) "pair"=.ok target ∧
    peg (some (Decimal.percent 200))=peg (some price) ∧
    Trails (peg none) [Decimal.percent 100] (peg (some (Decimal.percent 100))) target price [closeBid 100,setBid 200] := by
  obtain ⟨lists,hh⟩ := placed.history
  have hn : (pegging 100).nodes.get? 0=some (pegged (some (Decimal.percent 100))) := by decide
  have hx : (peg (some (Decimal.percent 100))).executeUnsafe (quoting 200 (withBid noOrders 100) [bid 100])
    ⟨⟨1,⟨1⟩⟩,"strategy"⟩=.ok ([closeBid 100,setBid 200],peg (some (Decimal.percent 200))) := by decide +kernel
  exact (order_tracks_price hh hn).2 (peg none) [Decimal.percent 100] peg_tends _ _ _ _ hx

end

end StrategyContract
end CalcRs
