import CalcRs.Foundation.Lists
import CalcRs.Runs.Orders

/-! The balances that a strategy reports: those of the bank, and for each stored node what its order holds. -/
namespace CalcRs

/-! ### What a node reports -/

/-- The coins in the order that a node names, if it is open: what remains and what is filled. -/
def Node.orderCoins [Crates] (pairs : Addr → ConfigResponse) (orders : Slot → Option OrderResponse) : Node → List Coin
  | .action (.limitOrder o) _ _ =>
    match o.named.bind orders with
    | some order => [⟨order.remaining,o.bidDenom⟩,⟨order.filled,Crates.ask (pairs o.pairAddress).denoms o.side⟩]
    | none => []
  | _ => []

/-- The pairs and the bank answer for the strategy with these nodes. Amounts are 128-bit numbers. -/
structure Responds (deps : Deps) (env : Env) (pairs : Addr → ConfigResponse) (orders : Orders) (held : List Coin)
    (nodes : List Node) : Prop where
  config : ∀ o i next, .action (.limitOrder o) i next ∈ nodes → deps.finConfig o.pairAddress=.ok (pairs o.pairAddress)
  order : orders.Answers env.contract deps
  bank : deps.queryAllBalances env.contract=.ok held
  orderFits : ∀ slot order, orders env.contract slot=some order → order.remaining<2^128 ∧ order.filled<2^128
  heldFits : ∀ coin ∈ held, coin.amount<2^128

/-- The order that the node names is open, and its two coins can be listed. -/
structure Node.Listed [Crates] (pairs : Addr → ConfigResponse) (orders : Slot → Option OrderResponse) (node : Node) : Prop where
  isOpen : ∀ slot, node.named=some slot → (orders slot).isSome
  denoms : ∀ a b, node.orderCoins pairs orders=[a,b] → a.denom=b.denom → a.amount=0 ∨ b.amount=0

section

variable {deps : Deps} {env : Env} {orders : Orders}

theorem Orders.Answers.query (h : orders.Answers env.contract deps) {slot : Slot} {order : OrderResponse}
    (ho : orders env.contract slot=some order) :
    deps.finOrder slot.pair env.contract slot.side slot.price=.ok order := by
  have := h slot
  rwa [ho] at this

theorem Orders.Answers.query_none (h : orders.Answers env.contract deps) {slot : Slot}
    (ho : orders env.contract slot=none) : ∃ e, deps.finOrder slot.pair env.contract slot.side slot.price=.error e := by
  have := h slot
  rwa [ho] at this

theorem amountIn_all_zero {coins : List Coin} : (∀ x, amountIn x coins=0) ↔ ∀ c ∈ coins, c.amount=0 := by
  constructor
  · intro h c hc
    have hle : c.amount ≤ amountIn c.denom coins := by
      refine List.single_le_sum (fun _ _ => Nat.zero_le _) _ (List.mem_map.mpr ⟨c,hc,?_⟩)
      rw [if_pos rfl]
    rw [h] at hle
    exact Nat.le_zero.mp hle
  · intro h x
    refine List.sum_eq_zero fun n hn => ?_
    obtain ⟨c,hc,rfl⟩ := List.mem_map.mp hn
    rw [h c hc,ite_self]

variable [Crates] {pairs : Addr → ConfigResponse} {held : List Coin} {nodes : List Node} {node : Node}

theorem Node.orderCoins_none {orders : Slot → Option OrderResponse} (h : node.named=none) :
    node.orderCoins pairs orders=[] := by
  cases node with
  | condition => rfl
  | action a i next =>
    cases a with
    | swap => rfl
    | distribute => rfl
    | limitOrder o =>
      rw [Node.named] at h
      rw [Node.orderCoins,h,Option.bind_none]

/-- A node that names no order reports nothing. -/
theorem Node.balances_none (h : Responds deps env pairs orders held nodes) (hn : node ∈ nodes) (hnone : node.named=none) :
    node.balances deps env=.ok Coins.empty := by
  cases node with
  | condition => rfl
  | action a i next =>
    cases a with
    | swap => rfl
    | distribute => rfl
    | limitOrder o =>
      change o.balances deps env=_
      have hc : o.currentOrder=none := FinLimitOrder.named_eq_none.mp hnone
      rw [FinLimitOrder.balances,h.config o i next hn,hc]
      rfl

/-- A node that names an order reports its coins, and fails when the order is gone. -/
theorem Node.balances_some (h : Responds deps env pairs orders held nodes) (hn : node ∈ nodes) {slot : Slot}
    (hsome : node.named=some slot) :
    match orders env.contract slot with
    | some order => ∃ a b, node.orderCoins pairs (orders env.contract)=[⟨order.remaining,a⟩,⟨order.filled,b⟩] ∧
        node.balances deps env=Coins.tryFrom [⟨order.remaining,a⟩,⟨order.filled,b⟩]
    | none => ∃ e, node.balances deps env=.error (.err e) := by
  cases node with
  | condition => cases hsome
  | action a i next =>
    cases a with
    | swap => cases hsome
    | distribute => cases hsome
    | limitOrder o =>
      have hnamed : o.named=some slot := hsome
      obtain ⟨current,hc,rfl⟩ := Option.map_eq_some_iff.mp hnamed
      change match orders env.contract _ with
        | some order => ∃ a b, _ ∧ o.balances deps env=_
        | none => ∃ e, o.balances deps env=.error (.err e)
      rw [FinLimitOrder.balances,h.config o i next hn,hc]
      cases ho : orders env.contract ⟨o.pairAddress,o.side,current.price⟩ with
      | none =>
        obtain ⟨e,he⟩ := h.order.query_none ho
        exact ⟨e,by simp only [query_ok,Except.ok_bind,StaleOrder.refresh,he,query_error,Except.error_bind]⟩
      | some order =>
        refine ⟨_,_,by rw [Node.orderCoins,hnamed,Option.bind_some,ho],?_⟩
        simp only [query_ok,Except.ok_bind,StaleOrder.refresh,h.order.query ho,Except.pure_eq_ok]

/-- The coins of a node can be had if and only if its order is open and they can be listed. -/
theorem Node.balances_iff (h : Responds deps env pairs orders held nodes) (hn : node ∈ nodes) :
    (∃ c, node.balances deps env=.ok c) ↔ node.Listed pairs (orders env.contract) := by
  cases hnamed : node.named with
  | none =>
    refine iff_of_true ⟨_,Node.balances_none h hn hnamed⟩ ⟨fun slot hs => ?_,fun a b hab => ?_⟩
    · rw [hnamed] at hs
      cases hs
    · rw [Node.orderCoins_none hnamed] at hab
      cases hab
  | some slot =>
    have hspec := Node.balances_some h hn hnamed
    cases ho : orders env.contract slot with
    | none =>
      rw [ho] at hspec
      obtain ⟨e,he⟩ := hspec
      refine iff_of_false (by rintro ⟨c,hc⟩; rw [he] at hc; cases hc) fun hl => ?_
      have := hl.isOpen slot hnamed
      rw [ho] at this
      cases this
    | some order =>
      rw [ho] at hspec
      obtain ⟨a,b,hcoins,hbal⟩ := hspec
      rw [hbal,Coins.tryFrom_pair_iff]
      constructor
      · refine fun hd => ⟨fun slot' hs => ?_,fun c c' hcc => ?_⟩
        · obtain rfl := Option.some.inj (hnamed.symm.trans hs)
          rw [ho]
          rfl
        · rw [hcoins] at hcc
          cases hcc
          exact hd
      · exact fun hl => hl.denoms _ _ hcoins

theorem Node.balances_amountOf (h : Responds deps env pairs orders held nodes) (hn : node ∈ nodes) {c : Coins}
    (hb : node.balances deps env=.ok c) (x : Denom) :
    c.amountOf x=amountIn x (node.orderCoins pairs (orders env.contract)) := by
  cases hnamed : node.named with
  | none =>
    rw [Node.balances_none h hn hnamed] at hb
    cases hb
    rw [Node.orderCoins_none hnamed]
    rfl
  | some slot =>
    have hspec := Node.balances_some h hn hnamed
    cases ho : orders env.contract slot with
    | none =>
      rw [ho] at hspec
      obtain ⟨e,he⟩ := hspec
      rw [he] at hb
      cases hb
    | some order =>
      rw [ho] at hspec
      obtain ⟨a,b,hcoins,hbal⟩ := hspec
      rw [hcoins,Coins.tryFrom_amountOf (hbal ▸ hb)]

theorem Node.balances_bounded (h : Responds deps env pairs orders held nodes) (hn : node ∈ nodes) {c : Coins}
    (hb : node.balances deps env=.ok c) : c.Bounded := fun x => by
  rw [Node.balances_amountOf h hn hb]
  cases hnamed : node.named with
  | none =>
    rw [Node.orderCoins_none hnamed]
    exact Nat.two_pow_pos 128
  | some slot =>
    have hl := (Node.balances_iff h hn).mp ⟨c,hb⟩
    have hspec := Node.balances_some h hn hnamed
    obtain ⟨order,ho⟩ := Option.isSome_iff_exists.mp (hl.isOpen slot hnamed)
    rw [ho] at hspec
    obtain ⟨a,b,hcoins,_⟩ := hspec
    obtain ⟨hr,hf⟩ := h.orderFits slot order ho
    have hd := hl.denoms _ _ hcoins
    simp only [hcoins,amountIn_cons,amountIn_nil]
    simp only at hd
    -- when both amounts are in this denom, one of them is zero
    by_cases ha : a=x
    · by_cases hb : b=x
      · have := hd (ha.trans hb.symm)
        rw [if_pos ha,if_pos hb]
        omega
      · rw [if_pos ha,if_neg hb]
        omega
    · by_cases hb : b=x
      · rw [if_neg ha,if_pos hb]
        omega
      · rw [if_neg ha,if_neg hb]
        decide

/-- What all these nodes report of a denom. -/
def ordersTotal (pairs : Addr → ConfigResponse) (orders : Slot → Option OrderResponse) (nodes : List Node) (x : Denom) :
    ℕ := (nodes.map fun node => amountIn x (node.orderCoins pairs orders)).sum

/-- One round of the loop of the query. -/
def gather (deps : Deps) (env : Env) (acc : Coins) (node : Node) : Outcome Coins := do
  let nodeBalances ← node.balances deps env
  acc.addAll nodeBalances.toVec

theorem gather_amountOf (h : Responds deps env pairs orders held nodes) (hn : node ∈ nodes) {acc c : Coins}
    (hg : gather deps env acc node=.ok c) (x : Denom) :
    c.amountOf x=acc.amountOf x+amountIn x (node.orderCoins pairs (orders env.contract)) := by
  obtain ⟨nb,hb,hadd⟩ := Except.bind_eq_ok.mp hg
  rw [Coins.addAll_amountOf hadd,Coins.amountIn_toVec,Node.balances_amountOf h hn hb]

theorem gather_iff (h : Responds deps env pairs orders held nodes) (hn : node ∈ nodes) {acc : Coins}
    (hacc : acc.Bounded) : (∃ c, gather deps env acc node=.ok c) ↔ node.Listed pairs (orders env.contract) ∧
      ∀ x, acc.amountOf x+amountIn x (node.orderCoins pairs (orders env.contract))<2^128 := by
  have hvec : ∀ nb : Coins, nb.Bounded → ∀ coin ∈ nb.toVec, coin.amount<2^128 := fun nb hb coin hm => by
    rw [← (Coins.mem_toVec.mp hm).1]
    exact hb _
  constructor
  · rintro ⟨c,hg⟩
    obtain ⟨nb,hb,hadd⟩ := Except.bind_eq_ok.mp hg
    refine ⟨(Node.balances_iff h hn).mp ⟨nb,hb⟩,fun x => ?_⟩
    rw [← Node.balances_amountOf h hn hb,← Coins.amountIn_toVec nb]
    exact (Coins.addAll_iff hacc (hvec nb (Node.balances_bounded h hn hb))).mp ⟨c,hadd⟩ x
  · rintro ⟨hl,hfits⟩
    obtain ⟨nb,hb⟩ := (Node.balances_iff h hn).mpr hl
    obtain ⟨c,hadd⟩ := (Coins.addAll_iff hacc (hvec nb (Node.balances_bounded h hn hb))).mpr fun x => by
      rw [Coins.amountIn_toVec,Node.balances_amountOf h hn hb]
      exact hfits x
    exact ⟨c,by rw [gather,hb,Except.ok_bind,hadd]⟩

theorem gatherAll_amountOf (h : Responds deps env pairs orders held nodes) {xs : List Node} (hxs : ∀ n ∈ xs, n ∈ nodes)
    {acc c : Coins} (hg : xs.foldlM (gather deps env) acc=.ok c) (x : Denom) :
    c.amountOf x=acc.amountOf x+ordersTotal pairs (orders env.contract) xs x := by
  induction xs generalizing acc with
  | nil =>
    cases hg
    rfl
  | cons n xs ih =>
    rw [List.foldlM_cons] at hg
    obtain ⟨next,hnext,hg⟩ := Except.bind_eq_ok.mp hg
    rw [ih (fun n hn => hxs n (by simp [hn])) hg,gather_amountOf h (hxs n (by simp)) hnext,ordersTotal,ordersTotal,
      List.map_cons,List.sum_cons,Nat.add_assoc]

/-- The loop returns if and only if every node can be listed and the totals fit. -/
theorem gatherAll_iff (h : Responds deps env pairs orders held nodes) {xs : List Node} (hxs : ∀ n ∈ xs, n ∈ nodes)
    {acc : Coins} (hacc : acc.Bounded) : (∃ c, xs.foldlM (gather deps env) acc=.ok c) ↔
      (∀ n ∈ xs, n.Listed pairs (orders env.contract)) ∧
      ∀ x, acc.amountOf x+ordersTotal pairs (orders env.contract) xs x<2^128 := by
  induction xs generalizing acc with
  | nil => exact ⟨fun _ => ⟨fun n hn => (by cases hn),hacc⟩,fun _ => ⟨acc,rfl⟩⟩
  | cons n xs ih =>
    have hn : n ∈ nodes := hxs n (by simp)
    have hrest : ∀ n ∈ xs, n ∈ nodes := fun n hn => hxs n (by simp [hn])
    have hfirst := gather_iff h hn hacc
    have htotal : ∀ x, ordersTotal pairs (orders env.contract) (n :: xs) x=
        amountIn x (n.orderCoins pairs (orders env.contract))+ordersTotal pairs (orders env.contract) xs x := fun x => by
      rw [ordersTotal,List.map_cons,List.sum_cons]
      rfl
    rw [List.foldlM_cons,List.forall_mem_cons]
    simp only [htotal,← Nat.add_assoc]
    constructor
    · rintro ⟨c,hg⟩
      obtain ⟨next,hnext,hg⟩ := Except.bind_eq_ok.mp hg
      obtain ⟨hl,hfits⟩ := hfirst.mp ⟨next,hnext⟩
      have hamount := gather_amountOf h hn hnext
      obtain ⟨hls,hsum⟩ := (ih hrest fun x => by rw [hamount]; exact hfits x).mp ⟨c,hg⟩
      exact ⟨⟨hl,hls⟩,fun x => by rw [← hamount]; exact hsum x⟩
    · rintro ⟨⟨hl,hls⟩,hsum⟩
      have hfits := fun x => (Nat.le_add_right _ _).trans_lt (hsum x)
      obtain ⟨next,hnext⟩ := hfirst.mpr ⟨hl,hfits⟩
      have hamount := gather_amountOf h hn hnext
      have hb : next.Bounded := fun x => by rw [hamount]; exact hfits x
      obtain ⟨c,hg⟩ := (ih hrest hb).mpr ⟨hls,fun x => by rw [hamount]; exact hsum x⟩
      exact ⟨c,by rw [hnext,Except.ok_bind,hg]⟩

/-! ### What the strategy reports -/

/-- Of the nodes that name one order, one; and the nodes that name none. -/
def onePerOrder (nodes : List Node) : List Node := nodes.pwFilter fun a b => a.named=none ∨ a.named≠b.named

/-- The balance at the bank and in the open orders, each of them once. -/
def balanceOnce (pairs : Addr → ConfigResponse) (orders : Slot → Option OrderResponse) (held : List Coin)
    (nodes : List Node) (x : Denom) : ℕ := amountIn x held+ordersTotal pairs orders (onePerOrder nodes) x

/-- Every order that a node names is open and can be listed, only one that holds nothing is named twice, and the
balances fit. -/
structure CountsOnce (pairs : Addr → ConfigResponse) (orders : Slot → Option OrderResponse) (held : List Coin)
    (nodes : List Node) : Prop where
  listed : ∀ node ∈ nodes, node.Listed pairs orders
  apart : nodes.Pairwise fun a b => a.named≠none → a.named=b.named → ∀ c ∈ a.orderCoins pairs orders, c.amount=0
  fits : ∀ x, balanceOnce pairs orders held nodes x<2^128

theorem ordersTotal_once_iff {orders : Slot → Option OrderResponse} :
    (∀ x, ordersTotal pairs orders nodes x=ordersTotal pairs orders (onePerOrder nodes) x) ↔
      nodes.Pairwise fun a b => a.named≠none → a.named=b.named → ∀ c ∈ a.orderCoins pairs orders, c.amount=0 := by
  have hR : ∀ a b c : Node, (a.named=none ∨ a.named≠c.named) →
      (a.named=none ∨ a.named≠b.named) ∨ (b.named=none ∨ b.named≠c.named) := fun a b c h => by
    rcases h with h | h
    · exact .inl (.inl h)
    · by_cases hab : a.named=b.named
      · exact .inr (.inr fun hbc => h (hab.trans hbc))
      · exact .inl (.inr hab)
  refine (sums_pwFilter_iff hR (fun x node => amountIn x (node.orderCoins pairs orders)) nodes).trans ?_
  simp only [not_or,not_not,and_imp,amountIn_all_zero,ne_eq]

theorem StrategyContract.queryBalances_eq (storage : StrategyStorage) :
    queryBalances deps env storage=((NodeStore.all storage.nodes).foldlM (gather deps env) Coins.empty >>= fun balances =>
      query (deps.queryAllBalances env.contract) >>= fun held => Coins.toVec <$> balances.addAll held) := by
  rw [queryBalances]
  rfl

/-- The query succeeds and counts every open order once if and only if all named orders are open, only empty ones
are named twice, and the balances fit. -/
theorem StrategyContract.queryBalances_once_iff {storage : StrategyStorage}
    (h : Responds deps env pairs orders held (NodeStore.all storage.nodes)) :
    (∃ coins, queryBalances deps env storage=.ok coins ∧ ∀ x, amountIn x coins=
      balanceOnce pairs (orders env.contract) held (NodeStore.all storage.nodes) x) ↔
    CountsOnce pairs (orders env.contract) held (NodeStore.all storage.nodes) := by
  have hall : ∀ n ∈ NodeStore.all storage.nodes, n ∈ NodeStore.all storage.nodes := fun _ hn => hn
  have hempty : Coins.empty.Bounded := fun _ => Nat.two_pow_pos 128
  rw [queryBalances_eq,h.bank]
  constructor
  · rintro ⟨coins,hq,hsum⟩
    obtain ⟨acc,hacc,hq⟩ := Except.bind_eq_ok.mp hq
    obtain ⟨final,hfinal,rfl⟩ := Except.map_eq_ok.mp hq
    have hamount := gatherAll_amountOf h hall hacc
    obtain ⟨hlisted,hfits⟩ := (gatherAll_iff h hall hempty).mp ⟨acc,hacc⟩
    have hadd := (Coins.addAll_iff (fun x => by rw [hamount]; exact hfits x) h.heldFits).mp ⟨final,hfinal⟩
    have honce : ∀ x, ordersTotal pairs (orders env.contract) (NodeStore.all storage.nodes) x=
        ordersTotal pairs (orders env.contract) (onePerOrder (NodeStore.all storage.nodes)) x := fun x => by
      have := hsum x
      rw [Coins.amountIn_toVec,Coins.addAll_amountOf hfinal,hamount,Coins.amountOf_empty,balanceOnce] at this
      omega
    refine ⟨hlisted,ordersTotal_once_iff.mp honce,fun x => ?_⟩
    have := hadd x
    rw [hamount,Coins.amountOf_empty,honce] at this
    rw [balanceOnce]
    omega
  · rintro ⟨hlisted,hapart,hfits⟩
    have honce := ordersTotal_once_iff.mpr hapart
    obtain ⟨acc,hacc⟩ := (gatherAll_iff h hall hempty).mpr ⟨hlisted,fun x => by
      have := hfits x
      rw [balanceOnce] at this
      rw [Coins.amountOf_empty,honce]
      omega⟩
    have hamount := gatherAll_amountOf h hall hacc
    obtain ⟨final,hfinal⟩ := (Coins.addAll_iff (c := acc) (fun x => by
        have := hfits x
        rw [balanceOnce] at this
        rw [hamount,Coins.amountOf_empty,honce]
        omega) h.heldFits).mpr fun x => by
      have := hfits x
      rw [balanceOnce] at this
      rw [hamount,Coins.amountOf_empty,honce]
      omega
    refine ⟨final.toVec,?_,fun x => ?_⟩
    · rw [hacc,Except.ok_bind,query_ok,Except.ok_bind,hfinal]
      rfl
    · rw [Coins.amountIn_toVec,Coins.addAll_amountOf hfinal,hamount,Coins.amountOf_empty,honce,balanceOnce]
      omega

end

section

attribute [local instance] Crates.plain

open StrategyContract

/-- Two limit orders in a row on the same pair and side, at the same price. -/
def twins (first second : Option Decimal) : List Node :=
  [.action (.limitOrder ⟨"pair","rune",.fixed 100,.base,.fixed Decimal.one,none,first.map StaleOrder.mk⟩) 0 (some 1),
    .action (.limitOrder ⟨"pair","rune",.fixed 100,.base,.fixed Decimal.one,none,second.map StaleOrder.mk⟩) 1 none]

/-- The storage while these nodes run, and after it. -/
def twinning (first second : Option Decimal) (path : List String) : StrategyStorage :=
  ⟨"manager","owner",[],[],[],Table.ofList (twins first second),some path⟩

/-- The pair answers, and the bank holds 1000 rune. -/
def reporting (orders : Orders) : Deps :=
  { quoting 100 orders [] with queryAllBalances := fun _ => .ok [⟨1000,"rune"⟩] }

def runeUsd : Addr → ConfigResponse := fun _ => ⟨⟨"rune","usd"⟩,0⟩

theorem withBid_some {slot : Slot} {order : OrderResponse} {price : ℕ}
    (h : withBid noOrders price "strategy" slot=some order) : order=bid price := by
  rw [withBid,Orders.put_owner] at h
  split_ifs at h
  · exact (Option.some.inj h).symm
  · cases h

theorem reporting_responds (price : ℕ) (nodes : List Node) :
    Responds (reporting (withBid noOrders price)) ⟨⟨1,⟨1⟩⟩,"strategy"⟩ runeUsd (withBid noOrders price)
      [⟨1000,"rune"⟩] nodes where
  config _ _ _ _ := rfl
  order := quoting_answers 100 _ [] _
  bank := rfl
  orderFits slot order h := by
    rw [withBid_some h]
    exact ⟨(by decide : 100<2^128),Nat.two_pow_pos 128⟩
  heldFits coin h := by
    obtain rfl := List.mem_singleton.mp h
    decide

theorem withBid_again (orders : Orders) (price : ℕ) : withBid (withBid orders price) price=withBid orders price := by
  funext owner slot
  simp only [withBid,Orders.put]
  split_ifs <;> rfl

/-- A strategy whose two nodes have set the same bid. -/
theorem twins_placed : Lives "strategy" (fun _ _ _ => True) (twinning (some Decimal.one) (some Decimal.one) ["0","1"])
    (withBid noOrders 100) := by
  have hstart : Trades "strategy" (fun _ _ _ => True) .execute (holding (twins none none)) noOrders
    (holding (twins none none)) noOrders (.pending none) := .start
  have hfirst := hstart.step (quoted 100 noOrders [] 1) (twinning (some Decimal.one) none []).nodes (some ["0"])
    (.messages 0 [setBid 100] 0) [(twins none none)[0]] rfl (quoting_answers _ _ _ _) (by decide +kernel)
    (.arrives rfl (setBid_carried _ _) .done) fun _ => trivial
  have hsecond := hfirst.step (quoted 100 (withBid noOrders 100) [bid 100] 1)
    (twinning (some Decimal.one) (some Decimal.one) []).nodes (some ["0","1"]) (.messages 1 [setBid 100] 1)
    [(twins none none)[1]] rfl (quoting_answers _ _ _ _) (by decide +kernel)
    (.arrives rfl (setBid_carried _ _) .done) fun _ => trivial
  rw [withBid_again] at hsecond
  have hdone := hsecond.step (quoted 100 (withBid noOrders 100) [bid 100] 0)
    (twinning (some Decimal.one) (some Decimal.one) []).nodes (some ["0","1"]) (.finished ["0","1"]) [] rfl
    (quoting_answers _ _ _ _) (by decide +kernel) .done fun _ => trivial
  have hinst : instantiate ⟨⟨1,⟨1⟩⟩,"strategy"⟩ ⟨"manager",[]⟩ ⟨"strategy","owner",[],twins none none⟩=
    .ok (holding [],⟨[],[callSelf ⟨⟨1,⟨1⟩⟩,"strategy"⟩ (.init (twins none none))]⟩) := rfl
  have hinit : execute 0 Deps.silent ⟨⟨1,⟨1⟩⟩,"strategy"⟩ ⟨"strategy",[]⟩ (holding []) (.init (twins none none))=
    .ok (holding (twins none none),⟨[.init],[callSelf ⟨⟨1,⟨1⟩⟩,"strategy"⟩ (.process .execute none)]⟩) := by
    decide +kernel
  exact .instantiate (fun _ => rfl) hinst hinit hdone

/-- The order of two nodes is counted twice; once it is filled and gone, the whole query fails. -/
theorem shared_order_counted_twice : (∃ s o, Lives "strategy" (fun _ _ _ => True) s o ∧
      Responds (reporting o) ⟨⟨1,⟨1⟩⟩,"strategy"⟩ runeUsd o [⟨1000,"rune"⟩] (NodeStore.all s.nodes) ∧
      queryBalances (reporting o) ⟨⟨1,⟨1⟩⟩,"strategy"⟩ s=.ok [⟨1200,"rune"⟩] ∧
      balanceOnce runeUsd (o "strategy") [⟨1000,"rune"⟩] (NodeStore.all s.nodes) "rune"=1100) ∧
    ∃ s o, Lives "strategy" (fun _ _ _ => True) s o ∧
      Responds (reporting o) ⟨⟨1,⟨1⟩⟩,"strategy"⟩ runeUsd o [⟨1000,"rune"⟩] (NodeStore.all s.nodes) ∧
      queryBalances (reporting o) ⟨⟨1,⟨1⟩⟩,"strategy"⟩ s=.error (.err (.notFound "order")) ∧
      balanceOnce runeUsd (o "strategy") [⟨1000,"rune"⟩] (NodeStore.all s.nodes) "rune"=1000 := by
  constructor
  · exact ⟨_,_,twins_placed,reporting_responds 100 _,by decide +kernel,by decide +kernel⟩
  · have hgone : Lives "strategy" (fun _ _ _ => True) (twinning (some Decimal.one) (some Decimal.one) ["0","1"]) noOrders :=
      twins_placed.fills fun slot h => by cases h
    refine ⟨_,_,hgone,⟨fun _ _ _ _ => rfl,quoting_answers 100 noOrders [] "strategy",rfl,fun slot order h => (by cases h),?_⟩,
      by decide +kernel,by decide +kernel⟩
    exact (reporting_responds 100 []).heldFits

theorem queryBalances_once_iff_pegging : (∃ coins, queryBalances (reporting (withBid noOrders 100))
      ⟨⟨1,⟨1⟩⟩,"strategy"⟩ (pegging 100)=.ok coins ∧ ∀ x, amountIn x coins=
        balanceOnce runeUsd (withBid noOrders 100 "strategy") [⟨1000,"rune"⟩] (NodeStore.all (pegging 100).nodes) x) ↔
    CountsOnce runeUsd (withBid noOrders 100 "strategy") [⟨1000,"rune"⟩] (NodeStore.all (pegging 100).nodes) :=
  queryBalances_once_iff (reporting_responds 100 _)

end

end CalcRs
