import CalcRs.Actions.Destinations
import CalcRs.Actions.Shares
import CalcRs.Runs.Tallies
import CalcRs.System.Calls
import CalcRs.System.Status

/-! The payments of a node are computed from one reading of the balance and delivered one by one. What
arrives when recipients call back before the last one is delivered. -/
namespace CalcRs

section

variable [Crates]

namespace Node

def paysOut : Node → Option Distribution
  | .action (.distribute d) _ _ => some d
  | _ => none

/-- The denoms that a node pays out. -/
def paidDenoms (node : Node) : List Denom := (node.paysOut.map Distribution.denoms).getD []

theorem init_paidDenoms {node node' : Node} {deps : Deps} {env : Env} {affiliates : List Affiliate}
    (h : node.init deps env affiliates=.ok node') : node'.paidDenoms.Nodup := by
  cases node with
  | condition c i s f =>
    obtain ⟨_,_,rfl⟩ := Except.map_eq_ok.mp h
    exact List.nodup_nil
  | action a i next =>
    obtain ⟨_,ha,rfl⟩ := Except.map_eq_ok.mp h
    cases a with
    | distribute d =>
      obtain ⟨d',hd,rfl⟩ := Except.map_eq_ok.mp ha
      exact Distribution.init_eq_ok hd
    | swap s =>
      obtain ⟨_,_,rfl⟩ := Except.map_eq_ok.mp ha
      exact List.nodup_nil
    | limitOrder o =>
      obtain ⟨_,_,rfl⟩ := Except.map_eq_ok.mp ha
      exact List.nodup_nil

theorem execute_paidDenoms {node node' : Node} {deps : Deps} {env : Env} {messages : List CosmosMsg}
    (h : node.execute deps env=.ok (messages,node')) : node'.paidDenoms=node.paidDenoms := by
  cases node with
  | condition c i s f =>
    obtain ⟨_,_,he⟩ := Except.map_eq_ok.mp h
    cases he
    rfl
  | action a i next =>
    obtain ⟨_,ha,he⟩ := Except.map_eq_ok.mp h
    cases he
    cases a with
    | distribute d =>
      obtain ⟨⟨_,d'⟩,hd,he⟩ := Except.map_eq_ok.mp ha
      cases he
      obtain ⟨_,_,⟨_,_,rfl⟩ | ⟨_,hdenoms,_⟩⟩ := Distribution.executeUnsafe_payments hd
      · rfl
      · exact hdenoms
    | swap s => obtain ⟨_,_,he⟩ := Except.map_eq_ok.mp ha; cases he; rfl
    | limitOrder o => obtain ⟨_,_,he⟩ := Except.map_eq_ok.mp ha; cases he; rfl

omit [Crates] in
theorem commit_paidDenoms {node node' : Node} {deps : Deps} {env : Env}
    (h : node.commit deps env=.ok node') : node'.paidDenoms=node.paidDenoms := by
  cases node with
  | condition c i s f =>
    obtain ⟨_,_,rfl⟩ := Except.map_eq_ok.mp h
    rfl
  | action a i next =>
    obtain ⟨_,ha,rfl⟩ := Except.map_eq_ok.mp h
    cases a with
    | limitOrder o => obtain ⟨_,_,rfl⟩ := Except.map_eq_ok.mp ha; rfl
    | swap s => cases ha; rfl
    | distribute d => cases ha; rfl

end Node

namespace StrategyContract

theorem Stage.paidDenoms {node node' : Node} (h : Stage node node') : node'.paidDenoms=node.paidDenoms := by
  cases h with
  | run operation deps env messages h =>
    cases operation with
    | execute => exact Node.execute_paidDenoms h
    | cancel => rw [(Node.cancel_orders h).1]
  | commit deps env h => exact Node.commit_paidDenoms h

/-- No node pays a denom out twice. -/
theorem History.paidDenoms {s : StrategyStorage} {lists : List (List Node)} (h : History s lists) {k : ℕ} {node : Node}
    (hk : s.nodes.get? k=some node) : node.paidDenoms.Nodup :=
  h.all (P := fun node => node.paidDenoms.Nodup) (fun hi => Node.init_paidDenoms hi)
    (fun hst hn => by rw [hst.paidDenoms]; exact hn) k node hk

/-- The stored nodes ascend, and only one of them pays the balance out. -/
structure Sole (rank : ℕ → ℕ) (k : ℕ) (nodes : Table ℕ Node) : Prop where
  ascends : Ascends rank nodes
  alone : ∀ i node, nodes.get? i=some node → node.distributes=true → i=k

variable {rank : ℕ → ℕ} {k : ℕ} {deps : Deps} {env : Env} {gas : ℕ} {s : StrategyStorage} {r : Processed}
  {operation : StrategyOperation} {previous : Option ℕ}

theorem Sole.save {nodes : Table ℕ Node} {node node' : Node} (h : Sole rank k nodes)
    (hn : nodes.get? node.index=some node) (hst : Stage node node') : Sole rank k (NodeStore.save nodes node') := by
  refine ⟨h.ascends.save hn hst.wiring,fun i n hi hd => ?_⟩
  rw [NodeStore.get?_save] at hi
  split_ifs at hi with he
  · rw [← Option.some.inj hi,hst.distributes] at hd
    rw [he,hst.index]
    exact h.alone _ _ hn hd
  · exact h.alone i n hi hd

theorem Sole.process (hk : Sole rank k s.nodes)
    (h : process gas deps env s operation previous=.ok r) : Sole rank k r.nodes :=
  (process_preserves (fun _ hi => hi.ascends.sane) (fun _ _ _ hi hn hst => hi.save hn hst) hk h).1

/-- What is sent when a run goes on from above the node: nothing that pays the balance out, nothing that
calls a strategy, and the call with which it goes on. -/
theorem Sole.continues {p : ℕ} (hk : Sole rank k s.nodes) (hp : rank k ≤ rank p)
    (h : StrategyContract.process gas deps env s .execute (some p)=.ok r) :
    ∀ sub ∈ (processResponse env .execute r.progress).messages,
      (∃ m i, sub=⟨m,.always,i⟩ ∧ i≠k ∧ ∀ a, m.strategyCall a=none) ∨
      ∃ i, sub=callSelf env (.process .execute (some i)) ∧ rank k ≤ rank i := by
  have hclimbs := process_climbs hk.ascends h
  obtain ⟨hends,_⟩ := process_invariant (I := Sole rank k) (fun _ hi => hi.ascends.sane)
    (fun _ _ _ hi hn hr => hi.save hn (.run .execute deps env [] hr)) (fun _ => hk)
    (fun q node node' _ hq hc => ⟨hk.ascends.sane,hk.save (by rw [hk.ascends.sane.index q node hq]; exact hq)
      (.commit deps env hc)⟩) h
  unfold Ends at hends
  intro sub hsub
  cases hprog : r.progress with
  | finished path => simp [hprog,processResponse] at hsub
  | failed i e =>
    simp only [hprog] at hends hsub
    obtain ⟨_,node,_,hidx,_,hlast⟩ := hends
    have hlt := hclimbs node (List.mem_of_getLast? hlast)
    rw [hidx] at hlt
    exact .inr ⟨i,List.mem_singleton.mp hsub,by omega⟩
  | messages i ms q =>
    simp only [hprog] at hends hsub
    obtain ⟨nodes,node,node',hi,hn,hidx,hr,_,_,rfl,hlast⟩ := hends
    have hlt := hclimbs node (List.mem_of_getLast? hlast)
    rw [hidx] at hlt
    have hne : q≠k := fun he => by rw [he] at hlt; omega
    rcases List.mem_append.mp hsub with hsub | hsub
    · obtain ⟨m,hm,rfl⟩ := List.mem_map.mp hsub
      refine .inl ⟨m,q,rfl,hne,Node.execute_calls hr ?_ m hm⟩
      by_contra hd
      exact hne (hi.alone q node hn (by simpa using hd))
    · exact .inr ⟨q,List.mem_singleton.mp hsub,by omega⟩

end StrategyContract

/-- A call that executes no node in `Execute` mode, nor leads to that. -/
def StrategyExecuteMsg.cancels : StrategyExecuteMsg → Bool
  | .process .cancel _ => true
  | _ => false

namespace Packet

/-- The message takes some of these denoms along. -/
def carries (denoms : List Denom) (p : Packet) : Bool := denoms.any fun x => amountIn x p.funds≠0

/-- The message is a payment of node `k` of the strategy. -/
def pays (a : Addr) (k : ℕ) (denoms : List Denom) (p : Packet) : Bool :=
  p.sender=a && p.sub.id=k && p.sub.replyOn=.always && p.carries denoms

/-- The strategy sends the message, and it moves the balance or calls the strategy. -/
def matters (a : Addr) (denoms : List Denom) (p : Packet) : Bool :=
  p.sender=a && (p.carries denoms || (p.calls a).any fun msg => !msg.cancels)

variable {a : Addr} {k : ℕ} {denoms : List Denom} {p : Packet}

theorem matters_of_pays (h : p.pays a k denoms=true) : p.matters a denoms=true := by
  simp only [pays,Bool.and_eq_true] at h
  simp [matters,h.1.1.1,h.2]

theorem not_matters (h : p.sender≠a) : p.matters a denoms=false := by simp [matters,h]

/-- Funds that the strategy sends to itself come in. -/
theorem calls_eq_none (hc : p.carries denoms=true) (hi : ∀ x ∈ denoms, p.inflow a x=0) : p.calls a=none := by
  obtain ⟨x,hx,hne⟩ : ∃ x ∈ denoms, amountIn x p.funds≠0 := by simpa [carries] using hc
  have hr : p.receiver≠some a := fun hr => hne (by simpa [inflow,hr] using hi x hx)
  unfold calls CosmosMsg.strategyCall
  unfold receiver at hr
  cases hm : p.sub.msg with
  | wasmExecute target body funds =>
    rw [hm] at hr
    exact if_neg fun he => hr (congrArg some he)
  | _ => rfl

theorem filter_matters_eq_nil {ps : List Packet} (h : ∀ q ∈ ps, q.matters a denoms=false) :
    ps.filter (matters a denoms)=[] := List.filter_eq_nil_iff.mpr fun q hq => by simp [h q hq]

end Packet

namespace Site

/-- The payments that arrived since the record began. -/
def arrivals (a : Addr) (k : ℕ) (denoms : List Denom) (l : Option (List Packet)) (_ : World) (p : Packet) (_ : World)
    (_ : List Packet) : Option (List Packet) :=
  l.map fun l => if p.pays a k denoms then l ++ [p] else l

/-- No funds of the denoms come in, and nobody else makes the strategy execute, update or withdraw while it
holds some of them; in the accepting case no payment that is covered is refused. -/
def undisturbed (a : Addr) (k : ℕ) (denoms : List Denom) (accepting : Prop) : Dispatch.Conduct World Packet where
  calls w p _ := ∀ x ∈ denoms, p.inflow a x=0 ∧
    (p.sender≠a → ∀ msg, p.calls a=some msg → msg≠.cancel → w.bank a x=0)
  fails w p := accepting → p.pays a k denoms=true → ¬w.Covers p

/-- What may still be pending behind the payments: nothing that leads back to the node. -/
def Behind (rank : ℕ → ℕ) (a : Addr) (k : ℕ) (denoms : List Denom) (p : Packet) : Prop :=
  p.pays a k denoms=false ∧
    ∀ msg, p.calls a=some msg → ∃ i, msg=.process .execute (some i) ∧ rank k ≤ rank i

/-- The payments in `left` are still to be delivered. -/
structure Paying (rank : ℕ → ℕ) (a : Addr) (k : ℕ) (denoms : List Denom) (accepting : Prop)
    (payments left : List Packet) (w : World) (l ps : List Packet) : Prop where
  stored : ∃ s, w.strategies a=some s ∧ StrategyContract.Sole rank k s.nodes
  arrived : ∃ done, payments=done ++ left ∧ l.Sublist done ∧ (accepting → l=done)
  covered : accepting → ∀ x ∈ denoms, w.bank a x=(left.map fun p => amountIn x p.funds).sum
  order : ∃ rest, ps.filter (Packet.matters a denoms)=left ++ rest ∧ ∀ q ∈ rest, Behind rank a k denoms q

/-- Nothing is left to be paid out. -/
structure Paid (a : Addr) (denoms : List Denom) (accepting : Prop) (payments : List Packet) (w : World)
    (l : List Packet) : Prop where
  empty : ∀ x ∈ denoms, w.bank a x=0
  arrived : l.Sublist payments ∧ (accepting → l=payments)

/-- Either holds, as long as there is a record. -/
def Pays (rank : ℕ → ℕ) (a : Addr) (k : ℕ) (denoms : List Denom) (accepting : Prop) (payments : List Packet)
    (w : World) (l ps : List Packet) : Prop :=
  (∃ left, Paying rank a k denoms accepting payments left w l ps) ∨ Paid a denoms accepting payments w l

variable {site : Site} {rank : ℕ → ℕ} {a : Addr} {k : ℕ} {denoms : List Denom} {accepting : Prop}
  {payments left : List Packet} {w w' : World} {p : Packet} {l ps out : List Packet}

/-- The payments are funded in these denoms and no others. -/
structure Funded (a : Addr) (k : ℕ) (denoms : List Denom) (payments : List Packet) : Prop where
  pays : ∀ q ∈ payments, q.pays a k denoms=true
  only : ∀ q ∈ payments, ∀ x, x ∉ denoms → amountIn x q.funds=0

theorem Paying.paid (h : Paying rank a k denoms accepting payments left w l ps) (hf : Funded a k denoms payments)
    (hzero : ∀ x ∈ denoms, w.bank a x=0) : Paid a denoms accepting payments w l := by
  obtain ⟨done,rfl,hsub,heq⟩ := h.arrived
  refine ⟨hzero,hsub.trans (List.sublist_append_left _ _),fun hacc => ?_⟩
  suffices left=[] by rw [this,List.append_nil,heq hacc]
  cases left with
  | nil => rfl
  | cons q left =>
    have hq := hf.pays q (by simp)
    simp only [Packet.pays,Bool.and_eq_true] at hq
    obtain ⟨x,hx,hne⟩ : ∃ x ∈ denoms, amountIn x q.funds≠0 := by simpa [Packet.carries] using hq.2
    have := h.covered hacc x hx
    rw [hzero x hx,List.map_cons,List.sum_cons] at this
    omega

/-- The balance after a delivery that brings nothing in. -/
theorem Delivers.bank_left (hd : site.Delivers w p w' out) {x : Denom} (hi : p.inflow a x=0) :
    w'.bank a x+p.outflow a x=w.bank a x := by
  obtain ⟨hcovers,hbank⟩ := hd.bank
  rw [hbank,World.bank_charge hcovers,hi,Nat.add_zero]

theorem Paid.call (h : Paid a denoms accepting payments w l) (hd : site.Delivers w p w' out)
    (hi : ∀ x ∈ denoms, p.inflow a x=0) : p.pays a k denoms=false ∧ Paid a denoms accepting payments w' l := by
  refine ⟨?_,fun x hx => ?_,h.arrived⟩
  · by_contra hp
    have hp : p.pays a k denoms=true := by simpa using hp
    simp only [Packet.pays,Bool.and_eq_true,decide_eq_true_eq] at hp
    obtain ⟨x,hx,hne⟩ : ∃ x ∈ denoms, amountIn x p.funds≠0 := by simpa [Packet.carries] using hp.2
    have hc := hd.bank.1 x
    rw [hp.1.1.1,h.empty x hx] at hc
    omega
  · have := hd.bank_left (hi x hx)
    rw [h.empty x hx] at this
    omega

/-- A call with which a run is only cancelled sends nothing that matters. -/
theorem cancels_sends {gas : ℕ} {deps : Deps} {env : Env} {info : MessageInfo} {s s' : StrategyStorage}
    {msg : StrategyExecuteMsg} {response : StrategyResponse} (hm : msg=.cancel ∨ msg.cancels=true)
    (h : StrategyContract.execute gas deps env info s msg=.ok (s',response)) :
    (∀ sub ∈ response.messages, (Packet.mk env.contract sub).matters env.contract denoms=false) ∧
      (StrategyContract.Sole rank k s.nodes → StrategyContract.Sole rank k s'.nodes) := by
  have hself : ∀ previous, (Packet.mk env.contract (callSelf env (.process .cancel previous))).matters env.contract
      denoms=false := fun previous => by
    simp [Packet.matters,Packet.carries,Packet.funds,Packet.calls,callSelf,CosmosMsg.funds,CosmosMsg.strategyCall,
      Body.toStrategy,StrategyExecuteMsg.cancels]
  have hnodes := (StrategyContract.execute_nodes h).2
  obtain ⟨_,hsends⟩ := StrategyContract.execute_sends h
  rcases hm with rfl | hm
  · refine ⟨fun sub hs => ?_,fun hk => hnodes.1 ▸ hk⟩
    rw [hsends.2,List.mem_singleton] at hs
    exact hs ▸ hself none
  · cases msg with
    | process operation previous =>
      cases operation with
      | execute => cases hm
      | cancel =>
        obtain ⟨_,r,deposits,hp,hn,he⟩ := hsends
        refine ⟨fun sub hs => ?_,fun hk => ?_⟩
        · rw [he] at hs
          rcases StrategyContract.mem_processResponse hs with ⟨m,hmem,i,rfl⟩ | ⟨q,rfl⟩
          · obtain ⟨node,ms,node',hrun,hms⟩ := StrategyContract.process_emitted hp m hmem
            obtain ⟨hfunds,hcalls⟩ := Node.cancel_closes hrun m hms
            simp [Packet.matters,Packet.carries,Packet.funds,Packet.calls,hfunds,hcalls]
          · exact hself _
        · have hk' : StrategyContract.Sole rank k { s with deposits := deposits }.nodes := hk
          exact hn ▸ hk'.process hp
    | _ => cases hm

/-- A delivery that does not matter changes nothing that does. -/
theorem Paying.call_past (h : Paying rank a k denoms accepting payments left w l (p :: ps)) (ha : site.Strategy a)
    (hd : site.Delivers w p w' out) (hi : ∀ x ∈ denoms, p.inflow a x=0) (hp : p.matters a denoms=false)
    (hc : ∀ msg, p.calls a=some msg → msg=.cancel ∨ msg.cancels=true) :
    Paying rank a k denoms accepting payments left w' l (out ++ ps) := by
  obtain ⟨s,hs,hsole⟩ := h.stored
  have hsame : (∃ s, w'.strategies a=some s ∧ StrategyContract.Sole rank k s.nodes) ∧
      out.filter (Packet.matters a denoms)=[] := by
    cases hcalls : p.calls a with
    | none =>
      obtain ⟨hst,hout⟩ := hd.past_strategy ha (by simp [hs]) hcalls
      exact ⟨⟨s,hst.trans hs,hsole⟩,Packet.filter_matters_eq_nil fun q hq => Packet.not_matters (hout q hq)⟩
    | some msg =>
      obtain ⟨gas,deps,env,s₁,s',response,hs₁,_,rfl,he,rfl,rfl⟩ := hd.to_strategy ha hcalls
      obtain rfl := Option.some.inj (hs.symm.trans hs₁)
      obtain ⟨hsends,hkeeps⟩ := cancels_sends (hc msg hcalls) he
      refine ⟨⟨s',by simp,hkeeps hsole⟩,Packet.filter_matters_eq_nil fun q hq => ?_⟩
      obtain ⟨sub,hsub,rfl⟩ := List.mem_map.mp hq
      exact hsends sub hsub
  have hbank : ∀ x ∈ denoms, w'.bank a x=w.bank a x := fun x hx => by
    have hleft := hd.bank_left (hi x hx)
    have hout : p.outflow a x=0 := by
      unfold Packet.outflow
      split_ifs with hsender
      · by_contra hne
        have : p.carries denoms=true := by simpa [Packet.carries] using ⟨x,hx,hne⟩
        simp [Packet.matters,hsender,this] at hp
      · rfl
    omega
  obtain ⟨rest,hrest,hbehind⟩ := h.order
  rw [List.filter_cons_of_neg (by simp [hp])] at hrest
  exact ⟨hsame.1,h.arrived,fun hacc x hx => (hbank x hx).trans (h.covered hacc x hx),
    rest,by rw [List.filter_append,hsame.2,List.nil_append,hrest],hbehind⟩

/-- The next payment arrives. -/
theorem Paying.call_payment (h : Paying rank a k denoms accepting payments (p :: left) w l (p :: ps))
    (hf : Funded a k denoms payments) (ha : site.Strategy a) (hd : site.Delivers w p w' out)
    (hi : ∀ x ∈ denoms, p.inflow a x=0) :
    p.pays a k denoms=true ∧ Paying rank a k denoms accepting payments left w' (l ++ [p]) (out ++ ps) := by
  obtain ⟨s,hs,hsole⟩ := h.stored
  obtain ⟨done,hdone,hsub,heq⟩ := h.arrived
  have hpays := hf.pays p (by simp [hdone])
  have hp := hpays
  simp only [Packet.pays,Bool.and_eq_true,decide_eq_true_eq] at hp
  obtain ⟨hst,hout⟩ := hd.past_strategy ha (by simp [hs]) (Packet.calls_eq_none hp.2 hi)
  obtain ⟨rest,hrest,hbehind⟩ := h.order
  rw [List.filter_cons_of_pos (Packet.matters_of_pays hpays),List.cons_append] at hrest
  refine ⟨hpays,⟨s,hst.trans hs,hsole⟩,⟨done ++ [p],by rw [hdone,List.append_assoc]; rfl,
    hsub.append (.refl _),fun hacc => by rw [heq hacc]⟩,fun hacc x hx => ?_,rest,?_,hbehind⟩
  · have hleft := hd.bank_left (hi x hx)
    have hcov := h.covered hacc x hx
    rw [Packet.outflow,if_pos hp.1.1.1] at hleft
    rw [List.map_cons,List.sum_cons] at hcov
    omega
  · rw [List.filter_append,Packet.filter_matters_eq_nil fun q hq => Packet.not_matters (hout q hq),List.nil_append]
    exact (List.cons.inj hrest).2

/-- The run goes on behind the payments. -/
theorem Paying.call_behind (h : Paying rank a k denoms accepting payments [] w l (p :: ps)) (ha : site.Strategy a)
    (hd : site.Delivers w p w' out) (hp : p.matters a denoms=true) (hacc : ¬accepting) :
    p.pays a k denoms=false ∧ Paying rank a k denoms accepting payments [] w' l (out ++ ps) := by
  obtain ⟨s,hs,hsole⟩ := h.stored
  obtain ⟨rest,hrest,hbehind⟩ := h.order
  rw [List.filter_cons_of_pos hp,List.nil_append] at hrest
  subst hrest
  obtain ⟨hnot,hcalls⟩ := hbehind p List.mem_cons_self
  refine ⟨hnot,?_⟩
  suffices hnew : (∃ s, w'.strategies a=some s ∧ StrategyContract.Sole rank k s.nodes) ∧
      ∀ q ∈ out.filter (Packet.matters a denoms), Behind rank a k denoms q by
    refine ⟨hnew.1,h.arrived,fun h => absurd h hacc,_,by rw [List.filter_append,List.nil_append],fun q hq => ?_⟩
    rcases List.mem_append.mp hq with hq | hq
    · exact hnew.2 q hq
    · exact hbehind q (List.mem_cons_of_mem _ hq)
  cases hc : p.calls a with
  | none =>
    obtain ⟨hst,hout⟩ := hd.past_strategy ha (by simp [hs]) hc
    rw [Packet.filter_matters_eq_nil fun q hq => Packet.not_matters (hout q hq)]
    exact ⟨⟨s,hst.trans hs,hsole⟩,by simp⟩
  | some msg =>
    obtain ⟨i,rfl,hle⟩ := hcalls msg hc
    obtain ⟨gas,deps,env,s₁,s',response,hs₁,_,rfl,he,rfl,rfl⟩ := hd.to_strategy ha hc
    obtain rfl := Option.some.inj (hs.symm.trans hs₁)
    obtain ⟨_,_,r,deposits,hproc,hn,hm⟩ := StrategyContract.execute_sends he
    have hsole' : StrategyContract.Sole rank k { s with deposits := deposits }.nodes := hsole
    refine ⟨⟨s',by simp,hn ▸ hsole'.process hproc⟩,fun q hq => ?_⟩
    obtain ⟨sub,hsub,rfl⟩ := List.mem_map.mp (List.mem_filter.mp hq).1
    rw [hm] at hsub
    rcases hsole'.continues hle hproc sub hsub with ⟨m,j,rfl,hj,hm⟩ | ⟨j,rfl,hj⟩
    · exact ⟨by simp [Packet.pays,hj],fun msg hc => by simp [Packet.calls,hm] at hc⟩
    · refine ⟨by simp [Packet.pays,callSelf],fun msg hc => ⟨j,?_,hj⟩⟩
      simpa [Packet.calls,callSelf,CosmosMsg.strategyCall,Body.toStrategy] using hc.symm

/-- What the strategy does not send changes nothing that matters. -/
theorem Paying.reply (h : Paying rank a k denoms accepting payments left w l ps) (hout : ∀ q ∈ out, q.sender≠a) :
    Paying rank a k denoms accepting payments left w l (out ++ ps) := by
  obtain ⟨rest,hrest,hbehind⟩ := h.order
  refine ⟨h.stored,h.arrived,h.covered,rest,?_,hbehind⟩
  rw [List.filter_append,Packet.filter_matters_eq_nil fun q hq => Packet.not_matters (hout q hq),List.nil_append,hrest]

/-- A message is refused: a payment that is lost, unless all of them are accepted. -/
theorem Paying.drop (h : Paying rank a k denoms accepting payments left w l (p :: ps))
    (hf : Funded a k denoms payments) (hfail : accepting → p.pays a k denoms=true → ¬w.Covers p) :
    ∃ left, Paying rank a k denoms accepting payments left w l ps := by
  obtain ⟨rest,hrest,hbehind⟩ := h.order
  cases hp : p.matters a denoms with
  | false => exact ⟨left,h.stored,h.arrived,h.covered,rest,by simpa [hp] using hrest,hbehind⟩
  | true =>
    rw [List.filter_cons_of_pos hp] at hrest
    cases left with
    | nil =>
      rw [List.nil_append] at hrest
      subst hrest
      exact ⟨[],h.stored,h.arrived,h.covered,_,rfl,fun q hq => hbehind q (List.mem_cons_of_mem _ hq)⟩
    | cons q left =>
      obtain ⟨rfl,htail⟩ := List.cons.inj hrest
      obtain ⟨done,hdone,hsub,heq⟩ := h.arrived
      have hmem : p ∈ payments := by simp [hdone]
      have hpays := hf.pays p hmem
      have hnot : ¬accepting := fun hacc => hfail hacc hpays fun x => by
        simp only [Packet.pays,Bool.and_eq_true,decide_eq_true_eq] at hpays
        rw [hpays.1.1.1]
        by_cases hx : x ∈ denoms
        · rw [h.covered hacc x hx,List.map_cons,List.sum_cons]
          omega
        · rw [hf.only p hmem x hx]
          exact Nat.zero_le _
      exact ⟨left,h.stored,⟨done ++ [p],by rw [hdone,List.append_assoc]; rfl,
        hsub.trans (List.sublist_append_left _ _),fun hacc => absurd hacc hnot⟩,fun hacc => absurd hacc hnot,
        rest,htail,hbehind⟩

/-- One delivery: what is left to be paid stays in order, or is gone. -/
theorem Pays.call (h : Pays rank a k denoms accepting payments w l (p :: ps)) (hf : Funded a k denoms payments)
    (ha : site.Strategy a) (hc : (undisturbed a k denoms accepting).calls w p ps) (hd : site.Delivers w p w' out) :
    Pays rank a k denoms accepting payments w' (if p.pays a k denoms then l ++ [p] else l) (out ++ ps) := by
  have hi := fun x hx => (hc x hx).1
  have hpaid : Paid a denoms accepting payments w l →
      Pays rank a k denoms accepting payments w' (if p.pays a k denoms then l ++ [p] else l) (out ++ ps) := fun h => by
    obtain ⟨hp,h⟩ := h.call (k := k) hd hi
    rw [if_neg (by simp [hp])]
    exact .inr h
  rcases h with ⟨left,h⟩ | h
  · by_cases hzero : ∀ x ∈ denoms, w.bank a x=0
    · exact hpaid (h.paid hf hzero)
    have hout : p.sender≠a → ∀ msg, p.calls a=some msg → msg=.cancel := fun hs msg hm => by
      by_contra hne
      exact hzero fun x hx => (hc x hx).2 hs msg hm hne
    cases hp : p.matters a denoms with
    | false =>
      have hnot : p.pays a k denoms=false := by
        by_contra hne
        simp [Packet.matters_of_pays (by simpa using hne)] at hp
      rw [if_neg (by simp [hnot])]
      refine .inl ⟨left,h.call_past ha hd hi hp fun msg hm => ?_⟩
      by_cases hs : p.sender=a
      · refine .inr ?_
        simp only [Packet.matters,hs,hm,Option.any_some,decide_true,Bool.true_and,Bool.or_eq_false_iff,
          Bool.not_eq_false'] at hp
        exact hp.2
      · exact .inl (hout hs msg hm)
    | true =>
      obtain ⟨rest,hrest,hbehind⟩ := id h.order
      rw [List.filter_cons_of_pos hp] at hrest
      cases left with
      | nil =>
        have hnot : ¬accepting := fun hacc => hzero fun x hx => by simpa using h.covered hacc x hx
        obtain ⟨hp,h⟩ := h.call_behind ha hd hp hnot
        rw [if_neg (by simp [hp])]
        exact .inl ⟨[],h⟩
      | cons q left =>
        obtain ⟨rfl,_⟩ := List.cons.inj hrest
        obtain ⟨hp,h⟩ := h.call_payment hf ha hd hi
        rw [if_pos hp]
        exact .inl ⟨left,h⟩
  · exact hpaid h

theorem Pays.keeps (ha : site.Strategy a) (hf : Funded a k denoms payments) :
    Dispatch.Keeps (site.machine.recording (arrivals a k denoms)) (undisturbed a k denoms accepting).recording
      (fun w ps => ∀ l, w.2=some l → Pays rank a k denoms accepting payments w.1 l ps) where
  call {w w' p ps out} h hc hd l hl := by
    obtain ⟨hd,he⟩ := hd
    obtain ⟨l₀,hl₀,rfl⟩ := Option.map_eq_some_iff.mp (he.symm.trans hl)
    exact (h l₀ hl₀).call hf ha hc hd
  reply {w p ok ps out} h hr l hl := by
    have hout : ∀ q ∈ out, q.sender≠a := fun q hq he => (Replies.senders hr q hq).not_strategy (he ▸ ha)
    rcases h l hl with ⟨left,h⟩ | h
    · exact .inl ⟨left,h.reply hout⟩
    · exact .inr h
  drop {w p ps} h _ hfail l hl := by
    rcases h l hl with ⟨left,h⟩ | h
    · exact .inl (h.drop hf hfail)
    · exact .inr h

/-- The payment messages of an execution of node `k`. -/
def paymentsOf (a : Addr) (k : ℕ) (messages : List CosmosMsg) : List Packet :=
  messages.map fun message => ⟨a,⟨message,.always,k⟩⟩

omit [Crates] in
theorem paymentsOf_funded {d : Distribution} {balance : Denom → ℕ} {due : List (Destination × List Coin)}
    {messages : List CosmosMsg} (h : d.PaysShares balance due)
    (hm : List.Forall₂ (fun p m => p.1.recipient.PaidBy p.2 m) (due.filter fun p => p.2≠[]) messages) :
    Funded a k d.denoms (paymentsOf a k messages) ∧
      ∀ x ∈ d.denoms, ((paymentsOf a k messages).map fun q => amountIn x q.funds).sum=balance x := by
  have hfrom : ∀ q ∈ paymentsOf a k messages, ∃ e ∈ due, e.2≠[] ∧ q.sender=a ∧ q.sub.id=k ∧ q.sub.replyOn=.always ∧
      q.funds=e.2 := by
    intro q hq
    obtain ⟨m,hmem,rfl⟩ := List.mem_map.mp hq
    obtain ⟨i,hi,rfl⟩ := List.getElem_of_mem hmem
    have hi' : i<(due.filter fun p => p.2≠[]).length := hm.length_eq ▸ hi
    obtain ⟨hdue,hne⟩ := List.mem_filter.mp (List.getElem_mem hi')
    exact ⟨_,hdue,by simpa using hne,rfl,rfl,rfl,(hm.get hi' hi).funds⟩
  refine ⟨⟨fun q hq => ?_,fun q hq x hx => ?_⟩,fun x hx => ?_⟩
  · obtain ⟨e,hdue,hne,hsender,hid,hreply,hfunds⟩ := hfrom q hq
    obtain ⟨x,hx,h0⟩ := h.funded e hdue hne
    have hcarries : q.carries d.denoms=true := by simpa [Packet.carries,hfunds] using ⟨x,hx,h0⟩
    simp [Packet.pays,hsender,hid,hreply,hcarries]
  · obtain ⟨e,hdue,_,_,_,_,hfunds⟩ := hfrom q hq
    rw [hfunds]
    exact h.only e hdue x hx
  · have hkept : (due.map fun p => amountIn x p.2).sum=((due.filter fun p => p.2≠[]).map fun p => amountIn x p.2).sum := by
      clear hm h hfrom
      induction due with
      | nil => rfl
      | cons e due ih => by_cases he : e.2=[] <;> simp [he,ih]
    rw [← h.whole x hx,hkept]
    clear hkept hfrom h
    rw [paymentsOf,List.map_map]
    generalize due.filter (fun p => p.2≠[])=kept at hm
    induction hm with
    | nil => rfl
    | cons hp _ ih =>
      rw [List.map_cons,List.map_cons,List.sum_cons,List.sum_cons,ih,← hp.funds]
      rfl

omit [Crates] in
/-- What arrives of the payments belongs to as many of the destinations. -/
theorem sublist_paymentsOf {kept : List (Destination × List Coin)} {messages : List CosmosMsg}
    (h : List.Forall₂ (fun p m => p.1.recipient.PaidBy p.2 m) kept messages)
    (hl : l.Sublist (paymentsOf a k messages)) :
    ∃ arrived, arrived.Sublist kept ∧ List.Forall₂ (fun p q => p.1.recipient.PaidBy p.2 q.sub.msg) arrived l := by
  induction h generalizing l with
  | nil =>
    obtain rfl := List.sublist_nil.mp hl
    exact ⟨[],.refl _,.nil⟩
  | @cons p m kept messages hp _ ih =>
    rw [paymentsOf,List.map_cons] at hl
    cases hl with
    | cons _ hl =>
      obtain ⟨arrived,hsub,hfor⟩ := ih hl
      exact ⟨arrived,hsub.cons _,hfor⟩
    | cons_cons _ hl =>
      obtain ⟨arrived,hsub,hfor⟩ := ih hl
      exact ⟨p :: arrived,hsub.cons_cons _,.cons hp hfor⟩

/-- The call of the strategy that has executed node `k`: its payments are to be delivered. -/
theorem Paying.opening {w₀ : World} {p₀ : Packet} {s : StrategyStorage} {d : Distribution} {next previous : Option ℕ}
    {fs : List (Dispatch.Frame World Packet)} (ha : site.Strategy a) (hs : w₀.strategies a=some s)
    (hsole : StrategyContract.Sole rank k s.nodes) (hn : d.denoms.Nodup)
    (hk : s.nodes.get? k=some (.action (.distribute d) k next)) (hd : site.Delivers w₀ p₀ w out)
    (hcall : p₀.calls a=some (.process .execute previous))
    (hreach : ∃ q ∈ out, q.sub.replyOn=.always ∧ q.sub.id=k) (houter : ∀ q ∈ Dispatch.pending fs, q.sender≠a) :
    ∃ due messages, d.PaysShares (w.bank a) due ∧ Funded a k d.denoms (paymentsOf a k messages) ∧
      List.Forall₂ (fun p m => p.1.recipient.PaidBy p.2 m) (due.filter fun p => p.2≠[]) messages ∧
      Paying rank a k d.denoms accepting (paymentsOf a k messages) (paymentsOf a k messages) w []
        (out ++ Dispatch.pending fs) := by
  obtain ⟨gas,deps,env,s₁,s',response,hs₁,hanswers,rfl,he,rfl,rfl⟩ := hd.to_strategy ha hcall
  obtain rfl := Option.some.inj (hs.symm.trans hs₁)
  obtain ⟨_,_,r,deposits,hproc,hnodes,hmsgs⟩ := StrategyContract.execute_sends he
  have hsole' : StrategyContract.Sole rank k { s with deposits := deposits }.nodes := hsole
  have hdist := StrategyContract.process_distribution hsole'.ascends.sane hk hproc
  obtain ⟨q,hq,hreply,hid⟩ := hreach
  obtain ⟨sub,hsub,rfl⟩ := List.mem_map.mp hq
  rw [hmsgs] at hsub
  have hself : ∀ call, sub≠callSelf env call := fun call he => by simp [he,callSelf] at hreply
  cases hprog : r.progress with
  | finished path => simp [hprog,StrategyContract.processResponse] at hsub
  | failed i e => exact absurd (List.mem_singleton.mp (hprog ▸ hsub)) (hself _)
  | messages i messages previous =>
    rw [hprog] at hsub hmsgs
    simp only [hprog] at hdist
    obtain ⟨hne,hdist⟩ := hdist
    obtain ⟨m,_,rfl⟩ := List.mem_map.mp ((List.mem_append.mp hsub).resolve_right fun h => hself _ (List.mem_singleton.mp h))
    obtain rfl : i=k := hid
    rw [if_pos rfl] at hdist
    obtain ⟨d',hexec,_⟩ := hdist
    have hbank : deps.Answers env.contract ((w₀.charge p₀).bank env.contract) := hanswers.bank env.contract
    obtain ⟨due,hdue,hsent⟩ := Distribution.executeUnsafe_shares hn hbank hexec hne
    have hpaid := hsent.imp fun _ _ h => Recipient.distributeMessage_eq_ok h
    obtain ⟨hfunded,htotal⟩ := paymentsOf_funded (a := env.contract) (k := i) hdue hpaid
    have hprev : previous=i := by
      obtain ⟨hends,_⟩ := StrategyContract.process_invariant (I := StrategyContract.Sole rank i) (fun _ hi => hi.ascends.sane)
        (fun _ _ _ hi hn hr => hi.save hn (.run .execute deps env _ hr)) (fun _ => hsole')
        (fun q node node' _ hq hc => ⟨hsole'.ascends.sane,hsole'.save (by rw [hsole'.ascends.sane.index q node hq]; exact hq)
          (.commit deps env hc)⟩) hproc
      simp only [StrategyContract.Ends,hprog] at hends
      obtain ⟨_,_,_,_,_,_,_,_,_,hp,_⟩ := hends
      exact hp
    have hout : response.messages.map (Packet.mk env.contract)=
        paymentsOf env.contract i messages ++ [⟨env.contract,callSelf env (.process .execute (some i))⟩] := by
      rw [hmsgs,hprev,StrategyContract.processResponse,List.map_append,List.map_map]
      rfl
    refine ⟨due,messages,hdue,hfunded,hpaid,⟨⟨s',by simp,?_⟩,⟨[],rfl,.refl _,fun _ => rfl⟩,
      fun _ x hx => (htotal x hx).symm,
      [⟨env.contract,callSelf env (.process .execute (some i))⟩].filter (Packet.matters env.contract d.denoms),?_,
      fun q hq => ?_⟩⟩
    · exact hnodes ▸ hsole'.process hproc
    · rw [hout,List.filter_append,List.filter_append,
        List.filter_eq_self.mpr fun q hq => Packet.matters_of_pays (hfunded.pays q hq),
        Packet.filter_matters_eq_nil fun q hq => Packet.not_matters (houter q hq),List.append_nil]
    · obtain rfl := List.mem_singleton.mp (List.mem_filter.mp hq).1
      refine ⟨by simp [Packet.pays,callSelf],fun msg hc => ⟨i,?_,le_rfl⟩⟩
      simpa [Packet.calls,callSelf,CosmosMsg.strategyCall,Body.toStrategy] using hc.symm

/-- While nobody disturbs the payments of the outermost run, each destination gets its share once at most, and
all of them do if every covered payment is accepted. -/
theorem shares_kept {w₀ : World} {p₀ : Packet} {s : StrategyStorage} {lists : List (List Node)} {d : Distribution}
    {next previous : Option ℕ} {fs : List (Dispatch.Frame World Packet)}
    {c : Dispatch.Config (World × Option (List Packet)) Packet} (ha : site.Strategy a)
    (hs : w₀.strategies a=some s) (hh : StrategyContract.History s lists)
    (hk : s.nodes.get? k=some (.action (.distribute d) k next))
    (hone : ∀ i node, s.nodes.get? i=some node → node.distributes=true → i=k)
    (hd : site.Delivers w₀ p₀ w out) (hcall : p₀.calls a=some (.process .execute previous))
    (hreach : ∃ q ∈ out, q.sub.replyOn=.always ∧ q.sub.id=k) (houter : ∀ q ∈ Dispatch.pending fs, q.sender≠a)
    (hsteps : Dispatch.Steps (site.machine.recording (arrivals a k d.denoms))
      (undisturbed a k d.denoms accepting).recording (Dispatch.Config.record ⟨w,⟨w₀,p₀,out⟩ :: fs⟩ []) c)
    (hl : c.world.2=some l) :
    ∃ due, d.PaysShares (w.bank a) due ∧ ∃ arrived, arrived.Sublist due ∧
      List.Forall₂ (fun p q => p.1.recipient.PaidBy p.2 q.sub.msg) arrived l ∧
      (accepting → (∀ q ∈ Dispatch.pending c.frames, q.sender≠a) → arrived=due.filter fun p => p.2≠[]) := by
  obtain ⟨rank,hrank⟩ := hh.ascends
  have hn : d.denoms.Nodup := hh.paidDenoms hk
  obtain ⟨due,messages,hdue,hfunded,hpaid,hopen⟩ :=
    Paying.opening ha hs ⟨hrank,hone⟩ hn hk hd hcall hreach houter
  have hnow := ((Dispatch.Holds.record (J := Pays rank a k d.denoms accepting (paymentsOf a k messages))
    (c := ⟨w,⟨w₀,p₀,out⟩ :: fs⟩) (.inl ⟨_,hopen⟩)).steps (Pays.keeps ha hfunded) hsteps).now l hl
  have hsub : l.Sublist (paymentsOf a k messages) ∧
      (accepting → (∀ q ∈ Dispatch.pending c.frames, q.sender≠a) → l=paymentsOf a k messages) := by
    rcases hnow with ⟨left,h⟩ | h
    · obtain ⟨done,hdone,hsub,heq⟩ := h.arrived
      refine ⟨hdone ▸ hsub.trans (List.sublist_append_left _ _),fun hacc hnone => ?_⟩
      obtain ⟨rest,hrest,_⟩ := h.order
      rw [Packet.filter_matters_eq_nil fun q hq => Packet.not_matters (hnone q hq)] at hrest
      rw [hdone,(List.append_eq_nil_iff.mp hrest.symm).1,List.append_nil,heq hacc]
    · exact ⟨h.arrived.1,fun hacc _ => h.arrived.2 hacc⟩
  obtain ⟨arrived,harr,hfor⟩ := sublist_paymentsOf hpaid hsub.1
  refine ⟨due,hdue,arrived,harr.trans List.filter_sublist,hfor,fun hacc hnone => harr.eq_of_length ?_⟩
  rw [hfor.length_eq,hsub.2 hacc hnone,hpaid.length_eq,paymentsOf,List.length_map]

end Site
end

namespace Site

attribute [local instance] Crates.plain

/-- Everything is paid to a contract, but for the fee. -/
def piggyBank : Distribution := ⟨["rune"],[⟨10000,.contract "piggy" [],none,none⟩,⟨25,.bank "fees",some "CALC",none⟩]⟩

/-- A chain on which everybody owns as many runes as the piggy bank has shares. -/
def hoard : World := { wealthy Table.empty with bank := fun _ _ => 10025 }

/-- The contract has the strategy executed again whenever it is paid. -/
def greed (p : Packet) : List SubMsg :=
  if p.sender="manager/21" then [⟨.wasmExecute "manager" (.manager (.execute "manager/21")) [],.never,0⟩] else []

/-- No runes come in, and what is covered is not refused. -/
def closedCircle (a : Addr) : Dispatch.Conduct World Packet where
  calls _ p _ := p.inflow a "rune"=0
  fails w p := ¬w.Covers p

def greedyTown : Dispatch.Player World Packet :=
  town.player ⟨1,⟨1⟩⟩ (townsfolk greed) fun _ p _ => p.inflow "manager/21" "rune"=0

/-- Alice creates the strategy; its node is executed by the last of these steps. -/
def greedyStart : Option (Dispatch.Config World Packet) :=
  (greedyTown.start hoard (asks (.instantiate none none "savings" []
    [.action (.distribute ⟨["rune"],[⟨10000,.contract "piggy" [],none,none⟩]⟩) 0 none]))).bind (greedyTown.play 3)

def greedyEnd (c : Dispatch.Config World Packet) : Option (Dispatch.Config (World × Option (List Packet)) Packet) :=
  (greedyTown.recording (arrivals "manager/21" 0 ["rune"])).play 29 (c.record [])

/-- What is seen of that transaction: the call that executes the node, what was pending besides its payments, the
distribution and its balance, what is pending at the end, and what the contract and the fee account got. -/
structure Sighting where
  call : StrategyExecuteMsg
  beside : List Packet
  distribution : Distribution
  balance : ℕ
  rest : List Packet
  piggy : ℕ
  fees : ℕ
  deriving DecidableEq

def greedySighting : Option Sighting := do
  let c ← greedyStart
  let f ← c.frames.head?
  let e ← greedyEnd c
  let l ← e.world.2
  let call ← f.packet.calls "manager/21"
  let s ← f.saved.strategies "manager/21"
  let node ← s.nodes.get? 0
  let d ← node.paysOut
  return ⟨call,Dispatch.pending c.frames.tail,d,c.world.bank "manager/21" "rune",Dispatch.pending e.frames,
    (l.map fun q => q.inflow "piggy" "rune").sum,(l.map fun q => q.inflow "fees" "rune").sum⟩

/-- By executing the strategy again before the fee is paid, the contract gets most of the fee as well. -/
theorem reentry_takes_fee : ∃ w₀ p₀ w out fs c l s node,
    Dispatch.Reachable town.machine (closedCircle "manager/21") hoard ⟨w,⟨w₀,p₀,out⟩ :: fs⟩ ∧
    p₀.calls "manager/21"=some (.process .execute none) ∧ (∀ q ∈ Dispatch.pending fs, q.sender≠"manager/21") ∧
    w₀.strategies "manager/21"=some s ∧ s.nodes.get? 0=some node ∧ node.paysOut=some piggyBank ∧
    w.bank "manager/21" "rune"=10025 ∧
    Dispatch.Steps (town.machine.recording (arrivals "manager/21" 0 ["rune"])) (closedCircle "manager/21").recording
      (Dispatch.Config.record ⟨w,⟨w₀,p₀,out⟩ :: fs⟩ []) c ∧
    c.world.2=some l ∧ Dispatch.pending c.frames=[] ∧
    (l.map fun q => q.inflow "piggy" "rune").sum=10024 ∧ ¬Distribution.Share 10025 10000 10025 0 10024 ∧
    (l.map fun q => q.inflow "fees" "rune").sum=1 ∧ ¬Distribution.Share 10025 25 10025 1 1 := by
  have hsound : greedyTown.Sound town.machine (closedCircle "manager/21") :=
    player_sound townsfolk_outside (fun h => by simpa [closedCircle] using h) fun h => h
  have hrun : greedySighting=some ⟨.process .execute none,[],piggyBank,10025,[],10024,1⟩ := by decide +kernel
  obtain ⟨⟨w,frames⟩,hstart,hrun⟩ := Option.bind_eq_some_iff.mp hrun
  obtain ⟨f,hf,hrun⟩ := Option.bind_eq_some_iff.mp hrun
  obtain ⟨c,hend,hrun⟩ := Option.bind_eq_some_iff.mp hrun
  obtain ⟨l,hl,hrun⟩ := Option.bind_eq_some_iff.mp hrun
  obtain ⟨call,hcall,hrun⟩ := Option.bind_eq_some_iff.mp hrun
  obtain ⟨s,hs,hrun⟩ := Option.bind_eq_some_iff.mp hrun
  obtain ⟨node,hnode,hrun⟩ := Option.bind_eq_some_iff.mp hrun
  obtain ⟨d,hd,hrun⟩ := Option.bind_eq_some_iff.mp hrun
  obtain ⟨rfl,hbeside,rfl,hbank,hrest,hpiggy,hfees⟩ := Sighting.mk.inj (Option.some.inj hrun)
  cases frames with
  | nil => cases hf
  | cons g fs =>
    obtain ⟨w₀,p₀,out⟩ := g
    obtain rfl := Option.some.inj hf
    obtain ⟨c₁,h₁,hplay⟩ := Option.bind_eq_some_iff.mp hstart
    have hreach := hsound.reaches (hsound.start .start (alice_outside _) h₁) hplay
    exact ⟨w₀,p₀,w,out,fs,c,l,s,node,hreach,hcall,by simp [show Dispatch.pending fs=[] from hbeside],hs,hnode,hd,hbank,
      (hsound.recording _).play hend,hl,hrest,hpiggy,fun h => absurd h.atMost (by decide),hfees,
      fun h => absurd h.atLeast (by decide)⟩

/-- Here the contract is paid last. -/
def piggyLast : Distribution := ⟨["rune"],[⟨25,.bank "fees",some "CALC",none⟩,⟨10000,.contract "piggy" [],none,none⟩]⟩

def savingNodes : List Node := [.action (.distribute piggyLast) 0 none]

/-- An active strategy of that piggy bank, about to be executed. -/
def saving : World :=
  { hoard with
    manager := ⟨⟨"fees",1⟩,1,Table.empty.insert "manager/21" ⟨1,none,"owner","manager/21",0,0,"savings",.active⟩⟩
    strategies := fun a => if a="manager/21" then some (StrategyContract.holding savingNodes) else none }

def savingCall : Packet := ⟨"manager/21",callSelf ⟨⟨1,⟨1⟩⟩,"manager/21"⟩ (.process .execute none)⟩

/-- What the manager sends when it is told to execute the strategy. -/
def knock : Packet := ⟨"manager",⟨.wasmExecute "manager/21" (.strategy .execute) [],.never,0⟩⟩

/-- The greedy town, where the strategy may be called again only once it is empty. -/
def savingTown : Dispatch.Player World Packet :=
  town.player ⟨1,⟨1⟩⟩ (townsfolk greed) fun w p _ => p.inflow "manager/21" "rune"=0 &&
    (p.sender="manager/21" || (p.calls "manager/21").isNone || w.bank "manager/21" "rune"=0)

/-- The contract has the strategy executed again as soon as it is paid, and everybody keeps his share. -/
theorem shares_kept_reentered : ∃ w out c₁ c l f g fs, town.Delivers saving savingCall w out ∧
    Dispatch.Steps (town.machine.recording (arrivals "manager/21" 0 ["rune"]))
      (undisturbed "manager/21" 0 ["rune"] True).recording (Dispatch.Config.record ⟨w,[⟨saving,savingCall,out⟩]⟩ []) c₁ ∧
    c₁.frames=f :: g :: fs ∧ f.packet=savingCall ∧ g.packet=knock ∧
    Dispatch.Steps (town.machine.recording (arrivals "manager/21" 0 ["rune"]))
      (undisturbed "manager/21" 0 ["rune"] True).recording c₁ c ∧ Dispatch.pending c.frames=[] ∧
    c.world.2=some l ∧ l.length=2 ∧ ∃ due, piggyLast.PaysShares (w.bank "manager/21") due ∧
      List.Forall₂ (fun p q => p.1.recipient.PaidBy p.2 q.sub.msg) (due.filter fun p => p.2≠[]) l := by
  have hsound : savingTown.Sound town.machine (undisturbed "manager/21" 0 ["rune"] True) := by
    refine player_sound townsfolk_outside (fun {w p ps} h => ?_) fun h _ _ => h
    simp only [Bool.and_eq_true,decide_eq_true_eq,Bool.or_eq_true,Option.isNone_iff_eq_none] at h
    obtain ⟨hinflow,hcalls⟩ := h
    intro x hx
    obtain rfl := List.mem_singleton.mp hx
    refine ⟨hinflow,fun hs msg hm _ => ?_⟩
    rcases hcalls with (hself | hnone) | hzero
    · exact absurd hself hs
    · rw [hnone] at hm
      cases hm
    · exact hzero
  have hrun : ((town.deliver ⟨1,⟨1⟩⟩ (townsfolk greed) saving savingCall).bind fun r =>
      ((savingTown.recording (arrivals "manager/21" 0 ["rune"])).play 6
        (Dispatch.Config.record ⟨r.1,[⟨saving,savingCall,r.2⟩]⟩ [])).bind fun c₁ =>
      ((savingTown.recording (arrivals "manager/21" 0 ["rune"])).play 6 c₁).bind fun c => c.world.2.map fun l =>
        (r.2.map fun q => (q.sub.replyOn,q.sub.id),(c₁.frames.take 2).map fun f => f.packet,
          Dispatch.pending c.frames,l.length))=
      some ([(.always,0),(.always,0),(.never,0)],[savingCall,knock],[],2) := by decide +kernel
  obtain ⟨⟨w,out⟩,hdeliver,hrun⟩ := Option.bind_eq_some_iff.mp hrun
  obtain ⟨c₁,hfirst,hrun⟩ := Option.bind_eq_some_iff.mp hrun
  obtain ⟨c,hplay,hrun⟩ := Option.bind_eq_some_iff.mp hrun
  obtain ⟨l,hl,hrun⟩ := Option.map_eq_some_iff.mp hrun
  simp only [Prod.mk.injEq] at hrun
  obtain ⟨hout,hback,hdone,hlen⟩ := hrun
  have hd := deliver_delivers townsfolk_outside hdeliver
  have hsteps := (hsound.recording _).play hfirst
  have hrest := (hsound.recording _).play hplay
  have hreach : ∃ q ∈ out, q.sub.replyOn=.always ∧ q.sub.id=0 := by
    cases out with
    | nil => cases hout
    | cons q out => simp only [List.map_cons,List.cons.injEq,Prod.mk.injEq] at hout; exact ⟨q,by simp,hout.1⟩
  have hone : ∀ i node, (StrategyContract.holding savingNodes).nodes.get? i=some node → node.distributes=true → i=0 := by
    intro i node hi _
    have hi : savingNodes[i]?=some node := (Table.get?_ofList _ _).symm.trans hi
    obtain ⟨hlt,_⟩ := List.getElem?_eq_some_iff.mp hi
    exact Nat.lt_one_iff.mp hlt
  obtain ⟨due,hdue,arrived,_,hfor,hall⟩ := shares_kept (d := piggyLast) ⟨by decide,by decide,0,21,rfl⟩
    (show saving.strategies "manager/21"=some (StrategyContract.holding savingNodes) from rfl)
    (StrategyContract.holding_history savingNodes (by decide)) rfl hone hd rfl hreach (by simp [Dispatch.pending])
    (hsteps.trans hrest) hl
  have harr := hall trivial (by simp [hdone])
  obtain ⟨f,g,fs,hframes⟩ : ∃ f g fs, c₁.frames=f :: g :: fs := by
    rcases hf : c₁.frames with _ | ⟨f,_ | ⟨g,fs⟩⟩
    · simp [hf] at hback
    · simp [hf] at hback
    · exact ⟨f,g,fs,rfl⟩
  simp only [hframes,List.take_succ_cons,List.take_zero,List.map_cons,List.map_nil,List.cons.injEq,and_true] at hback
  exact ⟨w,out,c₁,c,l,f,g,fs,hd,hsteps,hframes,hback.1,hback.2,hrest,hdone,hl,hlen,due,hdue,harr ▸ hfor⟩

end Site
end CalcRs
