import CalcRs.Foundation.Budget
import CalcRs.Runs.Ahead
import CalcRs.System.Status

/-! How often a strategy can set itself going again, by messages to itself or through the manager. No check of the
node list prevents it; but every such message brings funds, these are recorded, and the record has only so much room. -/
namespace CalcRs

/-- What a message asks a strategy for. -/
inductive Errand where
  | idle
  | cancel (previous : Option ℕ)
  | run (previous : Option ℕ)
  | init
  | update
  deriving DecidableEq

namespace Errand

/-- It leads to a new node list. -/
def replaces : Errand → Bool
  | .init => true
  | .update => true
  | _ => false

/-- More than the messages of one node and the call that goes on, together with one node. -/
def base : ℕ := MAX_STRATEGY_SIZE+2

/-- The steps of one level: a run of `MAX_STRATEGY_SIZE` nodes from the start. -/
def span : ℕ := MAX_STRATEGY_SIZE+1

/-- What it is worth at a level: a power of the base for each node ahead, and for each level below. Errands that
bring funds are carried out one level below. -/
noncomputable def worth (errand : Errand) (leads : ℕ → ℕ → Prop) (level : ℕ) (funded : Bool) : ℕ :=
  match errand with
  | .idle => 0
  | .cancel previous => StrategyOperation.cancel.aheadOf leads previous
  | .run previous => base^(level*span+1+if funded then 0 else StrategyOperation.execute.aheadOf leads previous)
  | .init => base^(level*span+1)
  | .update => base^(level*span+1+if funded then 0 else 1)

variable {errand : Errand} {leads leads' : ℕ → ℕ → Prop} {level level' : ℕ} {funded : Bool}

theorem worth_init : Errand.init.worth leads level funded=base^(level*span+1) := rfl

theorem worth_run_funded {previous : Option ℕ} : (Errand.run previous).worth leads level true=base^(level*span+1) := by
  simp only [worth,if_true,Nat.add_zero]

theorem base_pos : 0<base := Nat.succ_pos _

theorem pow_le_pow {k k' : ℕ} (h : k ≤ k') : base^k ≤ base^k' := Nat.pow_le_pow_right base_pos h

theorem levels {level level' : ℕ} (h : level'<level) : level'*span+span ≤ level*span := by
  have := Nat.mul_le_mul_right span (Nat.succ_le_of_lt h)
  rwa [Nat.succ_mul] at this

/-- A lower level is worth less, whatever the nodes. -/
theorem worth_lt (h : level'<level) : errand.worth leads' level' funded ≤ errand.worth leads level funded := by
  have hlevels := levels h
  cases errand with
  | idle => exact le_rfl
  | cancel previous => cases previous <;> exact le_rfl
  | run previous =>
    apply pow_le_pow
    have hle : StrategyOperation.execute.aheadOf leads' previous ≤ MAX_STRATEGY_SIZE+1 := StrategyOperation.aheadOf_le
    have hspan : span=MAX_STRATEGY_SIZE+1 := rfl
    split_ifs <;> omega
  | init =>
    apply pow_le_pow
    omega
  | update =>
    apply pow_le_pow
    omega

theorem worth_le (h : level' ≤ level) : errand.worth leads level' funded ≤ errand.worth leads level funded := by
  rcases h.lt_or_eq with hlt | rfl
  · exact worth_lt hlt
  · exact le_rfl

theorem cancel_worth_le {previous : Option ℕ} : (Errand.cancel previous).worth leads level funded<base :=
  Nat.lt_succ_of_le StrategyOperation.aheadOf_le

/-- Whatever brings funds is worth no more than this. -/
theorem funded_worth_le : errand.worth leads level true ≤ base^(level*span+1) := by
  cases errand with
  | idle => exact Nat.zero_le _
  | cancel previous =>
    refine cancel_worth_le.le.trans ?_
    exact (Nat.pow_one base).symm.le.trans (pow_le_pow (Nat.le_add_left _ _))
  | run previous => exact le_rfl
  | init => exact le_rfl
  | update => exact le_rfl

/-- A node and its messages are paid for by the step down from it. -/
theorem spends_le {k h h' n m : ℕ} (hn : 1 ≤ n) (hle : n+h' ≤ h) (hm : m ≤ MAX_STRATEGY_SIZE) :
    n+(m*base^k+base^(k+h')) ≤ base^(k+h) := by
  have hpow : n*base ≤ base^n := by
    obtain ⟨i,rfl⟩ := Nat.exists_eq_add_of_le hn
    rw [Nat.add_comm 1,Nat.pow_succ]
    exact Nat.mul_le_mul_right _ (Nat.lt_pow_self (by decide : 1<base))
  have hx : 1 ≤ base^k := Nat.one_le_pow _ _ base_pos
  have hy : 1 ≤ base^h' := Nat.one_le_pow _ _ base_pos
  have hxy : base^k ≤ base^k*base^h' := Nat.le_mul_of_pos_right _ hy
  have hnxy : n*1 ≤ n*(base^k*base^h') := Nat.mul_le_mul_left _ (hx.trans hxy)
  have h1xy : 1*(base^k*base^h') ≤ n*(base^k*base^h') := Nat.mul_le_mul_right _ hn
  calc n+(m*base^k+base^(k+h'))
      ≤ n*(base^k*base^h')+(MAX_STRATEGY_SIZE*(n*(base^k*base^h'))+n*(base^k*base^h')) := by
        rw [Nat.pow_add]
        have := Nat.mul_le_mul hm (hxy.trans (by simpa using h1xy))
        omega
    _ = base^k*base^h'*(n*base) := by
        rw [show base=MAX_STRATEGY_SIZE+2 from rfl]
        ring
    _ ≤ base^k*base^h'*base^n := Nat.mul_le_mul_left _ hpow
    _ ≤ base^(k+h) := by
        rw [← Nat.pow_add,← Nat.pow_add]
        exact pow_le_pow (by omega)

/-- A run from the start is paid for by the level above. -/
theorem start_le (h : level'<level) : (Errand.run none).worth leads' level' false ≤ base^(level*span+1) := by
  have := levels h
  exact pow_le_pow (by simp only [StrategyOperation.aheadOf,Bool.false_eq_true,if_false]; rw [span] at *; omega)

/-- A call that executes nodes is paid for, with the messages of the last one and the call that goes on. -/
theorem run_pays {n m q : ℕ} {previous : Option ℕ} (hlevel : level'+(if funded then 1 else 0) ≤ level) (hn : 1 ≤ n)
    (hreach : n+StrategyOperation.execute.ahead leads q ≤ StrategyOperation.execute.aheadOf leads previous)
    (hm : m ≤ MAX_STRATEGY_SIZE) :
    n+(m*base^(level'*span+1)+(Errand.run (some q)).worth leads level' false) ≤
      (Errand.run previous).worth leads level funded := by
  have hle : StrategyOperation.execute.aheadOf leads previous ≤ MAX_STRATEGY_SIZE+1 := StrategyOperation.aheadOf_le
  refine (spends_le hn hreach hm).trans (pow_le_pow ?_)
  cases funded with
  | true =>
    have hlevels := levels (Nat.lt_of_succ_le hlevel)
    simp only [if_true]
    rw [span] at *
    omega
  | false =>
    have := Nat.mul_le_mul_right span (show level' ≤ level from hlevel)
    simp only [Bool.false_eq_true,if_false]
    omega

/-- An update is paid for, with the run that cancels what is there and the new list. -/
theorem update_pays (hlevel : level'+(if funded then 1 else 0) ≤ level) :
    (Errand.cancel none).worth leads level' false+Errand.init.worth leads level' false ≤
      Errand.update.worth leads' level funded := by
  have hstep : (Errand.cancel none).worth leads level' false+base^(level'*span+1) ≤ base^(level'*span+1+1) := by
    have hcancel : (Errand.cancel none).worth leads level' false<base := cancel_worth_le
    have hone : 1 ≤ base^(level'*span+1) := Nat.one_le_pow _ _ base_pos
    have hbase : base=(base-1)+1 := rfl
    have := Nat.mul_le_mul_right (base-1) hone
    rw [Nat.pow_succ _ (level'*span+1)]
    nth_rewrite 3 [hbase]
    rw [Nat.mul_add,Nat.mul_one,Nat.mul_comm _ (base-1)]
    rw [Nat.one_mul,Nat.mul_comm _ (base-1)] at this
    omega
  refine hstep.trans (pow_le_pow ?_)
  cases funded with
  | true =>
    have hlevels := levels (Nat.lt_of_succ_le hlevel)
    simp only [if_true]
    rw [span] at *
    omega
  | false =>
    have := Nat.mul_le_mul_right span (show level' ≤ level from hlevel)
    simp only [Bool.false_eq_true,if_false]
    omega

/-- A run in `Execute` mode is worth more than one that cancels. -/
theorem cancel_le_run {previous previous' : Option ℕ} :
    (Errand.cancel previous).worth leads level funded ≤ (Errand.run previous').worth leads level funded := by
  have hbase : base ≤ (Errand.run previous').worth leads level funded :=
    (Nat.pow_one base).symm.le.trans (pow_le_pow (by omega))
  exact cancel_worth_le.le.trans hbase

/-- The last call of a run is paid for. -/
theorem run_ends {n : ℕ} {previous : Option ℕ} (h : n ≤ StrategyOperation.execute.aheadOf leads previous) :
    n ≤ (Errand.run previous).worth leads level funded := by
  cases funded with
  | true =>
    have hle : StrategyOperation.execute.aheadOf leads previous ≤ MAX_STRATEGY_SIZE+1 := StrategyOperation.aheadOf_le
    have hbase : n ≤ base^1 := by
      rw [Nat.pow_one,base]
      omega
    exact hbase.trans (pow_le_pow (Nat.le_add_left _ _))
  | false => exact (Nat.lt_pow_self (by decide : 1<base)).le.trans (pow_le_pow (h.trans (Nat.le_add_left _ _)))

end Errand

/-- The message brings funds. -/
def Packet.funded (p : Packet) : Bool := p.funds.any fun c => c.amount≠0

theorem Packet.funded_iff {p : Packet} : p.funded=true ↔ ∃ x, amountIn x p.funds≠0 := by
  unfold Packet.funded
  induction p.funds with
  | nil => simp
  | cons c cs ih =>
    rw [List.any_cons,Bool.or_eq_true,ih,decide_eq_true_eq]
    constructor
    · rintro (hc | ⟨x,hx⟩)
      · exact ⟨c.denom,by rw [amountIn_cons,if_pos rfl]; omega⟩
      · exact ⟨x,by rw [amountIn_cons]; omega⟩
    · rintro ⟨x,hx⟩
      by_cases hc : c.amount=0
      · refine .inr ⟨x,?_⟩
        rw [amountIn_cons,hc,ite_self,Nat.zero_add] at hx
        exact hx
      · exact .inl hc

namespace StrategyContract

theorem processResponse_ended {env : Env} {operation : StrategyOperation}
    {progress : Progress} (h : progress.next=none) :
    (processResponse env operation progress).messages=[] := by
  cases progress with
  | finished path => rfl
  | messages i ms q => cases h
  | failed i e => cases h

end StrategyContract

namespace Site

variable {a : Addr} {w : World} {env : Env} {msg : StrategyExecuteMsg}

/-- The edges between the stored nodes of a strategy. -/
def leads (a : Addr) (w : World) (i j : ℕ) : Prop := ∃ s, w.strategies a=some s ∧ Leads s.nodes i j

theorem funded_callSelf {env : Env} {msg : StrategyExecuteMsg} {sender : Addr} :
    Packet.funded ⟨sender,callSelf env msg⟩=false := rfl

theorem leads_eq {s : StrategyStorage} (h : w.strategies a=some s) : leads a w=Leads s.nodes := by
  funext i j
  simp [leads,h]

theorem emitted_funded {subs : List SubMsg} (h : ∀ sub ∈ subs, ∃ x, amountIn x sub.msg.funds≠0) :
    ∀ x ∈ subs.map (Packet.mk env.contract), x.funded=true := fun x hx => by
  obtain ⟨sub,hsub,rfl⟩ := List.mem_map.mp hx
  exact Packet.funded_iff.mpr (h sub hsub)

end Site

section

variable [Crates]

def StrategyExecuteMsg.errand : StrategyExecuteMsg → Errand
  | .init _ => .init
  | .execute => .run none
  | .withdraw _ => .idle
  | .update _ => .update
  | .cancel => .cancel none
  | .process .execute previous => .run previous
  | .process .cancel previous => .cancel previous

/-- What a call of the manager makes it ask the strategy for, at most. -/
def ManagerExecuteMsg.errand : ManagerExecuteMsg → Errand
  | .execute _ => .run none
  | .updateStatus _ _ => .run none
  | .update _ _ => .update
  | _ => .idle

namespace StrategyContract

/-- How many nodes a call runs. -/
def executions (gas : ℕ) (deps : Deps) (env : Env) (info : MessageInfo) (storage : StrategyStorage) :
    StrategyExecuteMsg → Outcome ℕ
  | .process operation previous => do
    let storage ← deposit storage info
    let result ← process gas deps env storage operation previous
    return result.executed.length
  | _ => return 0

variable {gas n : ℕ} {deps : Deps} {env : Env} {info : MessageInfo} {s s' : StrategyStorage} {response : StrategyResponse}
  {operation : StrategyOperation} {previous : Option ℕ}

theorem execute_executions (he : execute gas deps env info s (.process operation previous)=.ok (s',response))
    (hn : executions gas deps env info s (.process operation previous)=.ok n) : info.sender=env.contract ∧ ∃ r deposits,
      process gas deps env { s with deposits := deposits } operation previous=.ok r ∧ s'.nodes=r.nodes ∧
      response.messages=(processResponse env operation r.progress).messages ∧ n=r.executed.length := by
  obtain ⟨s₁,hd,he⟩ := Except.bind_eq_ok.mp he
  obtain ⟨s₂,hd₂,hn⟩ := Except.bind_eq_ok.mp hn
  obtain rfl := Except.ok.inj (hd.symm.trans hd₂)
  obtain ⟨deposits,rfl⟩ := deposit_eq_ok hd
  obtain ⟨r,hp,hn⟩ := Except.bind_eq_ok.mp hn
  cases dispatch_eq_ok he with
  | process hs hp₁ =>
    obtain rfl := Except.ok.inj (hp.symm.trans hp₁)
    exact ⟨hs,r,deposits,hp,rfl,rfl,(Except.ok.inj hn).symm⟩

/-- A call that succeeds has run some number of nodes. -/
theorem executions_total {msg : StrategyExecuteMsg} (h : execute gas deps env info s msg=.ok (s',response)) :
    ∃ n, executions gas deps env info s msg=.ok n := by
  cases msg with
  | process operation previous =>
    obtain ⟨s₁,hd,h⟩ := Except.bind_eq_ok.mp h
    cases dispatch_eq_ok h with
    | @process _ _ r _ hp =>
      refine ⟨r.executed.length,?_⟩
      rw [executions,hd,Except.ok_bind,hp]
      rfl
  | _ => exact ⟨0,rfl⟩

/-- The messages of a node: none for a contract of the site, or the payments of an execution. -/
def Emitted (operation : StrategyOperation) (subs : List SubMsg) : Prop :=
  (∀ sub ∈ subs, sub.msg.Foreign) ∨ operation=.execute ∧ subs.length ≤ MAX_STRATEGY_SIZE ∧
    ∀ sub ∈ subs, ∃ x, amountIn x sub.msg.funds≠0

/-- A call that does not end the run has executed a node. It sends the messages of that node, and the call that goes
on. -/
theorem process_emits {r : Processed} {q : ℕ} (h : process gas deps env s operation previous=.ok r) (hsane : Sane s.nodes)
    (hw : ∀ k node, s.nodes.get? k=some node → node.width ≤ MAX_STRATEGY_SIZE) (hq : r.progress.next=some q) :
    1 ≤ r.executed.length ∧
      ∃ subs, (processResponse env operation r.progress).messages=subs ++ [callSelf env (.process operation (some q))] ∧
        Emitted operation subs := by
  have hsave : ∀ nodes node node', (Sane nodes ∧ ∀ k n, nodes.get? k=some n → n.width ≤ MAX_STRATEGY_SIZE) →
      nodes.get? node.index=some node → Stage node node' → Sane (NodeStore.save nodes node') ∧
        ∀ k n, (NodeStore.save nodes node').get? k=some n → n.width ≤ MAX_STRATEGY_SIZE := by
    intro nodes node node' hi hn hst
    refine ⟨NodeStore.sane_save hi.1 hn hst.wiring,fun k n hk => ?_⟩
    rw [NodeStore.get?_save] at hk
    split_ifs at hk
    · exact Option.some.inj hk ▸ hst.width.trans (hi.2 _ _ hn)
    · exact hi.2 k n hk
  obtain ⟨hends,_⟩ := process_invariant (fun _ hi => hi.1)
    (fun nodes node node' hi hn hr => hsave nodes node node' hi hn (.run operation deps env [] hr))
    (fun _ => ⟨hsane,hw⟩) (fun p node node' _ hk hc => ⟨hsane,hsave _ node node' ⟨hsane,hw⟩
      (by rw [hsane.index p node hk]; exact hk) (.commit deps env hc)⟩) h
  unfold Ends at hends
  cases hp : r.progress with
  | finished path => simp [hp,Progress.next] at hq
  | failed i e =>
    simp only [hp] at hends
    obtain ⟨_,node,_,_,_,hlast⟩ := hends
    obtain rfl : i=q := by simpa [hp,Progress.next] using hq
    exact ⟨List.length_pos_of_mem (List.mem_of_getLast? hlast),[],rfl,.inl (by simp)⟩
  | messages i ms previous =>
    simp only [hp] at hends
    obtain ⟨nodes,node,node',⟨_,hwidth⟩,hn,_,hr,_,_,_,hlast⟩ := hends
    obtain rfl : previous=q := by simpa [hp,Progress.next] using hq
    refine ⟨List.length_pos_of_mem (List.mem_of_getLast? hlast),_,rfl,?_⟩
    have hwide := hwidth i node hn
    cases operation with
    | cancel =>
      refine .inl fun sub hsub => ?_
      obtain ⟨m,hm,rfl⟩ := List.mem_map.mp hsub
      exact (Node.cancel_foreign hr m hm).2
    | execute =>
      cases hd : node.distributes with
      | false =>
        refine .inl fun sub hsub => ?_
        obtain ⟨m,hm,rfl⟩ := List.mem_map.mp hsub
        exact Node.execute_foreign hr hd m hm
      | true =>
        cases node with
        | condition c i s f => cases hd
        | action a i next =>
          cases a with
          | distribute d =>
            obtain ⟨hlen,hfunded⟩ := Node.execute_funded hr
            refine .inr ⟨rfl,by rw [List.length_map]; exact hlen.trans hwide,fun sub hsub => ?_⟩
            obtain ⟨m,hm,rfl⟩ := List.mem_map.mp hsub
            exact hfunded m hm
          | swap s => cases hd
          | limitOrder o => cases hd

end StrategyContract

namespace Site

/-- What a message of the strategy or of its manager asks for. -/
def errand (site : Site) (a : Addr) (p : Packet) : Errand :=
  if p.sender=a ∨ p.sender=site.manager then
    match p.calls a,site.toManager p with
    | some msg,_ => msg.errand
    | none,some msg => msg.errand
    | none,none => .idle
  else .idle

/-- How many new node lists messages without funds will install. -/
def lists (site : Site) (a : Addr) (ps : List Packet) : ℕ :=
  ps.countP fun p => (site.errand a p).replaces && !p.funded

/-- Two levels for each unit that may still be deposited: one is for the funds, one for a list that comes with them. -/
def level (site : Site) (a : Addr) (denoms : Finset Denom) (w : World) (ps : List Packet) : ℕ :=
  2*((w.strategies a).map (StrategyContract.room denoms)).getD 0+site.lists a ps

noncomputable def worth (site : Site) (a : Addr) (denoms : Finset Denom) (w : World) (ps : List Packet) (p : Packet) : ℕ :=
  (site.errand a p).worth (leads a w) (site.level a denoms w ps) p.funded

/-- The delivery runs `n` nodes of the strategy. -/
inductive Executes (site : Site) (a : Addr) (w : World) (p : Packet) (w' : World) (out : List Packet) : ℕ → Prop
  | past : p.calls a=none → Executes site a w p w' out 0
  | call {gas n : ℕ} {deps : Deps} {env : Env} {msg : StrategyExecuteMsg} {s s' : StrategyStorage}
      {response : StrategyResponse} : p.calls a=some msg → w.strategies a=some s → (w.charge p).Answers site deps →
      env.contract=a → StrategyContract.execute gas deps env ⟨p.sender,p.funds⟩ s msg=.ok (s',response) →
      w'={ w.charge p with strategies := Function.update w.strategies a (some s') } →
      out=response.messages.map (Packet.mk a) →
      StrategyContract.executions gas deps env ⟨p.sender,p.funds⟩ s msg=.ok n → Executes site a w p w' out n

/-- Only the strategy and the manager send messages to the strategy or to the manager. -/
def unaided (site : Site) (a : Addr) : Dispatch.Conduct World Packet where
  calls _ p _ := p.sender≠a → p.sender≠site.manager → p.calls a=none ∧ site.toManager p=none
  fails _ _ := True

/-- Every strategy belongs to the manager and has a history, and no funds are in other denoms. -/
structure Settled (site : Site) (denoms : Finset Denom) (w : World) : Prop where
  home : ∀ b s, w.strategies b=some s → site.Strategy b ∧ s.manager=site.manager ∧
    ∃ lists, StrategyContract.History s lists
  bank : ∀ b x, x ∉ denoms → w.bank b x=0

variable {site : Site} {a : Addr} {denoms : Finset Denom} {w w' : World} {p q : Packet} {ps ps' out : List Packet}

theorem errand_idle (h : p.calls a=none) (h' : site.toManager p=none) : site.errand a p=.idle := by
  simp [errand,h,h']

theorem errand_other (h : p.sender≠a) (h' : p.sender≠site.manager) : site.errand a p=.idle := by
  simp [errand,h,h']

theorem errand_calls {msg : StrategyExecuteMsg} (h : p.sender=a ∨ p.sender=site.manager) (hc : p.calls a=some msg) :
    site.errand a p=msg.errand := by simp [errand,h,hc]

theorem errand_foreign {sender : Addr} {sub : SubMsg} (h : sub.msg.Foreign) : site.errand a ⟨sender,sub⟩=.idle := by
  refine errand_idle (h.strategyCall a) ?_
  unfold toManager
  cases hm : sub.msg with
  | wasmExecute target body funds => simp [(h target body funds hm).2]
  | _ => rfl

theorem errand_callSelf {env : Env} {msg : StrategyExecuteMsg} :
    site.errand env.contract ⟨env.contract,callSelf env msg⟩=msg.errand := by
  simp [errand,callSelf,Packet.calls,CosmosMsg.strategyCall,Body.toStrategy]

theorem errand_callStrategy {target : Addr} {msg : StrategyExecuteMsg} {funds : List Coin} :
    site.errand a ⟨site.manager,ManagerContract.callStrategy target msg funds⟩=if target=a then msg.errand else .idle := by
  by_cases h : target=a
  · simp [errand,ManagerContract.callStrategy,Packet.calls,CosmosMsg.strategyCall,Body.toStrategy,h]
  · simp [errand,ManagerContract.callStrategy,Packet.calls,CosmosMsg.strategyCall,toManager,Body.toManager,h]

theorem worth_idle (h : site.errand a q=.idle) : site.worth a denoms w ps q=0 := by
  rw [worth,h]
  rfl

theorem lists_append : site.lists a (out ++ ps)=site.lists a out+site.lists a ps := List.countP_append ..

theorem lists_cons : site.lists a (p :: ps)=
    site.lists a ps+if (site.errand a p).replaces && !p.funded then 1 else 0 := List.countP_cons ..

theorem lists_eq_zero (h : ∀ q ∈ out, (site.errand a q).replaces=false ∨ q.funded=true) : site.lists a out=0 := by
  apply List.countP_eq_zero.mpr
  intro q hq
  rcases h q hq with h | h <;> simp [h]

/-- At a lower level, or with the same nodes, nothing is worth more. -/
theorem worth_mono (hle : site.level a denoms w' ps' ≤ site.level a denoms w ps)
    (h : site.level a denoms w' ps' < site.level a denoms w ps ∨ leads a w'=leads a w) (q : Packet) :
    site.worth a denoms w' ps' q ≤ site.worth a denoms w ps q := by
  rcases h with h | h
  · exact Errand.worth_lt h
  · rw [worth,worth,h]
    exact Errand.worth_le hle

/-! ### Deliveries -/

theorem Settled.vacant (h : site.Settled denoms w) : w.strategies site.manager=none := by
  by_contra hne
  obtain ⟨s,hs⟩ := Option.ne_none_iff_exists'.mp hne
  exact (h.home _ s hs).1.1 rfl

/-- The funds of a message are in the denoms of the bank. -/
theorem Settled.funds (h : site.Settled denoms w) (hc : w.Covers p) (hf : p.funded=true) :
    ∃ x ∈ denoms, amountIn x p.funds≠0 := by
  obtain ⟨x,hx⟩ := Packet.funded_iff.mp hf
  refine ⟨x,by_contra fun hmem => hx ?_,hx⟩
  have := hc x
  rw [h.bank _ x hmem] at this
  exact Nat.eq_zero_of_le_zero this

theorem Settled.charge (h : site.Settled denoms w) (hc : w.Covers p) (b : Addr) {x : Denom} (hx : x ∉ denoms) :
    (w.charge p).bank b x=0 := by
  have hzero : amountIn x p.funds=0 := by
    have := hc x
    rw [h.bank _ x hx] at this
    exact Nat.eq_zero_of_le_zero this
  have hbank := World.bank_charge hc b x
  have hin : p.inflow b x=0 := by
    unfold Packet.inflow
    split_ifs
    · exact hzero
    · rfl
  rw [h.bank b x hx,hin] at hbank
  omega

theorem Settled.deliver (h : site.Settled denoms w) (hd : site.Delivers w p w' out) : site.Settled denoms w' := by
  have hbank : ∀ b x, x ∉ denoms → w'.bank b x=0 := fun b x hx => by
    rw [hd.bank.2]
    exact h.charge hd.bank.1 b hx
  refine ⟨?_,hbank⟩
  cases hd with
  | send _ _ => exact h.home
  | deposit _ _ => exact h.home
  | manager _ _ _ _ _ _ => exact h.home
  | scheduler _ _ _ _ _ _ => exact h.home
  | outside _ _ _ _ => exact h.home
  | @strategy target _ _ msg _ _ _ _ s' _ _ _ hs _ _ _ he =>
    intro b t hb
    by_cases hbt : b=target
    · subst hbt
      obtain ⟨hat,hman,lists,hh⟩ := h.home b _ hs
      obtain rfl : s'=t := by simpa using hb
      refine ⟨hat,(StrategyContract.execute_sends he).1.trans hman,?_⟩
      cases msg with
      | init nodes => exact ⟨_,hh.init he⟩
      | _ => exact ⟨_,hh.call (by simp) he⟩
    · exact h.home b t (by simpa [Function.update_of_ne hbt] using hb)
  | @instantiate _ codeId _ salt _ _ env s _ _ hsender _ henv hm hsch _ hi =>
    intro b t hb
    by_cases hbt : b=env.contract
    · subst hbt
      obtain rfl : s=t := by simpa using hb
      have hman : s.manager=site.manager := by rw [(StrategyContract.instantiate_eq_ok hi).1,hsender]
      exact ⟨⟨hm,hsch,codeId,salt,henv⟩,hman,_,.instantiate hi⟩
    · exact h.home b t (by simpa [Function.update_of_ne hbt] using hb)

/-- A delivery that calls the manager is a run of its `execute`. -/
theorem Delivers.to_manager (h : site.Delivers w p w' out) (hv : w.strategies site.manager=none) {msg : ManagerExecuteMsg}
    (hc : site.toManager p=some msg) : ∃ deps env storage response,
      ManagerContract.execute deps env ⟨p.sender,p.funds⟩ w.manager msg=.ok (storage,response) ∧
      w'={ w.charge p with manager := storage } ∧ out=response.messages.map (Packet.mk site.manager) := by
  obtain ⟨body,funds,hmsg,hbody⟩ : ∃ body funds, p.sub.msg=.wasmExecute site.manager body funds ∧
      body.toManager=some msg := by
    unfold toManager at hc
    split at hc
    · split_ifs at hc with ht
      subst ht
      exact ⟨_,_,by assumption,hc⟩
    · cases hc
  have hfunds : p.funds=funds := by simp [Packet.funds,hmsg,CosmosMsg.funds]
  cases h with
  | send h _ => simp [hmsg] at h
  | deposit h _ => simp [hmsg] at h
  | manager h _ hbody' _ _ he =>
    simp only [hmsg,CosmosMsg.wasmExecute.injEq] at h
    obtain ⟨_,rfl,rfl⟩ := h
    obtain rfl := Option.some.inj (hbody.symm.trans hbody')
    exact ⟨_,_,_,_,hfunds ▸ he,rfl,rfl⟩
  | scheduler h _ _ _ _ _ =>
    simp only [hmsg,CosmosMsg.wasmExecute.injEq] at h
    exact absurd h.1 site.distinct
  | strategy h _ hs _ _ _ _ =>
    simp only [hmsg,CosmosMsg.wasmExecute.injEq] at h
    simp [← h.1,hv] at hs
  | instantiate h _ _ _ _ _ _ _ => simp [hmsg] at h
  | outside h ho _ _ =>
    rw [Packet.receiver,hmsg] at h
    exact absurd (Option.some.inj h).symm ho.1

/-- Nothing else makes the manager send anything. -/
theorem Delivers.past_manager (h : site.Delivers w p w' out) (hv : w.strategies site.manager=none)
    (hc : site.toManager p=none) : ∀ q ∈ out, q.sender≠site.manager := by
  cases h with
  | send _ _ => simp
  | deposit _ _ => simp
  | manager hm _ hbody _ _ _ => simp [toManager,hm,hbody] at hc
  | scheduler _ _ _ _ _ _ =>
    intro q hq
    obtain ⟨_,_,rfl⟩ := List.mem_map.mp hq
    exact site.distinct.symm
  | @strategy target _ _ _ _ _ _ _ _ _ _ _ hs _ _ _ _ =>
    intro q hq
    obtain ⟨_,_,rfl⟩ := List.mem_map.mp hq
    exact fun he => by simp [show target=site.manager from he,hv] at hs
  | instantiate _ _ _ _ hne _ _ _ =>
    intro q hq
    obtain ⟨_,_,rfl⟩ := List.mem_map.mp hq
    exact hne
  | outside _ ho _ hq => exact fun q hm => (hq q hm).symm ▸ ho.1

/-! ### What a delivery costs -/

/-- The level does not rise, it falls if the nodes are replaced, and what the message was worth pays for the nodes
that its delivery runs and for what is sent. -/
structure Repaid (site : Site) (a : Addr) (denoms : Finset Denom) (w : World) (p : Packet) (w' : World)
    (out : List Packet) (n : ℕ) : Prop where
  level : ∀ ps, site.level a denoms w' (out ++ ps) ≤ site.level a denoms w (p :: ps)
  kept : (∀ ps, site.level a denoms w' (out ++ ps) < site.level a denoms w (p :: ps)) ∨ leads a w'=leads a w
  sum : ∀ ps, n+(out.map (site.worth a denoms w' (out ++ ps))).sum ≤ site.worth a denoms w (p :: ps) p

theorem level_eq {s : StrategyStorage} (h : w.strategies a=some s) :
    site.level a denoms w ps=2*StrategyContract.room denoms s+site.lists a ps := by simp [level,h]

theorem sum_worth_idle (h : ∀ q ∈ out, site.errand a q=.idle) : (out.map (site.worth a denoms w ps)).sum=0 :=
  Dispatch.sum_worth_eq_zero fun q hq => worth_idle (h q hq)

theorem sum_worth_funded (site : Site) (a : Addr) (denoms : Finset Denom) (w : World) (ps : List Packet)
    (h : ∀ q ∈ out, q.funded=true) : (out.map (site.worth a denoms w ps)).sum ≤
    out.length*Errand.base^(site.level a denoms w ps*Errand.span+1) := by
  refine (List.sum_le_card_nsmul _ _ fun k hk => ?_).trans (by rw [List.length_map,smul_eq_mul])
  obtain ⟨q,hq,rfl⟩ := List.mem_map.mp hk
  rw [worth,h q hq]
  exact Errand.funded_worth_le

/-- A delivery that asks the strategy for nothing. -/
theorem idle_repaid (hw : w'.strategies a=w.strategies a) (h : ∀ q ∈ out, site.errand a q=.idle) :
    site.Repaid a denoms w p w' out 0 := by
  have hlists : site.lists a out=0 := lists_eq_zero fun q hq => .inl (by rw [h q hq]; rfl)
  refine ⟨fun ps => ?_,.inr ?_,fun ps => ?_⟩
  · rw [level,level,hw,lists_append,lists_cons,hlists]
    omega
  · funext i j
    rw [leads,leads,hw]
  · rw [sum_worth_idle h]
    exact Nat.zero_le _

section Calls

variable {gas n : ℕ} {deps : Deps} {env : Env} {msg : StrategyExecuteMsg} {s s' : StrategyStorage}
  {response : StrategyResponse}

/-- A call that brings funds leaves less room for more. -/
theorem room_lt (h : site.Settled denoms w) (hc : w.Covers p) (hf : p.funded=true)
    (he : StrategyContract.execute gas deps env ⟨p.sender,p.funds⟩ s msg=.ok (s',response)) :
    StrategyContract.room denoms s'<StrategyContract.room denoms s := by
  obtain ⟨x,hx,hne⟩ := h.funds hc hf
  exact (StrategyContract.execute_room he).2 x hx hne

/-- Without a new list pending the level does not rise, and funds lower it by two. -/
theorem call_level (h : site.Settled denoms w) (hc : w.Covers p) (hs : w.strategies env.contract=some s)
    (hw : w'.strategies env.contract=some s')
    (he : StrategyContract.execute gas deps env ⟨p.sender,p.funds⟩ s msg=.ok (s',response)) (out ps : List Packet) :
    site.level env.contract denoms w' (out ++ ps)+(if p.funded then 2 else 0)+
      (if (site.errand env.contract p).replaces && !p.funded then 1 else 0) ≤
      site.level env.contract denoms w (p :: ps)+site.lists env.contract out := by
  rw [level_eq hs,level_eq hw,lists_append,lists_cons]
  cases hf : p.funded with
  | true =>
    have := room_lt h hc hf he
    simp only [Bool.not_true,Bool.and_false,if_true,Bool.false_eq_true,if_false]
    omega
  | false =>
    have hroom : StrategyContract.room denoms s' ≤ StrategyContract.room denoms s := (StrategyContract.execute_room he).1
    simp only [Bool.false_eq_true,if_false]
    omega

theorem worth_callSelf {msg : StrategyExecuteMsg} : site.worth env.contract denoms w ps ⟨env.contract,callSelf env msg⟩=
    msg.errand.worth (leads env.contract w) (site.level env.contract denoms w ps) false := by
  rw [worth,errand_callSelf,funded_callSelf]

omit [Crates] in
theorem process_errand_replaces {operation : StrategyOperation} {previous : Option ℕ} :
    (StrategyExecuteMsg.process operation previous).errand.replaces=false := by
  cases operation <;> rfl

theorem emitted_idle {subs : List SubMsg} (h : ∀ sub ∈ subs, sub.msg.Foreign) :
    ∀ x ∈ subs.map (Packet.mk env.contract), site.errand env.contract x=.idle := fun x hx => by
  obtain ⟨sub,hsub,rfl⟩ := List.mem_map.mp hx
  exact errand_foreign (h sub hsub)

theorem emitted_lists {operation : StrategyOperation} {previous : Option ℕ} {subs : List SubMsg}
    (h : StrategyContract.Emitted operation subs) :
    site.lists env.contract ((subs ++ [callSelf env (.process operation previous)]).map (Packet.mk env.contract))=0 := by
  refine lists_eq_zero fun x hx => ?_
  rw [List.map_append,List.mem_append,List.map_singleton,List.mem_singleton] at hx
  rcases hx with hx | rfl
  · rcases h with hforeign | ⟨_,_,hfunded⟩
    · exact .inl (by rw [emitted_idle hforeign x hx]; rfl)
    · exact .inr (emitted_funded hfunded x hx)
  · exact .inl (by rw [errand_callSelf,process_errand_replaces])

/-- What a node sends is worth as much as this many funded messages, and nothing if it is cancelled. -/
theorem emitted_worth {operation : StrategyOperation} {subs : List SubMsg} (h : StrategyContract.Emitted operation subs)
    (w : World) (ps : List Packet) : ∃ m ≤ MAX_STRATEGY_SIZE, (operation=.cancel → m=0) ∧
      ((subs.map (Packet.mk env.contract)).map (site.worth env.contract denoms w ps)).sum ≤
        m*Errand.base^(site.level env.contract denoms w ps*Errand.span+1) := by
  rcases h with hforeign | ⟨rfl,hlen,hfunded⟩
  · exact ⟨0,Nat.zero_le _,fun _ => rfl,by rw [sum_worth_idle (emitted_idle hforeign)]; exact Nat.zero_le _⟩
  · have hrich : ∀ x ∈ subs.map (Packet.mk env.contract), x.funded=true := emitted_funded hfunded
    have hsum := sum_worth_funded site env.contract denoms w ps hrich
    rw [List.length_map] at hsum
    exact ⟨subs.length,hlen,fun h => (by cases h),hsum⟩

/-- A call of `Process` is paid for by the nodes ahead of it, or by its funds. -/
theorem process_repaid {operation : StrategyOperation} {previous : Option ℕ} (h : site.Settled denoms w)
    (hc : w.Covers p) (hs : w.strategies env.contract=some s) (hw : w'.strategies env.contract=some s')
    (hcall : p.calls env.contract=some (.process operation previous))
    (he : StrategyContract.execute gas deps env ⟨p.sender,p.funds⟩ s (.process operation previous)=.ok (s',response))
    (hn : StrategyContract.executions gas deps env ⟨p.sender,p.funds⟩ s (.process operation previous)=.ok n) :
    site.Repaid env.contract denoms w p w' (response.messages.map (Packet.mk env.contract)) n := by
  obtain ⟨_,_,_,hh⟩ := h.home _ _ hs
  obtain ⟨rank,hcompact⟩ := hh.compact
  have hleads : leads env.contract w'=leads env.contract w := by
    rw [leads_eq hw,leads_eq hs]
    exact StrategyContract.execute_leads hcompact.ascends.sane (by simp) he
  have hlevel := call_level h hc hs hw he
  obtain ⟨hsender,r,deposits,hp,hnodes,hmsgs,rfl⟩ := StrategyContract.execute_executions he hn
  have hreach := StrategyContract.process_reach hp hcompact
  have hemits := fun q => StrategyContract.process_emits (q := q) hp hcompact.ascends.sane hh.narrow
  have herrand : site.errand env.contract p=(StrategyExecuteMsg.process operation previous).errand :=
    errand_calls (.inl hsender) hcall
  have hlists : site.lists env.contract (response.messages.map (Packet.mk env.contract))=0 := by
    rw [hmsgs]
    cases hnext : r.progress.next with
    | none => simp [StrategyContract.processResponse_ended hnext,lists]
    | some q =>
      obtain ⟨_,subs,hsubs,hemitted⟩ := hemits q hnext
      rw [hsubs]
      exact emitted_lists hemitted
  have hlow : ∀ ps, site.level env.contract denoms w' (response.messages.map (Packet.mk env.contract) ++ ps)+
      (if p.funded then 2 else 0) ≤ site.level env.contract denoms w (p :: ps) := fun ps => by
    have := hlevel (response.messages.map (Packet.mk env.contract)) ps
    rw [hlists,herrand,process_errand_replaces,Bool.false_and] at this
    simpa using this
  refine ⟨fun ps => (Nat.le_add_right _ _).trans (hlow ps),.inr hleads,fun ps => ?_⟩
  have hworth : site.worth env.contract denoms w (p :: ps) p=(StrategyExecuteMsg.process operation previous).errand.worth
      (leads env.contract w) (site.level env.contract denoms w (p :: ps)) p.funded := by rw [worth,herrand]
  have hlow := hlow ps
  generalize response.messages.map (Packet.mk env.contract) ++ ps=ps' at hlow
  rw [StrategyContract.Processed.reach] at hreach
  rw [hworth,leads_eq hs,hmsgs]
  cases hnext : r.progress.next with
  | none =>
    have hlen : r.executed.length ≤ operation.aheadOf (Leads s.nodes) previous := by simpa [hnext] using hreach
    rw [StrategyContract.processResponse_ended hnext]
    cases operation with
    | execute => exact Errand.run_ends hlen
    | cancel => exact hlen
  | some q =>
    obtain ⟨hone,subs,hsubs,hemitted⟩ := hemits q hnext
    have hahead : r.executed.length+operation.ahead (Leads s.nodes) q ≤ operation.aheadOf (Leads s.nodes) previous := by
      simpa [hnext] using hreach
    obtain ⟨m,hm,hcancel,hsum⟩ := @emitted_worth _ site denoms env _ _ hemitted w' ps'
    rw [hsubs,List.map_append,List.map_append,List.sum_append,List.map_singleton,List.map_singleton,List.sum_singleton,
      worth_callSelf,hleads,leads_eq hs]
    refine (Nat.add_le_add_left (Nat.add_le_add_right hsum _) _).trans ?_
    cases operation with
    | cancel =>
      rw [hcancel rfl,Nat.zero_mul,Nat.zero_add]
      exact hahead
    | execute =>
      have hdown : site.level env.contract denoms w' ps'+(if p.funded then 1 else 0) ≤
          site.level env.contract denoms w (p :: ps) := by
        split_ifs at hlow ⊢ <;> omega
      exact Errand.run_pays hdown hone hahead hm

theorem lists_callSelf (hr : msg.errand.replaces=false) :
    site.lists env.contract [⟨env.contract,callSelf env msg⟩]=0 := by
  refine lists_eq_zero fun q hq => .inl ?_
  rw [List.mem_singleton.mp hq,errand_callSelf,hr]

/-- A new list lowers the level: it is no longer pending, or it came with funds. -/
theorem init_repaid {nodes : List Node} (h : site.Settled denoms w) (hc : w.Covers p) (hs : w.strategies env.contract=some s)
    (hw : w'.strategies env.contract=some s') (hcall : p.calls env.contract=some (.init nodes))
    (he : StrategyContract.execute gas deps env ⟨p.sender,p.funds⟩ s (.init nodes)=.ok (s',response)) :
    site.Repaid env.contract denoms w p w' (response.messages.map (Packet.mk env.contract)) 0 := by
  obtain ⟨_,hsender,hm⟩ := StrategyContract.execute_sends he
  have herrand : site.errand env.contract p=.init := errand_calls (.inl hsender) hcall
  rw [hm,List.map_singleton]
  have hlt : ∀ ps, site.level env.contract denoms w' ([⟨env.contract,callSelf env (.process .execute none)⟩] ++ ps)<
      site.level env.contract denoms w (p :: ps) := fun ps => by
    have := call_level h hc hs hw he [⟨env.contract,callSelf env (.process .execute none)⟩] ps
    rw [lists_callSelf rfl,herrand] at this
    cases hf : p.funded with
    | true =>
      simp only [hf,if_true] at this
      omega
    | false =>
      simp only [hf,Errand.replaces,Bool.not_false,Bool.and_self,if_true] at this
      omega
  refine ⟨fun ps => (hlt ps).le,.inl hlt,fun ps => ?_⟩
  rw [List.map_singleton,List.sum_singleton,worth_callSelf,Nat.zero_add,worth,herrand,Errand.worth_init]
  exact Errand.start_le (hlt ps)

theorem execute_repaid (h : site.Settled denoms w) (hc : w.Covers p) (hs : w.strategies env.contract=some s)
    (hw : w'.strategies env.contract=some s') (hcall : p.calls env.contract=some .execute)
    (hleads : leads env.contract w'=leads env.contract w)
    (he : StrategyContract.execute gas deps env ⟨p.sender,p.funds⟩ s .execute=.ok (s',response)) :
    site.Repaid env.contract denoms w p w' (response.messages.map (Packet.mk env.contract)) 0 := by
  obtain ⟨_,hsender,hm⟩ := StrategyContract.execute_sends he
  have herrand : site.errand env.contract p=.run none :=
    errand_calls (.inr (hsender.trans (h.home _ _ hs).2.1)) hcall
  rw [hm,List.map_singleton]
  have hlow : ∀ ps, site.level env.contract denoms w' ([⟨env.contract,callSelf env (.process .execute none)⟩] ++ ps)+
      (if p.funded then 2 else 0) ≤ site.level env.contract denoms w (p :: ps) := fun ps => by
    have := call_level h hc hs hw he [⟨env.contract,callSelf env (.process .execute none)⟩] ps
    rw [lists_callSelf rfl,herrand] at this
    simpa [Errand.replaces] using this
  refine ⟨fun ps => (Nat.le_add_right _ _).trans (hlow ps),.inr hleads,fun ps => ?_⟩
  have hlow := hlow ps
  rw [List.map_singleton,List.sum_singleton,worth_callSelf,Nat.zero_add,worth,herrand]
  cases hf : p.funded with
  | true =>
    rw [Errand.worth_run_funded]
    exact Errand.start_le (by simp only [hf,if_true] at hlow; omega)
  | false =>
    rw [hleads]
    exact Errand.worth_le ((Nat.le_add_right _ _).trans hlow)

theorem update_repaid {nodes : List Node} (h : site.Settled denoms w) (hc : w.Covers p)
    (hs : w.strategies env.contract=some s) (hw : w'.strategies env.contract=some s')
    (hcall : p.calls env.contract=some (.update nodes)) (hleads : leads env.contract w'=leads env.contract w)
    (he : StrategyContract.execute gas deps env ⟨p.sender,p.funds⟩ s (.update nodes)=.ok (s',response)) :
    site.Repaid env.contract denoms w p w' (response.messages.map (Packet.mk env.contract)) 0 := by
  obtain ⟨_,hsender,hm⟩ := StrategyContract.execute_sends he
  have herrand : site.errand env.contract p=.update := errand_calls (.inr (hsender.trans (h.home _ _ hs).2.1)) hcall
  rw [hm,List.map_cons,List.map_singleton]
  have hone : site.lists env.contract [⟨env.contract,callSelf env (.process .cancel none)⟩,
      ⟨env.contract,callSelf env (.init nodes)⟩]=1 := by
    rw [lists_cons,lists_cons,errand_callSelf,errand_callSelf]
    rfl
  have hlow : ∀ ps, site.level env.contract denoms w' ([⟨env.contract,callSelf env (.process .cancel none)⟩,
      ⟨env.contract,callSelf env (.init nodes)⟩] ++ ps)+(if p.funded then 1 else 0) ≤
      site.level env.contract denoms w (p :: ps) := fun ps => by
    have := call_level h hc hs hw he [⟨env.contract,callSelf env (.process .cancel none)⟩,
      ⟨env.contract,callSelf env (.init nodes)⟩] ps
    rw [hone,herrand] at this
    cases hf : p.funded with
    | true =>
      simp only [hf,if_true] at this ⊢
      omega
    | false =>
      simp only [hf,Errand.replaces,Bool.not_false,Bool.and_self,if_true] at this ⊢
      simp only [Bool.false_eq_true,if_false] at this ⊢
      omega
  refine ⟨fun ps => (Nat.le_add_right _ _).trans (hlow ps),.inr hleads,fun ps => ?_⟩
  rw [List.map_cons,List.map_singleton,List.sum_cons,List.sum_singleton,worth_callSelf,worth_callSelf,Nat.zero_add,worth,
    herrand]
  exact Errand.update_pays (hlow ps)

/-- Every call of the strategy is paid for. -/
theorem call_repaid (h : site.Settled denoms w) (hc : w.Covers p) (hs : w.strategies env.contract=some s)
    (hw : w'.strategies env.contract=some s') (hcall : p.calls env.contract=some msg)
    (he : StrategyContract.execute gas deps env ⟨p.sender,p.funds⟩ s msg=.ok (s',response))
    (hn : StrategyContract.executions gas deps env ⟨p.sender,p.funds⟩ s msg=.ok n) :
    site.Repaid env.contract denoms w p w' (response.messages.map (Packet.mk env.contract)) n := by
  obtain ⟨_,hman,_,hh⟩ := h.home _ _ hs
  obtain ⟨rank,hcompact⟩ := hh.compact
  have hleads : (∀ nodes, msg≠.init nodes) → leads env.contract w'=leads env.contract w := fun hm => by
    rw [leads_eq hw,leads_eq hs]
    exact StrategyContract.execute_leads hcompact.ascends.sane hm he
  obtain ⟨_,hsends⟩ := StrategyContract.execute_sends he
  cases msg with
  | process operation previous => exact process_repaid h hc hs hw hcall he hn
  | init nodes => exact Except.ok.inj hn ▸ init_repaid h hc hs hw hcall he
  | execute => exact Except.ok.inj hn ▸ execute_repaid h hc hs hw hcall (hleads (by simp)) he
  | update nodes => exact Except.ok.inj hn ▸ update_repaid h hc hs hw hcall (hleads (by simp)) he
  | withdraw amounts =>
    obtain rfl := Except.ok.inj hn
    have hidle : ∀ q ∈ response.messages.map (Packet.mk env.contract), site.errand env.contract q=.idle := by
      intro q hq
      obtain ⟨sub,hsub,rfl⟩ := List.mem_map.mp hq
      obtain ⟨target,amount,hm⟩ := hsends sub hsub
      exact errand_foreign fun _ _ _ hw => by simp [hm] at hw
    have hzero := lists_eq_zero fun q hq => .inl (by rw [hidle q hq]; rfl)
    refine ⟨fun ps => ?_,.inr (hleads (by simp)),fun ps => ?_⟩
    · have := call_level h hc hs hw he (response.messages.map (Packet.mk env.contract)) ps
      omega
    · rw [sum_worth_idle hidle]
      exact Nat.zero_le _
  | cancel =>
    obtain rfl := Except.ok.inj hn
    obtain ⟨hsender,hm⟩ := hsends
    have herrand : site.errand env.contract p=.cancel none := errand_calls (.inr (hsender.trans hman)) hcall
    rw [hm,List.map_singleton]
    refine ⟨fun ps => ?_,.inr (hleads (by simp)),fun ps => ?_⟩
    · have := call_level h hc hs hw he [⟨env.contract,callSelf env (.process .cancel none)⟩] ps
      rw [lists_callSelf rfl] at this
      omega
    · rw [List.map_singleton,List.sum_singleton,worth_callSelf,Nat.zero_add,worth,herrand]
      exact le_rfl

end Calls

section Manager

variable {msg : ManagerExecuteMsg} {target : Addr}

theorem errand_toManager (h : p.sender=a ∨ p.sender=site.manager) (hc : p.calls a=none) (hm : site.toManager p=some msg) :
    site.errand a p=msg.errand := by simp [errand,h,hc,hm]

/-- What the manager passes on brings the same funds. -/
theorem forward_repaid (call : StrategyExecuteMsg) (hw : w'.strategies a=w.strategies a)
    (hout : out=[⟨site.manager,ManagerContract.callStrategy target call p.funds⟩])
    (hlists : call.errand.replaces=(site.errand a p).replaces)
    (hworth : ∀ level, call.errand.worth (leads a w) level p.funded ≤ (site.errand a p).worth (leads a w) level p.funded) :
    site.Repaid a denoms w p w' out 0 := by
  have hfunded : Packet.funded ⟨site.manager,ManagerContract.callStrategy target call p.funds⟩=p.funded := rfl
  by_cases ht : target=a
  · have herrand : site.errand a ⟨site.manager,ManagerContract.callStrategy target call p.funds⟩=call.errand := by
      rw [errand_callStrategy,if_pos ht]
    have hlevel : ∀ ps, site.level a denoms w' (out ++ ps)=site.level a denoms w (p :: ps) := fun ps => by
      rw [hout,level,level,hw,List.singleton_append,lists_cons,lists_cons,herrand,hfunded,hlists]
    have hleads : leads a w'=leads a w := by
      funext i j
      rw [leads,leads,hw]
    refine ⟨fun ps => (hlevel ps).le,.inr hleads,fun ps => ?_⟩
    have hsum : (out.map (site.worth a denoms w' (out ++ ps))).sum=
        call.errand.worth (leads a w) (site.level a denoms w (p :: ps)) p.funded := by
      have hlevel := hlevel ps
      rw [hout] at hlevel ⊢
      rw [List.map_singleton,List.sum_singleton,worth,herrand,hfunded,hleads,hlevel]
    rw [hsum,Nat.zero_add]
    exact hworth _
  · refine idle_repaid hw fun q hq => ?_
    rw [hout,List.mem_singleton] at hq
    rw [hq,errand_callStrategy,if_neg ht]

/-- The manager asks a strategy for no more than it was asked. -/
theorem manager_repaid (hd : site.Delivers w p w' out) (hv : w.strategies site.manager=none)
    (hsender : p.sender=a ∨ p.sender=site.manager) (hc : p.calls a=none) (hm : site.toManager p=some msg) :
    site.Repaid a denoms w p w' out 0 := by
  obtain ⟨deps,env,storage,response,he,rfl,rfl⟩ := Delivers.to_manager hd hv hm
  have herrand := errand_toManager hsender hc hm
  cases ManagerContract.execute_accepts he with
  | instantiate _ _ _ _ _ _ _ _ =>
    refine idle_repaid rfl fun q hq => ?_
    obtain rfl := List.mem_singleton.mp hq
    exact errand_idle rfl rfl
  | execute _ _ =>
    refine forward_repaid .execute rfl rfl ?_ ?_
    · rw [herrand]; rfl
    · intro level
      rw [herrand]; exact le_rfl
  | @update b nodes _ _ _ =>
    refine forward_repaid (.update nodes) rfl rfl ?_ ?_
    · rw [herrand]; rfl
    · intro level
      rw [herrand]; exact le_rfl
  | @updateStatus b status _ _ _ =>
    refine forward_repaid (ManagerContract.statusMsg status) rfl rfl ?_ ?_
    · rw [herrand]
      cases status <;> rfl
    · intro level
      rw [herrand]
      cases status with
      | active => exact le_rfl
      | paused => exact Errand.cancel_le_run
      | archived => exact Errand.cancel_le_run
  | updateLabel _ _ _ => exact idle_repaid rfl fun q hq => by cases hq

end Manager

/-! ### Runs -/

theorem Delivers.stored (hd : site.Delivers w p w' out) (ha : site.Strategy a) (hs : (w.strategies a).isSome) :
    (w'.strategies a).isSome := by
  cases hc : p.calls a with
  | none => rwa [(Delivers.past_strategy hd ha hs hc).1]
  | some msg =>
    obtain ⟨_,_,_,_,s',_,_,_,_,_,rfl,_⟩ := Delivers.to_strategy hd ha hc
    simp

/-- Every delivery runs some number of nodes. -/
theorem Delivers.executes (hd : site.Delivers w p w' out) (ha : site.Strategy a) : ∃ n, site.Executes a w p w' out n := by
  cases hc : p.calls a with
  | none => exact ⟨0,.past hc⟩
  | some msg =>
    obtain ⟨_,_,_,_,_,_,hs,hanswers,henv,he,hw,hout⟩ := Delivers.to_strategy hd ha hc
    obtain ⟨n,hn⟩ := StrategyContract.executions_total he
    exact ⟨n,.call hc hs hanswers henv he hw hout hn⟩

/-- Every delivery is paid for. -/
theorem Delivers.repaid {n : ℕ} (hd : site.Delivers w p w' out) (h : site.Settled denoms w) (hs : (w.strategies a).isSome)
    (hc : (site.unaided a).calls w p ps) (hn : site.Executes a w p w' out n) : site.Repaid a denoms w p w' out n := by
  cases hn with
  | call hcall hs henv' henv he hw hout hn =>
    subst henv hout
    exact call_repaid h hd.bank.1 hs (by rw [hw]; exact Function.update_self ..) hcall he hn
  | past hcall =>
    obtain ⟨s,hstored⟩ := Option.isSome_iff_exists.mp hs
    obtain ⟨hw,hsender⟩ := Delivers.past_strategy hd (h.home _ _ hstored).1 hs hcall
    cases hm : site.toManager p with
    | none => exact idle_repaid hw fun q hq => errand_other (hsender q hq) (hd.past_manager h.vacant hm q hq)
    | some msg =>
      have hfrom : p.sender=a ∨ p.sender=site.manager := by
        by_contra hne
        rw [not_or] at hne
        rw [(hc hne.1 hne.2).2] at hm
        cases hm
      exact manager_repaid hd h.vacant hfrom hcall hm

theorem Settled.keeps (C : Dispatch.Conduct World Packet) :
    Dispatch.Keeps site.machine C fun w _ => site.Settled denoms w where
  call h _ hd := h.deliver hd
  reply h _ := h
  drop h _ _ := h

/-- What the strategy and the manager have still to deliver pays for the nodes that the strategy runs. -/
theorem affords (denoms : Finset Denom) (ha : site.Strategy a) : Dispatch.Affords site.machine (site.unaided a) (site.Executes a)
    (fun w _ => site.Settled denoms w ∧ (w.strategies a).isSome) (site.worth a denoms) where
  keeps := {
    call := fun h _ hd => ⟨h.1.deliver hd,Delivers.stored hd ha h.2⟩
    reply := fun h _ => h
    drop := fun h _ _ => h }
  pays h hc hd hn := (Delivers.repaid hd h.1 h.2 hc hn).sum _
  falls h hc hd q := by
    obtain ⟨n,hn⟩ := Delivers.executes hd ha
    have hr := Delivers.repaid hd h.1 h.2 hc hn
    exact worth_mono (hr.level _) (hr.kept.imp_left fun hlt => hlt _) q
  replies w ps {p ok out} hr := by
    have hidle : ∀ q ∈ out, site.errand a q=.idle := fun q hq => by
      have ho := Replies.senders hr q hq
      exact errand_other (fun he => ho.not_strategy (he ▸ ha)) ho.1
    have hlists : site.lists a out=0 := lists_eq_zero fun q hq => .inl (by rw [hidle q hq]; rfl)
    refine ⟨fun q => worth_mono ?_ (.inr rfl) q,fun q hq => worth_idle (hidle q hq)⟩
    rw [level,level,lists_append,hlists,Nat.zero_add]
  drops w p ps q := by
    refine worth_mono ?_ (.inr rfl) q
    rw [level,level,lists_cons]
    omega

/-- A manager `Execute` that is accepted makes its strategy run a bounded number of nodes, in the runs that failures
undo as well. -/
theorem executes_finitely {w₀ : World} (hnone : ∀ b, w₀.strategies b=none) (hbank : {x | ∃ b, w₀.bank b x≠0}.Finite)
    (h : Dispatch.Delivery site.machine Dispatch.Conduct.any w₀ w p w' out) {s : StrategyStorage} (hs : w.strategies a=some s)
    (hp : site.toManager p=some (.execute a)) :
    (∀ c, Dispatch.Steps site.machine (site.unaided a) ⟨w',[⟨w,p,out⟩]⟩ c →
      ∃ n, Dispatch.Spent site.machine (site.unaided a) (site.Executes a) ⟨w',[⟨w,p,out⟩]⟩ n c) ∧
    ∃ bound, ∀ n c, Dispatch.Spent site.machine (site.unaided a) (site.Executes a) ⟨w',[⟨w,p,out⟩]⟩ n c → n ≤ bound := by
  have hgenesis : site.Settled hbank.toFinset w₀ := by
    refine ⟨fun b s hb => by simp [hnone] at hb,fun b x hx => ?_⟩
    by_contra hne
    exact hx (hbank.mem_toFinset.mpr ⟨b,hne⟩)
  obtain ⟨_,hset,hd⟩ := h.holds (Settled.keeps _) (fun hw _ => hw) hgenesis
  have ha := (hset.home _ _ hs).1
  refine ⟨fun c hc => Dispatch.Spent.of_steps (fun hd => Delivers.executes hd ha) hc,?_⟩
  obtain ⟨_,_,_,_,he,hw,hout⟩ := Delivers.to_manager hd hset.vacant hp
  have hstrategies : w'.strategies=w.strategies := by rw [hw]; rfl
  have hout : out=[⟨site.manager,ManagerContract.callStrategy a .execute p.funds⟩] := by
    rw [hout]
    cases ManagerContract.execute_accepts he
    rfl
  have hleads : leads a w'=leads a w := by
    funext i j
    rw [leads,leads,hstrategies]
  have hlevel : site.level a hbank.toFinset w' (out ++ []) ≤ site.level a hbank.toFinset w [p] := by
    have hrun : site.errand a ⟨site.manager,ManagerContract.callStrategy a .execute p.funds⟩=.run none := by
      rw [errand_callStrategy,if_pos rfl]
      rfl
    rw [hout,List.append_nil,level,level,hstrategies,lists_cons,lists_cons,hrun]
    simp only [Errand.replaces,Bool.false_and,Bool.false_eq_true,if_false]
    omega
  have hstored : (w.strategies a).isSome := by rw [hs]; rfl
  have haffords := affords hbank.toFinset ha
  refine ⟨_,fun n c hspent => (Nat.le_add_right _ _).trans (hspent.within haffords ?_ ?_).2.sum⟩
  · exact ⟨⟨hset.deliver hd,by rw [hstrategies]; exact hstored⟩,⟨hset,hstored⟩,trivial⟩
  · exact ⟨worth_mono hlevel (.inr hleads),trivial⟩

end Site
end

/-- As the plain third-party code, but any bytes parse as the call that a strategy makes to begin a run. -/
@[reducible] def Crates.restless : Crates := { Crates.plain with parseStrategy := fun _ => some (.process .execute none) }

namespace Site

attribute [local instance] Crates.restless

/-- A node that pays everything to the strategy itself, with a call. -/
def restart : Node := .action (.distribute ⟨["rune"],[⟨10000,.contract "manager/21" [],none,none⟩]⟩) 0 none

/-- A chain on which only Alice owns anything. -/
def purse : World := { wealthy Table.empty with bank := fun a x => if a="alice" ∧ x="rune" then 100 else 0 }

/-- Alice calls the manager with funds. -/
def brings (msg : ManagerExecuteMsg) (funds : List Coin) : Packet :=
  ⟨"alice",⟨.wasmExecute "manager" (.manager msg) funds,.never,0⟩⟩

/-- The town in its first block, where only these messages are delivered. -/
def morning (allows : Packet → Bool) : Dispatch.Player World Packet :=
  town.player ⟨1,⟨1⟩⟩ (townsfolk fun _ => []) fun _ p _ => allows p

def unaidedCalls (p : Packet) : Bool :=
  p.sender="manager/21" || p.sender="manager" || (p.calls "manager/21").isNone && (town.toManager p).isNone

def executed (p : Packet) : Option (World × Dispatch.Config World Packet) := do
  let created ← (morning fun _ => true).transact 6 purse (brings (.instantiate none none "savings" [] [restart]) [])
  let c ← (morning fun _ => true).start created p
  return (created,c)

/-- The payment of the strategy to itself calls it again, before the run that made the payment goes on. -/
theorem executes_finitely_restless : ∃ w p w' out, Dispatch.Delivery town.machine Dispatch.Conduct.any purse w p w' out ∧
    town.toManager p=some (.execute "manager/21") ∧
    (∃ c q, Dispatch.Steps town.machine (town.unaided "manager/21") ⟨w',[⟨w,p,out⟩]⟩ c ∧
      (Dispatch.pending c.frames).head?=some q ∧ q.sender="manager/21" ∧
      q.calls "manager/21"=some (.process .execute none) ∧ q.funded=true) ∧
    ∃ bound, ∀ n c, Dispatch.Spent town.machine (town.unaided "manager/21") (town.Executes "manager/21")
      ⟨w',[⟨w,p,out⟩]⟩ n c → n ≤ bound := by
  have hcast : ∀ a, (townsfolk fun _ => []).outside a=true → town.Outside a := townsfolk_outside
  have hany : (morning fun _ => true).Sound town.machine Dispatch.Conduct.any :=
    player_sound hcast (fun _ => trivial) fun _ => trivial
  have hunaided : (morning unaidedCalls).Sound town.machine (town.unaided "manager/21") := by
    refine player_sound hcast (fun {w p ps} h hne hne' => ?_) fun _ => trivial
    have hman : town.manager="manager" := rfl
    rw [hman] at hne'
    simpa [unaidedCalls,hne,hne'] using h
  have houtside : ∀ msg funds, town.Outside (brings msg funds).sender := fun _ _ => alice_outside (.execute "")
  have hrun : ((executed (brings (.execute "manager/21") [⟨3,"rune"⟩])).bind fun r =>
      if (r.1.strategies "manager/21").isSome then ((morning unaidedCalls).play 4 r.2).bind fun c =>
        (Dispatch.pending c.frames).head?.map fun q => (q.sender,q.calls "manager/21",q.funded) else none)=
      some ("manager/21",some (.process .execute none),true) := by decide +kernel
  obtain ⟨⟨created,c₁⟩,he,hrun⟩ := Option.bind_eq_some_iff.mp hrun
  obtain ⟨created,h₁,he⟩ := Option.bind_eq_some_iff.mp he
  obtain ⟨c₁,h₂,he⟩ := Option.bind_eq_some_iff.mp he
  cases he
  simp only at hrun
  split_ifs at hrun with hstored
  obtain ⟨c,hplay,hrun⟩ := Option.bind_eq_some_iff.mp hrun
  obtain ⟨q,hhead,hrun⟩ := Option.map_eq_some_iff.mp hrun
  obtain ⟨hsender,hrun⟩ := Prod.mk.inj hrun
  obtain ⟨hcalls,hfunded⟩ := Prod.mk.inj hrun
  obtain ⟨⟨w',out⟩,hdeliver,h₂⟩ := Option.bind_eq_some_iff.mp h₂
  split_ifs at h₂
  obtain rfl := Option.some.inj h₂
  have hdelivery := Dispatch.Delivery.first (hany.transact .start (houtside _ _) h₁) (houtside _ _) trivial
    (hany.deliver hdeliver)
  have hbank : {x | ∃ b, purse.bank b x≠0}.Finite := by
    refine (Set.finite_singleton "rune").subset fun x hx => ?_
    obtain ⟨b,hb⟩ := hx
    exact by_contra fun hne => hb (if_neg fun he => hne he.2)
  obtain ⟨s,hs⟩ := Option.isSome_iff_exists.mp hstored
  exact ⟨created,_,w',out,hdelivery,rfl,⟨c,q,hunaided.play hplay,hhead,hsender,hcalls,hfunded⟩,
    (executes_finitely (fun _ => rfl) hbank hdelivery hs rfl).2⟩

end Site
end CalcRs
