import CalcRs.Actions.Orders
import CalcRs.Actions.Shares
import CalcRs.Runs.Ascent

/-! How many nodes a run can still go through after one, and how much room the record of deposits has left:
the first falls with every node of a run, the second with every call that brings funds. -/
namespace CalcRs

namespace StrategyOperation

/-- How many nodes a run can still go through after node `i`. -/
noncomputable def ahead (operation : StrategyOperation) (leads : ℕ → ℕ → Prop) (i : ℕ) : ℕ :=
  match operation with
  | .execute => Kahn.below (Finset.range MAX_STRATEGY_SIZE) leads i
  | .cancel => MAX_STRATEGY_SIZE-i

/-- The same for a call, which may start the run. -/
noncomputable def aheadOf (operation : StrategyOperation) (leads : ℕ → ℕ → Prop) : Option ℕ → ℕ
  | none => MAX_STRATEGY_SIZE+1
  | some i => operation.ahead leads i

theorem ahead_le {operation : StrategyOperation} {leads : ℕ → ℕ → Prop} {i : ℕ} :
    operation.ahead leads i ≤ MAX_STRATEGY_SIZE := by
  cases operation with
  | execute => exact Kahn.below_le.trans (Finset.card_range _).le
  | cancel => exact Nat.sub_le _ _

theorem aheadOf_le {operation : StrategyOperation} {leads : ℕ → ℕ → Prop} {previous : Option ℕ} :
    operation.aheadOf leads previous ≤ MAX_STRATEGY_SIZE+1 := by
  cases previous with
  | none => exact le_rfl
  | some i => exact ahead_le.trans (Nat.le_succ _)

end StrategyOperation

/-! ### The width of a node -/

namespace Node

/-- How many destinations the node has. -/
def width : Node → ℕ
  | .action (.distribute d) _ _ => d.destinations.length
  | _ => 0

theorem width_le_size (node : Node) : node.width ≤ node.size := by
  cases node with
  | condition c i s f => exact Nat.zero_le _
  | action a i next =>
    cases a with
    | distribute d => exact Nat.le_succ _
    | _ => exact Nat.zero_le _

theorem commit_width {node node' : Node} {deps : Deps} {env : Env} (h : node.commit deps env=.ok node') :
    node'.width ≤ node.width := by
  cases node with
  | condition c i s f =>
    obtain ⟨_,_,rfl⟩ := Except.map_eq_ok.mp h
    exact le_rfl
  | action a i next =>
    obtain ⟨_,ha,rfl⟩ := Except.map_eq_ok.mp h
    cases a with
    | limitOrder o => obtain ⟨_,_,rfl⟩ := Except.map_eq_ok.mp ha; exact le_rfl
    | swap s => cases ha; exact le_rfl
    | distribute d => cases ha; exact le_rfl

end Node

/-- What is stored after the nodes of a list were saved is one of them, or it was stored before. -/
theorem NodeStore.foldl_save_stored {store : Table ℕ Node} {nodes : List Node} {k : ℕ} {node : Node}
    (h : (nodes.foldl save store).get? k=some node) : store.get? k=some node ∨ node ∈ nodes := by
  induction nodes generalizing store with
  | nil => exact .inl h
  | cons first nodes ih =>
    rcases ih h with hk | hk
    · rw [get?_save] at hk
      split_ifs at hk
      · exact .inr (Option.some.inj hk ▸ List.mem_cons_self)
      · exact .inl hk
    · exact .inr (List.mem_cons_of_mem _ hk)

/-! ### The nodes ahead -/

/-- The edges between the nodes of a store. -/
def Leads (nodes : Table ℕ Node) (i j : ℕ) : Prop := ∃ node, nodes.get? i=some node ∧ j ∈ node.wiring.targets

/-- The nodes ascend, and their keys are those of a list that is not too long. -/
structure Compact (rank : ℕ → ℕ) (nodes : Table ℕ Node) : Prop where
  ascends : Ascends rank nodes
  short : ∀ k node, nodes.get? k=some node → k<MAX_STRATEGY_SIZE

theorem Ascends.rank_lt {rank : ℕ → ℕ} {nodes : Table ℕ Node}
    (h : Ascends rank nodes) {i j : ℕ} (hp : Relation.TransGen (Leads nodes) i j) :
    rank i < rank j := by
  induction hp with
  | single he =>
    obtain ⟨node,hn,ht⟩ := he
    exact h.up _ node hn _ ht
  | tail _ he ih =>
    obtain ⟨node,hn,ht⟩ := he
    exact ih.trans (h.up _ node hn _ ht)

namespace NodeStore

theorem leads_save {nodes : Table ℕ Node} {node node' : Node}
    (hn : nodes.get? node.index=some node) (hw : node'.wiring=node.wiring) :
    Leads (save nodes node')=Leads nodes := by
  have hidx := Node.index_congr hw
  funext i j
  simp only [Leads,get?_save]
  by_cases hi : i=node'.index
  · rw [if_pos hi,hi,hidx,hn]
    simp [hw]
  · rw [if_neg hi]

theorem compact_save {rank : ℕ → ℕ} {nodes : Table ℕ Node} {node node' : Node}
    (h : Compact rank nodes) (hn : nodes.get? node.index=some node) (hw : node'.wiring=node.wiring) :
    Compact rank (save nodes node') := by
  have hidx := Node.index_congr hw
  refine ⟨h.ascends.save hn hw,fun k n hk => ?_⟩
  rw [get?_save] at hk
  split_ifs at hk with he
  · rw [he,hidx]
    exact h.short _ node hn
  · exact h.short k n hk

end NodeStore

/-! ### The record of deposits -/

namespace StrategyContract

theorem deposit_room {s s' : StrategyStorage} {info : MessageInfo} (h : deposit s info=.ok s') (x : Denom) :
    2^128-amountIn x s'.deposits ≤ 2^128-amountIn x s.deposits ∧
      (amountIn x info.funds≠0 → 2^128-amountIn x s'.deposits<2^128-amountIn x s.deposits) := by
  unfold deposit at h
  split_ifs at h with hempty
  · obtain rfl := Except.ok.inj h
    exact ⟨le_rfl,fun hne => absurd (by rw [List.isEmpty_iff.mp hempty]; rfl) hne⟩
  · obtain ⟨before,hbefore,h⟩ := Except.bind_eq_ok.mp h
    obtain ⟨after,hafter,h⟩ := Except.bind_eq_ok.mp h
    obtain rfl := Except.ok.inj h
    have hsum := Coins.addAll_amountOf hafter x
    simp only [Coins.amountIn_toVec,← Coins.tryFrom_amountOf hbefore x]
    exact ⟨by omega,Coins.addAll_room hafter⟩

end StrategyContract

variable [Crates]

/-! ### The width of what is stored -/

namespace Node

theorem execute_width {node node' : Node} {deps : Deps} {env : Env} {messages : List CosmosMsg}
    (h : node.execute deps env=.ok (messages,node')) : node'.width ≤ node.width := by
  cases node with
  | condition c i s f =>
    obtain ⟨_,_,he⟩ := Except.map_eq_ok.mp h
    cases he
    exact le_rfl
  | action a i next =>
    obtain ⟨_,ha,he⟩ := Except.map_eq_ok.mp h
    cases he
    cases a with
    | distribute d =>
      obtain ⟨⟨_,d'⟩,hd,he⟩ := Except.map_eq_ok.mp ha
      cases he
      exact (Distribution.executeUnsafe_funded hd).2.1
    | swap s => obtain ⟨_,_,he⟩ := Except.map_eq_ok.mp ha; cases he; exact le_rfl
    | limitOrder o => obtain ⟨_,_,he⟩ := Except.map_eq_ok.mp ha; cases he; exact le_rfl

/-- The messages of a payment are no more than its destinations, and all of them are funded. -/
theorem execute_funded {d : Distribution} {i : ℕ} {next : Option ℕ} {node' : Node} {deps : Deps} {env : Env}
    {messages : List CosmosMsg} (h : (Node.action (.distribute d) i next).execute deps env=.ok (messages,node')) :
    messages.length ≤ d.destinations.length ∧ ∀ m ∈ messages, ∃ x, amountIn x m.funds≠0 := by
  obtain ⟨_,ha,he⟩ := Except.map_eq_ok.mp h
  cases he
  obtain ⟨_,hd,he⟩ := Except.map_eq_ok.mp ha
  cases he
  obtain ⟨hlen,_,hfunded⟩ := Distribution.executeUnsafe_funded hd
  exact ⟨hlen,hfunded⟩

end Node

theorem StrategyContract.Stage.width {node node' : Node} (h : Stage node node') : node'.width ≤ node.width := by
  cases h with
  | run operation deps env messages h =>
    cases operation with
    | execute => exact Node.execute_width h
    | cancel => rw [(Node.cancel_orders h).1]
  | commit deps env h => exact Node.commit_width h

/-- The nodes that `NodeStore::init` stores are no larger than a strategy may be. -/
theorem NodeStore.init_size {deps : Deps} {env : Env} {affiliates : List Affiliate} {store store' : Table ℕ Node}
    {nodes : List Node} (h : init deps env affiliates store nodes=.ok store') :
    ∀ k node, store'.get? k=some node → store.get? k=some node ∨ node.size ≤ MAX_STRATEGY_SIZE := by
  obtain ⟨state,hloop,h⟩ := Except.bind_eq_ok.mp h
  simp only [genericErr,Except.ite_error_eq_ok,not_lt] at h
  obtain ⟨hsize,h⟩ := h
  obtain ⟨count,_,h⟩ := Except.bind_eq_ok.mp h
  simp only [Except.ite_error_eq_ok,not_not] at h
  obtain rfl := Except.ok.inj h.2
  obtain ⟨inits,_,_,hstore,_,_,hsum⟩ := initLoop_eq_ok hloop
  intro k node hk
  rw [hstore] at hk
  refine (foldl_save_stored hk).imp_right fun hn => ?_
  have hle := List.single_le_sum (fun _ _ => Nat.zero_le _) _ (List.mem_map_of_mem (f := Node.size) hn)
  simp only [Nat.zero_add] at hsum
  omega

theorem StrategyContract.History.narrow {s : StrategyStorage} {lists : List (List Node)} (h : History s lists) :
    ∀ k node, s.nodes.get? k=some node → node.width ≤ MAX_STRATEGY_SIZE :=
  h.each (P := fun node => node.width ≤ MAX_STRATEGY_SIZE)
    (fun hi k node hk => (NodeStore.init_size hi k node hk).imp_right node.width_le_size.trans)
    (fun hst hw => hst.width.trans hw)

/-! ### How far a call gets -/

variable {rank : ℕ → ℕ} {nodes : Table ℕ Node} {node node' next : Node} {operation : StrategyOperation}
  {deps : Deps} {env : Env}

namespace NodeStore

/-- From a node to the next one that `get_next` finds there is one node less ahead. -/
theorem getNext_ahead (h : Compact rank nodes) (hn : nodes.get? node.index=some node)
    (hg : Fault.okay (getNext deps env nodes operation node)=.ok (some next)) : nodes.get? next.index=some next ∧
      operation.ahead (Leads nodes) next.index<operation.ahead (Leads nodes) node.index := by
  have hsane := h.ascends.sane
  obtain ⟨k,hk,hnext⟩ := getNext_eq_some hg
  obtain rfl : next.index=k := hsane.index k next hk
  have hshort := h.short _ _ hk
  refine ⟨hk,?_⟩
  obtain ⟨rfl,he⟩ | ⟨rfl,hnext⟩ := hnext
  · simp only [StrategyOperation.ahead]
    omega
  · refine Kahn.below_lt ⟨node,hn,nextIndex_mem hnext⟩ (Finset.mem_range.mpr hshort) fun hcycle => ?_
    exact lt_irrefl _ (h.ascends.rank_lt hcycle)

end NodeStore

namespace StrategyContract

/-- The nodes that a call executes, and those that are ahead when it ends. -/
noncomputable def Processed.reach (leads : ℕ → ℕ → Prop) (operation : StrategyOperation) (r : Processed) : ℕ :=
  r.executed.length+(r.progress.next.map (operation.ahead leads)).getD 0

theorem Loops.reach {bound : ℕ} {stored : Option (List String)} {path : List String} {next : Option Node}
    {r : Processed} (hc : Compact rank nodes)
    (hnext : ∀ n ∈ next, nodes.get? n.index=some n ∧ operation.ahead (Leads nodes) n.index<bound)
    (h : Loops operation deps env stored nodes path next r) : r.reach (Leads nodes) operation ≤ bound := by
  induction h generalizing bound with
  | finished => exact Nat.zero_le _
  | failed _ =>
    have hlt := (hnext _ rfl).2
    simpa [Processed.reach,Progress.next,Nat.add_comm 1] using Nat.succ_le_of_lt hlt
  | messages hrun _ =>
    have hlt := (hnext _ rfl).2
    simpa [Processed.reach,Progress.next,run_index hrun,Nat.add_comm 1] using Nat.succ_le_of_lt hlt
  | @next nodes path current node next rest hrun hget _ ih =>
    obtain ⟨hcur,hlt⟩ := hnext _ rfl
    have hwire := run_wiring hrun
    have hleads := NodeStore.leads_save hcur hwire
    have hc' := NodeStore.compact_save hc hcur hwire
    have hbelow : ∀ n ∈ next, (NodeStore.save nodes node).get? n.index=some n ∧
        operation.ahead (Leads (NodeStore.save nodes node)) n.index<operation.ahead (Leads nodes) current.index := by
      intro n hn
      rw [Option.mem_def.mp hn] at hget
      obtain ⟨hst,hlt'⟩ := NodeStore.getNext_ahead hc' NodeStore.get?_save_self hget
      rw [run_index hrun,hleads] at hlt'
      exact ⟨hst,hleads ▸ hlt'⟩
    have hrest := ih hc' hbelow
    rw [hleads] at hrest
    simp only [Processed.reach,List.length_cons] at hrest ⊢
    omega

/-- A call executes no more nodes than are ahead of it, less those that are ahead when it ends. -/
theorem process_reach {gas : ℕ} {storage : StrategyStorage} {previous : Option ℕ} {r : Processed}
    (h : process gas deps env storage operation previous=.ok r) (hc : Compact rank storage.nodes) :
    r.reach (Leads storage.nodes) operation ≤ operation.aheadOf (Leads storage.nodes) previous := by
  have hsane := hc.ascends.sane
  cases process_eq_ok h with
  | first hloop =>
    refine hloop.reach hc fun n hn => ⟨?_,Nat.lt_succ_of_le StrategyOperation.ahead_le⟩
    have hn := Option.mem_def.mp hn
    rw [hsane.index 0 n hn]
    exact hn
  | @resumed p node updated next path rest hk hget hcommit hpath hloop =>
    have hidx := hsane.index p node hk
    have hwire := Node.commit_wiring hcommit
    have hk' : storage.nodes.get? node.index=some node := by rw [hidx,hk]
    have hleads := NodeStore.leads_save hk' hwire
    have hahead : ∀ n ∈ next, (NodeStore.save storage.nodes updated).get? n.index=some n ∧
        operation.ahead (Leads (NodeStore.save storage.nodes updated)) n.index<operation.ahead (Leads storage.nodes) p := by
      intro n hn
      refine ⟨next_stored hsane hk hcommit hget n hn,?_⟩
      rw [Option.mem_def.mp hn] at hget
      have hlt := (NodeStore.getNext_ahead hc hk' hget).2
      rw [hidx] at hlt
      exact hleads ▸ hlt
    have hreach := hloop.reach (NodeStore.compact_save hc hk' hwire) hahead
    rw [hleads] at hreach
    exact hreach

theorem History.compact {s : StrategyStorage} {lists : List (List Node)} (h : History s lists) :
    ∃ rank, Compact rank s.nodes := by
  obtain ⟨rank,hrank⟩ := h.ascends
  refine ⟨rank,hrank,fun k node hk => ?_⟩
  obtain ⟨l,hl,hlt⟩ := (h.keys.2 k).mp (Option.isSome_iff_exists.mpr ⟨node,hk⟩)
  exact hlt.trans_le (h.short l hl)

theorem Becomes.wiring (h : Becomes node node') : node'.wiring=node.wiring := by
  induction h with
  | refl => rfl
  | tail _ hst ih => exact hst.wiring.trans ih

/-- Only `Init` changes the edges. -/
theorem execute_leads {gas : ℕ} {info : MessageInfo} {s s' : StrategyStorage} {msg : StrategyExecuteMsg}
    {response : StrategyResponse} (hs : Sane s.nodes) (hm : ∀ nodes, msg≠.init nodes)
    (h : execute gas deps env info s msg=.ok (s',response)) : Leads s'.nodes=Leads s.nodes := by
  obtain ⟨_,hsome,horigin⟩ := execute_traces (traces_self hs) hm h
  funext i j
  apply propext
  constructor
  · rintro ⟨node,hn,ht⟩
    obtain ⟨origin,ho,hb⟩ := horigin i node hn
    exact ⟨origin,ho,hb.wiring ▸ ht⟩
  · rintro ⟨origin,ho,ht⟩
    obtain ⟨node,hn⟩ := Option.isSome_iff_exists.mp ((hsome i).trans (Option.isSome_iff_exists.mpr ⟨origin,ho⟩))
    obtain ⟨origin',ho',hb⟩ := horigin i node hn
    obtain rfl := Option.some.inj (ho.symm.trans ho')
    exact ⟨node,hn,hb.wiring.symm ▸ ht⟩

/-! ### What a call adds to the record -/

theorem dispatch_deposits {gas : ℕ} {info : MessageInfo} {s s' : StrategyStorage} {msg : StrategyExecuteMsg}
    {response : StrategyResponse} (h : dispatch gas deps env info s msg=.ok (s',response)) : s'.deposits=s.deposits := by
  cases dispatch_eq_ok h with
  | withdraw _ hw =>
    obtain ⟨_,rfl⟩ := withdraw_keeps hw
    rfl
  | init _ _ => rfl
  | process _ _ => rfl
  | execute _ => rfl
  | update _ => rfl
  | cancel _ => rfl

/-- How much may still be deposited of these denoms until the record overflows. -/
def room (denoms : Finset Denom) (s : StrategyStorage) : ℕ := ∑ x ∈ denoms,(2^128-amountIn x s.deposits)

/-- A call leaves no more room than before, and less if it brings funds. -/
theorem execute_room {denoms : Finset Denom} {gas : ℕ} {info : MessageInfo} {s s' : StrategyStorage}
    {msg : StrategyExecuteMsg} {response : StrategyResponse}
    (h : execute gas deps env info s msg=.ok (s',response)) : room denoms s' ≤ room denoms s ∧
      ∀ x ∈ denoms, amountIn x info.funds≠0 → room denoms s' < room denoms s := by
  obtain ⟨s₁,hd,h⟩ := Except.bind_eq_ok.mp h
  have hroom := deposit_room hd
  simp only [room,dispatch_deposits h]
  exact ⟨Finset.sum_le_sum fun x _ => (hroom x).1,
    fun x hx hne => Finset.sum_lt_sum (fun y _ => (hroom y).1) ⟨x,hx,(hroom x).2 hne⟩⟩

end StrategyContract
end CalcRs
