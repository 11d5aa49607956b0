import CalcRs.Runs.Chain
import CalcRs.Runs.Messages

/-! Invariants of `Process` calls on any store, well formed or not: a call only replaces a stored node
by what a stage of that node returns. -/
namespace CalcRs

/-- Every node is stored under its index and no node leads to itself. -/
structure Sane (nodes : Table ℕ Node) : Prop where
  index : ∀ k node, nodes.get? k=some node → node.index=k
  noLoop : ∀ k node, nodes.get? k=some node → node.index ∉ node.wiring.targets

namespace NodeStore

variable {nodes : Table ℕ Node} {node : Node}

theorem get?_save_self : (save nodes node).get? node.index=some node := by simp [get?_save]

theorem save_stored (h : nodes.get? node.index=some node) : save nodes node=nodes := by
  refine Table.ext_get? fun k => ?_
  rw [get?_save]
  split_ifs with hk
  · rw [hk,h]
  · rfl

theorem sane_save (h : Sane nodes) (hn : nodes.get? node.index=some node) {node' : Node}
    (hw : node'.wiring=node.wiring) : Sane (save nodes node') := by
  have hi := Node.index_congr hw
  refine ⟨fun k n hk => ?_,fun k n hk => ?_⟩
  · rw [get?_save] at hk
    split_ifs at hk with he
    · rw [← Option.some.inj hk,he]
    · exact h.index k n hk
  · rw [get?_save] at hk
    split_ifs at hk with he
    · rw [← Option.some.inj hk,hi,hw]
      exact h.noLoop _ _ hn
    · exact h.noLoop k n hk

theorem isSome_save (hn : (nodes.get? node.index).isSome) (k : ℕ) :
    ((save nodes node).get? k).isSome=(nodes.get? k).isSome := by
  rw [get?_save]
  split_ifs with hk
  · rw [hk,hn]
    rfl
  · rfl

variable [Crates] {next : Node}

theorem nextIndex_mem {deps : Deps} {env : Env} {k : ℕ} (h : node.nextIndex deps env=.ok (some k)) :
    k ∈ node.wiring.targets := by
  have hn := StrategyContract.nextIndex_eq_ok h
  cases node with
  | action a i next =>
    obtain rfl : next=some k := hn.symm
    simp [Node.wiring,Wiring.targets]
  | condition c i s f =>
    simp only [StrategyContract.Visit.next] at hn
    simp only [Node.wiring,Wiring.targets,List.mem_append,Option.mem_toList]
    split_ifs at hn
    · exact .inl hn.symm
    · exact .inr hn.symm

/-- The node that `get_next` finds is stored, and it is another node. -/
theorem getNext_stored {deps : Deps} {env : Env} {operation : StrategyOperation} (hs : Sane nodes)
    (hl : node.index ∉ node.wiring.targets)
    (h : Fault.okay (getNext deps env nodes operation node)=.ok (some next)) :
    nodes.get? next.index=some next ∧ next.index≠node.index := by
  obtain ⟨k,hk,hnext⟩ := getNext_eq_some h
  obtain rfl : next.index=k := hs.index k next hk
  refine ⟨hk,?_⟩
  obtain ⟨_,he⟩ | ⟨_,hn⟩ := hnext
  · omega
  · exact fun he => hl (he ▸ nextIndex_mem hn)

end NodeStore

namespace StrategyContract

variable [Crates] {deps : Deps} {env : Env} {operation : StrategyOperation}

/-- How a call ends, given what held of the store whenever a node was about to run. -/
def Ends (operation : StrategyOperation) (deps : Deps) (env : Env) (I : Table ℕ Node → Prop) (r : Processed) : Prop :=
  match r.progress with
  | .messages i messages previous => ∃ nodes node node', I nodes ∧ nodes.get? i=some node ∧ node.index=i ∧
      run operation node deps env=.ok (messages,node') ∧ messages≠[] ∧ r.nodes=NodeStore.save nodes node' ∧
      previous=i ∧ r.executed.getLast?=some node
  | .failed i error => I r.nodes ∧ ∃ node, r.nodes.get? i=some node ∧ node.index=i ∧
      run operation node deps env=.error (.err error) ∧ r.executed.getLast?=some node
  | .finished _ => I r.nodes

theorem Ends.cons {I : Table ℕ Node → Prop} {r : Processed} (h : Ends operation deps env I r) (node : Node)
    (left : List Visit) : Ends operation deps env I { r with executed := node :: r.executed,left := left } := by
  unfold Ends at h ⊢
  cases hp : r.progress with
  | messages i ms q =>
    simp only [hp] at h ⊢
    obtain ⟨nodes,last,node',h1,h2,h3,h4,h5,h6,h7,hlast⟩ := h
    exact ⟨nodes,last,node',h1,h2,h3,h4,h5,h6,h7,by rw [List.getLast?_cons,hlast]; rfl⟩
  | failed i e =>
    simp only [hp] at h ⊢
    obtain ⟨hi,last,h1,h2,h3,hlast⟩ := h
    exact ⟨hi,last,h1,h2,h3,by rw [List.getLast?_cons,hlast]; rfl⟩
  | finished p =>
    simp only [hp] at h ⊢
    exact h

/-- The executed nodes were stored in such a store, too. -/
structure Leaves (operation : StrategyOperation) (deps : Deps) (env : Env) (I : Table ℕ Node → Prop)
    (r : Processed) : Prop where
  ends : Ends operation deps env I r
  executed : ∀ node ∈ r.executed, ∃ nodes, I nodes ∧ nodes.get? node.index=some node

/-- What holds of the store, is kept by every commit and by every node that runs without messages,
holds whenever a node of the call is about to run. -/
theorem Loops.invariant {I : Table ℕ Node → Prop} (hsane : ∀ nodes, I nodes → Sane nodes)
    (hrun : ∀ nodes node node', I nodes → nodes.get? node.index=some node →
      run operation node deps env=.ok ([],node') → I (NodeStore.save nodes node'))
    {nodes : Table ℕ Node} {stored : Option (List String)} {path : List String} {next : Option Node} {r : Processed}
    (hi : I nodes) (hnext : ∀ node ∈ next, nodes.get? node.index=some node)
    (h : Loops operation deps env stored nodes path next r) : Leaves operation deps env I r := by
  induction h with
  | finished => exact ⟨hi,by simp⟩
  | @failed nodes path current error herr =>
    have hcur := hnext _ rfl
    have hsame := NodeStore.save_stored hcur
    refine ⟨⟨?_,current,?_,rfl,herr,rfl⟩,by simpa using ⟨nodes,hi,hcur⟩⟩
    · rwa [hsame]
    · rw [hsame,hcur]
  | @messages nodes path current node messages hex hm =>
    have hcur := hnext _ rfl
    exact ⟨⟨nodes,current,node,hi,hcur,rfl,hex,hm,rfl,run_index hex,rfl⟩,by simpa using ⟨nodes,hi,hcur⟩⟩
  | @next nodes path current node next rest hex hget hrest ih =>
    have hcur := hnext _ rfl
    have hi' := hrun nodes current node hi hcur hex
    have hs' := hsane _ hi'
    have hrest' := ih hi' fun n hn => by
      rw [Option.mem_def.mp hn] at hget
      exact (NodeStore.getNext_stored hs' (hs'.noLoop _ _ NodeStore.get?_save_self) hget).1
    refine ⟨hrest'.ends.cons current _,fun n hn => ?_⟩
    rcases List.mem_cons.mp hn with rfl | hn
    · exact ⟨nodes,hi,hcur⟩
    · exact hrest'.executed n hn

/-- The node that a call goes on with after a commit is stored beside the committed one. -/
theorem next_stored {p : ℕ} {nodes : Table ℕ Node} {node updated : Node} {next : Option Node} (hs : Sane nodes)
    (hk : nodes.get? p=some node) (hc : node.commit deps env=.ok updated)
    (hget : Fault.okay (NodeStore.getNext deps env nodes operation node)=.ok next) :
    ∀ n ∈ next, (NodeStore.save nodes updated).get? n.index=some n := by
  intro n hn
  rw [Option.mem_def.mp hn] at hget
  obtain ⟨hst,hne⟩ := NodeStore.getNext_stored hs (hs.noLoop _ _ hk) hget
  rw [NodeStore.get?_save,if_neg (by rw [Node.index_congr (Node.commit_wiring hc)]; exact hne)]
  exact hst

theorem process_invariant {I : Table ℕ Node → Prop} (hsane : ∀ nodes, I nodes → Sane nodes)
    (hrun : ∀ nodes node node', I nodes → nodes.get? node.index=some node →
      run operation node deps env=.ok ([],node') → I (NodeStore.save nodes node'))
    {gas : ℕ} {storage : StrategyStorage} {previous : Option ℕ} {r : Processed}
    (hbase : previous=none → I storage.nodes)
    (hcommit : ∀ p node node', previous=some p → storage.nodes.get? p=some node → node.commit deps env=.ok node' →
      Sane storage.nodes ∧ I (NodeStore.save storage.nodes node'))
    (h : process gas deps env storage operation previous=.ok r) : Leaves operation deps env I r := by
  cases process_eq_ok h with
  | first hloop =>
    have hi := hbase rfl
    refine hloop.invariant hsane hrun hi fun node hn => ?_
    have hn' := Option.mem_def.mp hn
    rw [(hsane _ hi).index 0 node hn']
    exact hn'
  | @resumed p node updated next path rest hk hget hc hpath hloop =>
    obtain ⟨hs,hi⟩ := hcommit p node updated rfl hk hc
    have hrest := hloop.invariant hsane hrun hi (next_stored hs hk hc hget)
    exact ⟨hrest.ends,hrest.executed⟩

/-- One stage of a node. -/
inductive Stage (node node' : Node) : Prop
  | run (operation : StrategyOperation) (deps : Deps) (env : Env) (messages : List CosmosMsg) :
      run operation node deps env=.ok (messages,node') → Stage node node'
  | commit (deps : Deps) (env : Env) : node.commit deps env=.ok node' → Stage node node'

theorem Stage.wiring {node node' : Node} (h : Stage node node') : node'.wiring=node.wiring := by
  cases h with
  | run _ _ _ _ h => exact run_wiring h
  | commit _ _ h => exact Node.commit_wiring h

theorem Stage.index {node node' : Node} (h : Stage node node') : node'.index=node.index :=
  Node.index_congr h.wiring

/-- What every stage of a stored node keeps, a whole call keeps. -/
theorem process_preserves {I : Table ℕ Node → Prop} (hsane : ∀ nodes, I nodes → Sane nodes)
    (hstage : ∀ nodes node node', I nodes → nodes.get? node.index=some node → Stage node node' →
      I (NodeStore.save nodes node'))
    {gas : ℕ} {storage : StrategyStorage} {previous : Option ℕ} {r : Processed} (hi : I storage.nodes)
    (h : process gas deps env storage operation previous=.ok r) :
    I r.nodes ∧ ∀ node ∈ r.executed, ∃ nodes, I nodes ∧ nodes.get? node.index=some node := by
  have hs := hsane _ hi
  obtain ⟨hends,hexec⟩ := process_invariant hsane
    (fun nodes node node' hi hn hr => hstage nodes node node' hi hn (.run operation deps env [] hr)) (fun _ => hi)
    (fun p node node' _ hk hc => ⟨hs,hstage _ node node' hi (by rw [hs.index p node hk]; exact hk)
      (.commit deps env hc)⟩) h
  refine ⟨?_,hexec⟩
  unfold Ends at hends
  cases hp : r.progress with
  | messages i ms q =>
    simp only [hp] at hends
    obtain ⟨nodes,node,node',hi,hn,hidx,hr,_,he,_⟩ := hends
    rw [he]
    exact hstage nodes node node' hi (hidx ▸ hn) (.run operation deps env ms hr)
  | failed i e =>
    simp only [hp] at hends
    exact hends.1
  | finished p =>
    simp only [hp] at hends
    exact hends

/-- The stages of a node, one after the other. -/
abbrev Becomes : Node → Node → Prop := Relation.ReflTransGen Stage

/-- Every stored node is a later state of the node that stood under its key. -/
def Traces (origins : ℕ → Option Node) (nodes : Table ℕ Node) : Prop :=
  Sane nodes ∧ (∀ k, (nodes.get? k).isSome=(origins k).isSome) ∧
    ∀ k node, nodes.get? k=some node → ∃ origin, origins k=some origin ∧ Becomes origin node

theorem traces_self {nodes : Table ℕ Node} (h : Sane nodes) : Traces nodes.get? nodes :=
  ⟨h,fun _ => rfl,fun _ node hn => ⟨node,hn,.refl⟩⟩

theorem traces_save {origins : ℕ → Option Node} {nodes : Table ℕ Node} {node node' : Node}
    (h : Traces origins nodes) (hn : nodes.get? node.index=some node) (hs : Stage node node') :
    Traces origins (NodeStore.save nodes node') := by
  refine ⟨NodeStore.sane_save h.1 hn hs.wiring,fun k => ?_,fun k n hk => ?_⟩
  · rw [NodeStore.isSome_save (by rw [hs.index,hn]; rfl),h.2.1]
  · rw [NodeStore.get?_save] at hk
    split_ifs at hk with he
    · obtain ⟨origin,ho,hb⟩ := h.2.2 _ _ hn
      rw [he,hs.index]
      exact ⟨origin,ho,Option.some.inj hk ▸ hb.tail hs⟩
    · exact h.2.2 k n hk

theorem process_traces {origins : ℕ → Option Node} {gas : ℕ} {storage : StrategyStorage} {previous : Option ℕ}
    {r : Processed} (hi : Traces origins storage.nodes)
    (h : process gas deps env storage operation previous=.ok r) :
    Traces origins r.nodes ∧ ∀ node ∈ r.executed, ∃ origin, origins node.index=some origin ∧ Becomes origin node := by
  obtain ⟨h1,h2⟩ := process_preserves (I := Traces origins) (fun _ h => h.1)
    (fun _ _ _ hi hn hs => traces_save hi hn hs) hi h
  refine ⟨h1,fun node hn => ?_⟩
  obtain ⟨nodes,ht,hk⟩ := h2 node hn
  exact ht.2.2 _ _ hk

/-- The same over a run, from its first call on. -/
theorem run_traces {origins : ℕ → Option Node} {storage : StrategyStorage} {turns : List Turn} {c : Chain}
    (hi : Traces origins storage.nodes) (h : Chain.run operation storage turns=.ok c) :
    Traces origins c.storage.nodes ∧
      ∀ node ∈ c.executed, ∃ origin, origins node.index=some origin ∧ Becomes origin node := by
  refine Except.foldlM_invariant (fun c : Chain => Traces origins c.storage.nodes ∧
    ∀ node ∈ c.executed, ∃ origin, origins node.index=some origin ∧ Becomes origin node) _
    (fun c t c' hc hstep => ?_) turns _ c ⟨hi,by simp [Chain.start]⟩ h
  obtain ⟨_,rfl⟩ | ⟨previous,r,_,hp,hstored,_,hexec,_⟩ := Chain.step_eq_ok hstep
  · exact hc
  · obtain ⟨h1,h2⟩ := process_traces hc.1 hp
    rw [hstored,hexec]
    refine ⟨h1,fun node hn => ?_⟩
    rcases List.mem_append.mp hn with hn | hn
    · exact hc.2 node hn
    · exact h2 node hn

/-! ### The other messages -/

/-- Only `Init` and `Process` touch the node store. -/
theorem execute_nodes {gas : ℕ} {info : MessageInfo} {storage storage' : StrategyStorage}
    {msg : StrategyExecuteMsg} {response : StrategyResponse}
    (h : execute gas deps env info storage msg=.ok (storage',response)) :
    storage'.affiliates=storage.affiliates ∧
      match msg with
      | .init nodes => NodeStore.init deps env storage.affiliates storage.nodes nodes=.ok storage'.nodes
      | .process operation previous => ∃ r deposits, storage'.nodes=r.nodes ∧ storage'.path=r.path ∧
          process gas deps env { storage with deposits := deposits } operation previous=.ok r
      | _ => storage'.nodes=storage.nodes ∧ storage'.path=storage.path := by
  obtain ⟨deposits,h⟩ := execute_eq_ok h
  cases h with
  | init _ hi => exact ⟨rfl,hi⟩
  | process _ hp => exact ⟨rfl,_,deposits,rfl,rfl,hp⟩
  | withdraw _ hw =>
    obtain ⟨_,rfl⟩ := withdraw_keeps hw
    exact ⟨rfl,rfl,rfl⟩
  | execute _ => exact ⟨rfl,rfl,rfl⟩
  | update _ => exact ⟨rfl,rfl,rfl⟩
  | cancel _ => exact ⟨rfl,rfl,rfl⟩

end StrategyContract
end CalcRs
