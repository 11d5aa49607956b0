import CalcRs.Runs.Graph

/-! Which node lists `NodeStore::init` accepts: exactly the acyclic graphs whose nodes are in their places. -/
namespace CalcRs

/-- Only a schedule may have no branch. -/
def Node.HasBranch : Node → Prop
  | .action _ _ _ => True
  | .condition (.schedule _) _ _ _ => True
  | .condition _ _ onSuccess onFailure => onSuccess≠none ∨ onFailure≠none

namespace NodeStore

/-- The edges from the node at each position, an edge that two branches share twice. -/
def edgesFrom (nodes : List Node) (u : ℕ) : List ℕ := (nodes[u]?.map fun node => node.wiring.targets).getD []

/-- How many edges lead to each position. -/
def inDegree (nodes : List Node) (v : ℕ) : ℕ := (nodes.map fun node => node.wiring.targets.count v).sum

/-- Every node is in its place, its edges stay in the list, conditions have branches and nothing goes round. -/
structure Admissible (nodes : List Node) : Prop where
  index : ∀ i (hi : i<nodes.length), nodes[i].index=i
  targets : ∀ node ∈ nodes, ∀ t ∈ node.wiring.targets, t<nodes.length
  branches : ∀ node ∈ nodes, node.HasBranch
  acyclic : Kahn.Acyclic nodes.length (edgesFrom nodes)

section

variable {nodes : List Node}

theorem checkBranches_iff {condition : Condition} {i : ℕ} {onSuccess onFailure : Option ℕ} :
    checkBranches condition onSuccess onFailure=.ok () ↔ (Node.condition condition i onSuccess onFailure).HasBranch := by
  unfold checkBranches
  cases onSuccess <;> cases onFailure <;> cases condition <;> simp [Node.HasBranch,genericErr]

theorem settles_checkBranches (condition : Condition) (onSuccess onFailure : Option ℕ) :
    Fault.Settles (checkBranches condition onSuccess onFailure) := by
  unfold checkBranches
  split_ifs
  · cases condition <;> simp
  · simp

theorem settles_edge (target : Option ℕ) (what : String) (nodeCount : ℕ) : Fault.Settles (edge target what nodeCount) := by
  cases target with
  | none => exact Fault.settles_ok _
  | some t =>
    rw [edge]
    split_ifs
    · exact settles_genericErr _
    · exact Fault.settles_ok _

theorem edge_of_le {target : Option ℕ} (what : String) {nodeCount : ℕ}
    (h : ∀ t ∈ target.toList, t≤(nodeCount-1)%2^16) : edge target what nodeCount=.ok target.toList := by
  cases target with
  | none => rfl
  | some t =>
    rw [edge,if_neg (Nat.not_lt.mpr (h t (by simp)))]
    rfl

/-- The checks on one node's edges. -/
theorem edges_ok_iff {nodeCount : ℕ} {node : Node} :
    (∃ ts, edges nodeCount node=.ok ts) ↔ node.HasBranch ∧ ∀ t ∈ node.wiring.targets, t≤(nodeCount-1)%2^16 := by
  constructor
  · rintro ⟨ts,h⟩
    obtain ⟨rfl,hb⟩ := edges_eq_ok h
    refine ⟨?_,hb⟩
    cases node with
    | action a i next => trivial
    | condition c i s f =>
      obtain ⟨_,hc,_⟩ := Except.bind_eq_ok.mp h
      exact checkBranches_iff.mp hc
  · rintro ⟨hbranch,hb⟩
    cases node with
    | action a i next => exact ⟨_,edge_of_le "Next" hb⟩
    | condition c i s f =>
      have hs := edge_of_le "On success" fun t ht => hb t (List.mem_append_left _ ht)
      have hf := edge_of_le "On fail" fun t ht => hb t (List.mem_append_right _ ht)
      refine ⟨s.toList ++ f.toList,?_⟩
      rw [edges,checkBranches_iff.mpr hbranch,Except.ok_bind,hs,Except.ok_bind,hf,Except.ok_bind]
      rfl

theorem settles_edges (nodeCount : ℕ) (node : Node) : Fault.Settles (edges nodeCount node) := by
  cases node with
  | action a i next => exact settles_edge _ _ _
  | condition c i s f =>
    rw [edges,Fault.settles_bind]
    refine ⟨settles_checkBranches _ _ _,fun _ _ => Fault.settles_bind.mpr ⟨settles_edge _ _ _,fun _ _ => ?_⟩⟩
    exact Fault.settles_bind.mpr ⟨settles_edge _ _ _,fun _ _ => Fault.settles_pure _⟩

theorem edgesFrom_lt (h : ∀ node ∈ nodes, ∀ t ∈ node.wiring.targets, t<nodes.length) :
    ∀ u<nodes.length, ∀ v ∈ edgesFrom nodes u, v<nodes.length := by
  intro u hu v hv
  rw [edgesFrom,List.getElem?_eq_getElem hu] at hv
  exact h _ (List.getElem_mem hu) v hv

theorem inDegree_eq (nodes : List Node) (v : ℕ) :
    inDegree nodes v=∑ u ∈ Finset.range nodes.length,(edgesFrom nodes u).count v := by
  rw [inDegree,sum_map_eq_sum_range]
  refine Finset.sum_congr rfl fun u _ => ?_
  rw [edgesFrom]
  cases nodes[u]? <;> rfl

variable [Crates] {deps : Deps} {env : Env} {affiliates : List Affiliate} {inits : List Node}

theorem initNode_of_accepts {nodeCount i : ℕ} {node initialised : Node} {ts : List ℕ} (state : InitState)
    (hi : node.index=i%2^16) (he : edges nodeCount node=.ok ts) (hn : node.init deps env affiliates=.ok initialised) :
    ∃ state', initNode deps env affiliates nodeCount state (node,i)=.ok state' := by
  dsimp only [initNode]
  rw [if_neg (not_not_intro hi),he,Except.ok_bind,hn,Except.ok_bind]
  exact ⟨_,rfl⟩

theorem settles_initNode {nodeCount i : ℕ} {node initialised : Node} (state : InitState)
    (hn : node.init deps env affiliates=.ok initialised) :
    Fault.Settles (initNode deps env affiliates nodeCount state (node,i)) := by
  dsimp only [initNode]
  split_ifs
  · exact settles_genericErr _
  · rw [Fault.settles_bind]
    refine ⟨settles_edges _ _,fun ts _ => ?_⟩
    rw [hn,Except.ok_bind]
    exact Fault.settles_pure _

/-- The loop returns exactly when each node is in its place and its edges pass. -/
theorem initLoop_ok_iff {nodeCount k : ℕ}
    (hinit : List.Forall₂ (fun node initialised => node.init deps env affiliates=.ok initialised) nodes inits)
    (state : InitState) :
    (∃ state', (nodes.zipIdx k).foldlM (initNode deps env affiliates nodeCount) state=.ok state') ↔
      ∀ i (hi : i<nodes.length), nodes[i].index=(k+i)%2^16 ∧ ∃ ts, edges nodeCount nodes[i]=.ok ts := by
  induction hinit generalizing k state with
  | nil => simp
  | @cons node initialised nodes inits hn _ ih =>
    rw [List.zipIdx_cons,List.foldlM_cons]
    constructor
    · rintro ⟨state',h⟩ i hi
      obtain ⟨state₁,h1,h⟩ := Except.bind_eq_ok.mp h
      cases i with
      | zero =>
        simp only [initNode,genericErr,Except.ite_error_eq_ok,not_not] at h1
        obtain ⟨hi,h1⟩ := h1
        obtain ⟨ts,he,_⟩ := Except.bind_eq_ok.mp h1
        exact ⟨hi,ts,he⟩
      | succ i =>
        have := (ih state₁).mp ⟨state',h⟩ i (by simpa using hi)
        simpa [Nat.add_assoc,Nat.add_comm 1] using this
    · intro hall
      obtain ⟨hi,ts,he⟩ := hall 0 (by simp)
      obtain ⟨state₁,h1⟩ := initNode_of_accepts state hi he hn
      obtain ⟨state',h⟩ := (@ih (k+1) state₁).mpr fun i hi => by
        have := hall (i+1) (by simpa using hi)
        simpa [Nat.add_assoc,Nat.add_comm 1] using this
      exact ⟨state',Except.bind_eq_ok.mpr ⟨state₁,h1,h⟩⟩

theorem settles_initLoop {nodeCount k : ℕ}
    (hinit : List.Forall₂ (fun node initialised => node.init deps env affiliates=.ok initialised) nodes inits)
    (state : InitState) : Fault.Settles ((nodes.zipIdx k).foldlM (initNode deps env affiliates nodeCount) state) := by
  induction hinit generalizing k state with
  | nil => exact Fault.settles_pure _
  | cons hn _ ih =>
    rw [List.zipIdx_cons,List.foldlM_cons,Fault.settles_bind]
    exact ⟨settles_initNode state hn,fun _ _ => ih _⟩

/-- What the loop leaves is the graph of the list and the size of its initialised nodes. -/
theorem initLoop_graph {store : Table ℕ Node} {state : InitState}
    (hinit : List.Forall₂ (fun node initialised => node.init deps env affiliates=.ok initialised) nodes inits)
    (h : nodes.zipIdx.foldlM (initNode deps env affiliates nodes.length) ⟨store,fun _ => [],fun _ => 0,0⟩=.ok state) :
    state.adjList=edgesFrom nodes ∧ state.inDegrees=inDegree nodes ∧ state.strategySize=(inits.map Node.size).sum := by
  obtain ⟨inits',hlen,hall,_,hadj,hdeg,hsize⟩ := initLoop_eq_ok h
  have hsame : inits'=inits := by
    refine List.ext_getElem (hlen.trans hinit.length_eq) fun i hi hi' => ?_
    have hi₀ : i<nodes.length := hlen ▸ hi
    exact Except.ok.inj ((hall i hi₀ hi).init.symm.trans (hinit.get hi₀ hi'))
  refine ⟨funext fun u => ?_,funext fun v => ?_,?_⟩
  · rw [hadj,if_neg (Nat.not_lt_zero u),Nat.sub_zero]
    rfl
  · rw [hdeg,Nat.zero_add]
    rfl
  · rw [hsize,Nat.zero_add,hsame]

/-- Once the loop has returned, the outcome is that of the walk over the graph. -/
theorem init_of_loop {store : Table ℕ Node} {state : InitState}
    (hinit : List.Forall₂ (fun node initialised => node.init deps env affiliates=.ok initialised) nodes inits)
    (hsize : (inits.map Node.size).sum≤MAX_STRATEGY_SIZE)
    (htargets : ∀ node ∈ nodes, ∀ t ∈ node.wiring.targets, t<nodes.length)
    (h : nodes.zipIdx.foldlM (initNode deps env affiliates nodes.length) ⟨store,fun _ => [],fun _ => 0,0⟩=.ok state) :
    (Kahn.Acyclic nodes.length (edgesFrom nodes) ∧ init deps env affiliates store nodes=.ok state.store) ∨
    (¬Kahn.Acyclic nodes.length (edgesFrom nodes) ∧ ∃ e, init deps env affiliates store nodes=.error (.err e)) := by
  obtain ⟨hadj,hdeg,hstate⟩ := initLoop_graph hinit h
  obtain ⟨⟨order,hvisits,_,_⟩,hacyclic⟩ := @Kahn.walk_all_iff (StdError) nodes.length (edgesFrom nodes) (inDegree nodes)
    (edgesFrom_lt htargets) (inDegree_eq nodes)
  have hwalk : Kahn.walk (edgesFrom nodes) (nodes.length+1) (inDegree nodes)
      (Kahn.sources nodes.length (inDegree nodes)) 0=(.ok order.length : Outcome ℕ) := by
    rw [Kahn.walk_eq_visits,hvisits,Except.map_ok,Nat.zero_add]
  rw [hwalk,Except.ok.injEq] at hacyclic
  have heq : init deps env affiliates store nodes=if order.length≠nodes.length then
      genericErr "Strategy contains a cycle that could cause infinite recursion" else .ok state.store := by
    unfold init
    dsimp only
    rw [h,Except.ok_bind,if_neg (by rw [hstate]; exact Nat.not_lt.mpr hsize),hadj,hdeg,hwalk,Except.ok_bind]
    rfl
  rw [heq]
  by_cases hall : order.length=nodes.length
  · exact .inl ⟨hacyclic.mp hall,if_neg (not_not_intro hall)⟩
  · exact .inr ⟨fun hc => hall (hacyclic.mpr hc),_,if_pos hall⟩

/-- Among lists whose nodes initialise and are small enough, exactly the admissible ones are accepted; no list makes
the check abort, and its work list takes each node at most once. -/
theorem init_ok_iff (store : Table ℕ Node)
    (hinit : List.Forall₂ (fun node initialised => node.init deps env affiliates=.ok initialised) nodes inits)
    (hsize : (inits.map Node.size).sum≤MAX_STRATEGY_SIZE) :
    ((∃ store', init deps env affiliates store nodes=.ok store') ↔ Admissible nodes) ∧
    Fault.Settles (init deps env affiliates store nodes) ∧
    ((∀ node ∈ nodes, ∀ t ∈ node.wiring.targets, t<nodes.length) → ∃ order : List ℕ,
      (Kahn.visits (edgesFrom nodes) (nodes.length+1) (inDegree nodes) (Kahn.sources nodes.length (inDegree nodes)) :
        Outcome (List ℕ))=.ok order ∧ order.Nodup ∧ ∀ v ∈ order, v<nodes.length) := by
  have hshort : nodes.length≤MAX_STRATEGY_SIZE := hinit.length_eq ▸ (Node.length_le_size inits).trans hsize
  rw [MAX_STRATEGY_SIZE] at hshort
  have hloop : (∃ state', (nodes.zipIdx 0).foldlM (initNode deps env affiliates nodes.length)
      ⟨store,fun _ => [],fun _ => 0,0⟩=.ok state') ↔ _ := initLoop_ok_iff hinit _
  -- positions and targets are the same whether or not they are cut to 16 bits
  have hchecks : (∀ i (hi : i<nodes.length), nodes[i].index=(0+i)%2^16 ∧ ∃ ts, edges nodes.length nodes[i]=.ok ts) ↔
      (∀ i (hi : i<nodes.length), nodes[i].index=i) ∧ (∀ node ∈ nodes, ∀ t ∈ node.wiring.targets, t<nodes.length) ∧
        ∀ node ∈ nodes, node.HasBranch := by
    have hmod : ∀ i<nodes.length, (0+i)%2^16=i := fun i hi => by omega
    have hlast : ∀ i<nodes.length, ∀ t, t≤(nodes.length-1)%2^16 ↔ t<nodes.length := fun i hi t => by omega
    constructor
    · refine fun h => ⟨fun i hi => (h i hi).1.trans (hmod i hi),fun node hn t ht => ?_,fun node hn => ?_⟩
      · obtain ⟨i,hi,rfl⟩ := List.getElem_of_mem hn
        exact (hlast i hi t).mp ((edges_ok_iff.mp (h i hi).2).2 t ht)
      · obtain ⟨i,hi,rfl⟩ := List.getElem_of_mem hn
        exact (edges_ok_iff.mp (h i hi).2).1
    · rintro ⟨hindex,htargets,hbranches⟩ i hi
      have hn := List.getElem_mem hi
      exact ⟨(hindex i hi).trans (hmod i hi).symm,
        edges_ok_iff.mpr ⟨hbranches _ hn,fun t ht => (hlast i hi t).mpr (htargets _ hn t ht)⟩⟩
  rw [hchecks] at hloop
  refine ⟨⟨fun hok => ?_,fun h => ?_⟩,?_,fun htargets => ?_⟩
  · obtain ⟨store',h⟩ := hok
    obtain ⟨state,hstate,_⟩ := Except.bind_eq_ok.mp h
    obtain ⟨hindex,htargets,hbranches⟩ := hloop.mp ⟨state,hstate⟩
    rcases init_of_loop hinit hsize htargets hstate with ⟨hacyclic,_⟩ | ⟨_,e,he⟩
    · exact ⟨hindex,htargets,hbranches,hacyclic⟩
    · rw [he] at h
      cases h
  · obtain ⟨state,hstate⟩ := hloop.mpr ⟨h.index,h.targets,h.branches⟩
    rcases init_of_loop hinit hsize h.targets hstate with ⟨_,hok⟩ | ⟨hcycle,_⟩
    · exact ⟨_,hok⟩
    · exact absurd h.acyclic hcycle
  · rcases hstate : nodes.zipIdx.foldlM (initNode deps env affiliates nodes.length)
      ⟨store,fun _ => [],fun _ => 0,0⟩ with f | state
    · exact Fault.settles_bind.mpr ⟨settles_initLoop hinit _,fun state h => by rw [hstate] at h; cases h⟩
    · obtain ⟨_,htargets,_⟩ := hloop.mp ⟨state,hstate⟩
      rcases init_of_loop hinit hsize htargets hstate with ⟨_,hok⟩ | ⟨_,e,he⟩
      · rw [hok]
        exact Fault.settles_ok _
      · rw [he]
        exact Fault.settles_err e
  · exact (Kahn.walk_all_iff (edgesFrom_lt htargets) (inDegree_eq nodes)).1

end

section

attribute [local instance] Crates.plain

/-- A condition both of whose branches lead to the same order. -/
def diamond : List Node :=
  [.condition (.blocksCompleted 10) 0 (some 1) (some 1),
    .action (.limitOrder ⟨"pair","rune",.fixed 100,.base,.fixed .one,none,none⟩) 1 none]

theorem init_ok_iff_diamond : Admissible diamond := by
  have hinit : List.Forall₂ (fun node initialised => Node.init node Deps.silent ⟨⟨1,⟨1⟩⟩,"strategy"⟩ []=.ok initialised)
      diamond diamond := .cons rfl (.cons (by decide +kernel) .nil)
  have hsize : (diamond.map Node.size).sum≤MAX_STRATEGY_SIZE := by decide
  refine (init_ok_iff Table.empty hinit hsize).1.mp ⟨Table.ofList diamond,?_⟩
  decide +kernel

end

end NodeStore
end CalcRs
