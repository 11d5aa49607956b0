import CalcRs.Runs.Loop

/-! One `Process` call on a store that holds a well formed graph: the nodes it executes lie on a path
of the graph, and it stops where it says it does. -/
namespace CalcRs

/-- A store whose keys are exactly the positions of a node list, with the wiring of each node. -/
def Wired (wirings : List Wiring) (nodes : Table ℕ Node) : Prop :=
  ∀ k, (nodes.get? k).map Node.wiring=wirings[k]?

namespace Wired

variable {wirings : List Wiring} {nodes : Table ℕ Node} {node : Node} {k : ℕ}

theorem get? (h : Wired wirings nodes) (hk : nodes.get? k=some node) : wirings[k]?=some node.wiring := by
  rw [← h k,hk]
  rfl

theorem index (h : Wired wirings nodes) (hf : NodeStore.WellFormed wirings) (hk : nodes.get? k=some node) :
    node.index=k ∧ k<wirings.length := by
  obtain ⟨hlt,heq⟩ := List.getElem?_eq_some_iff.mp (h.get? hk)
  exact ⟨by rw [← Node.wiring_index,← heq,hf.index k hlt],hlt⟩

theorem lookup (h : Wired wirings nodes) (hk : k<wirings.length) : ∃ node, nodes.get? k=some node := by
  have := h k
  rw [List.getElem?_eq_getElem hk] at this
  obtain ⟨node,hn,_⟩ := Option.map_eq_some_iff.mp this
  exact ⟨node,hn⟩

theorem lookup_none (h : Wired wirings nodes) (hk : wirings.length≤k) : nodes.get? k=none := by
  have := h k
  rw [List.getElem?_eq_none_iff.mpr hk] at this
  simpa using this

theorem save (h : Wired wirings nodes) (hn : wirings[node.index]?=some node.wiring) :
    Wired wirings (NodeStore.save nodes node) := fun j => by
  rw [NodeStore.get?_save]
  split_ifs with hj
  · rw [hj,hn]
    rfl
  · exact h j

theorem of_lookup {inits : List Node} (hg : ∀ k, nodes.get? k=inits[k]?) : Wired (inits.map Node.wiring) nodes :=
  fun k => by rw [hg,List.getElem?_map]

end Wired

namespace StrategyContract

/-- `visits` is a path of successors that starts at `start` and leaves for `stop`. -/
def Follows (step : Visit → Option ℕ) : Option ℕ → List Visit → Option ℕ → Prop
  | start,[],stop => start=stop
  | start,v :: visits,stop => start=some v.node.index ∧ Follows step (step v) visits stop

theorem Follows.append {step : Visit → Option ℕ} {xs ys : List Visit} {a b c : Option ℕ}
    (hx : Follows step a xs b) (hy : Follows step b ys c) : Follows step a (xs ++ ys) c := by
  induction xs generalizing a with
  | nil =>
    obtain rfl : a=b := hx
    exact hy
  | cons v xs ih => exact ⟨hx.1,ih hx.2⟩

/-- The text of the indices of the executed nodes. -/
def trail (executed : List Node) : List String := executed.map fun node => toString node.index

theorem trail_append (xs ys : List Node) : trail (xs ++ ys)=trail xs ++ trail ys := List.map_append

end StrategyContract

variable [Crates]

namespace StrategyContract

/-- Where the graph leads from a node in the state in which the run leaves it: `next` for an action,
`on_success` for a condition that is satisfied, `on_failure` for one that is not or errs. -/
def Visit.next (v : Visit) : Option ℕ :=
  match v.node with
  | .action _ _ next => next
  | .condition c _ onSuccess onFailure => if c.isSatisfied v.deps v.env=.ok true then onSuccess else onFailure

/-- The successor in a run of either kind over a list of `count` nodes: `Cancel` takes every node. -/
def Visit.following (count : ℕ) (operation : StrategyOperation) (v : Visit) : Option ℕ :=
  match operation with
  | .execute => v.next
  | .cancel => if v.node.index+1<count then some (v.node.index+1) else none

variable {deps : Deps} {env : Env} {operation : StrategyOperation} {wirings : List Wiring}

/-- The node whose commit the next `Process` call begins with. -/
def Progress.next : Progress → Option ℕ
  | .messages _ _ previous => some previous
  | .failed index _ => some index
  | .finished _ => none

/-- The messages of the node that a call ended with. -/
def Progress.emitted : Progress → List CosmosMsg
  | .messages _ ms _ => ms
  | _ => []

theorem nextIndex_eq_ok {node : Node} {o : Option ℕ} (h : node.nextIndex deps env=.ok o) :
    o=Visit.next ⟨node,deps,env⟩ := by
  cases node with
  | action a i next => exact (Except.ok.inj h).symm
  | condition c i s f =>
    simp only [Node.nextIndex] at h
    simp only [Visit.next]
    rcases hc : c.isSatisfied deps env with (e | _ | _) | b
    · simpa [hc,Fault.unwrapOr_err] using h.symm
    · simp [hc,Fault.unwrapOr,Fault.attempt] at h
    · simp [hc,Fault.unwrapOr,Fault.attempt] at h
    · cases b <;> simpa [hc] using h.symm

/-- The successors of a node of a well formed graph are in the graph, further up in its numbering. -/
theorem following_spec {rank : ℕ → ℕ}
    (hr : ∀ u<wirings.length, ∀ v ∈ (wirings[u]?.map Wiring.targets).getD [], v<wirings.length ∧ rank u < rank v)
    {v : Visit} (hv : wirings[v.node.index]?=some v.node.wiring) {k : ℕ} (hk : v.next=some k) :
    k<wirings.length ∧ rank v.node.index < rank k := by
  obtain ⟨hlt,_⟩ := List.getElem?_eq_some_iff.mp hv
  refine hr _ hlt k ?_
  rw [hv]
  obtain ⟨node,deps,env⟩ := v
  cases node with
  | action a i next =>
    obtain rfl : next=some k := hk
    simp [Node.wiring,Wiring.targets]
  | condition c i s f =>
    simp only [Visit.next] at hk
    simp only [Node.wiring,Wiring.targets,Option.map_some,Option.getD_some,List.mem_append,Option.mem_toList]
    split_ifs at hk
    · exact .inl hk
    · exact .inr hk

/-- `get_next` finds the stored successor of a node of a well formed graph. -/
theorem getNext_eq_ok {nodes : Table ℕ Node} {node : Node} {o : Option Node} (hf : NodeStore.WellFormed wirings)
    (hw : Wired wirings nodes) (hn : wirings[node.index]?=some node.wiring)
    (h : Fault.okay (NodeStore.getNext deps env nodes operation node)=.ok o) :
    o=(Visit.following wirings.length operation ⟨node,deps,env⟩).bind nodes.get? ∧
      o.map Node.index=Visit.following wirings.length operation ⟨node,deps,env⟩ := by
  obtain ⟨hlt,_⟩ := List.getElem?_eq_some_iff.mp hn
  have hshort := hf.short
  simp only [MAX_STRATEGY_SIZE] at hshort
  cases operation with
  | cancel =>
    have hfit : fits 16 (node.index+1)=.ok (node.index+1) := fits_of_lt (by omega)
    simp only [NodeStore.getNext,ne_eq,reduceCtorEq,not_false_eq_true,if_true,hfit,Except.ok_bind,okay_load] at h
    obtain rfl := Except.ok.inj h
    simp only [Visit.following]
    split_ifs with hc
    · obtain ⟨next,hnext⟩ := hw.lookup hc
      simp [hnext,(hw.index hf hnext).1]
    · simp [hw.lookup_none (not_lt.mp hc)]
  | execute =>
    simp only [NodeStore.getNext,ne_eq,not_true_eq_false,if_false] at h
    rcases hi : node.nextIndex deps env with (e | _ | _) | t
    · exfalso
      cases node with
      | action a i next => cases hi
      | condition c i s f =>
        rcases hc : c.isSatisfied deps env with (e' | _ | _) | b <;>
          simp [Node.nextIndex,Fault.unwrapOr,Fault.attempt,hc] at hi
        cases b <;> simp at hi
    · simp [hi,Fault.okay,Fault.attempt] at h
    · simp [hi,Fault.okay,Fault.attempt] at h
    · have ht := nextIndex_eq_ok hi
      simp only [hi,Except.ok_bind] at h
      simp only [Visit.following,← ht]
      cases t with
      | none =>
        obtain rfl : none=o := by simpa [genericErr] using h
        simp
      | some k =>
        rw [okay_load] at h
        obtain rfl := Except.ok.inj h
        obtain ⟨rank,_,hr⟩ := hf.ranked
        obtain ⟨next,hnext⟩ := hw.lookup (following_spec (v := ⟨node,deps,env⟩) hr hn ht.symm).1
        simp [hnext,(hw.index hf hnext).1]

/-- What a `Process` call did from the node `next` on, with `path` and `stored` the running and the
stored path at that point. -/
structure LoopSpec (wirings : List Wiring) (operation : StrategyOperation) (deps : Deps) (env : Env)
    (stored : Option (List String)) (path : List String) (next : Option ℕ) (r : Processed) : Prop where
  wired : Wired wirings r.nodes
  views : ∀ v ∈ r.left, v.deps=deps ∧ v.env=env
  onGraph : ∀ v ∈ r.left, wirings[v.node.index]?=some v.node.wiring
  executedOnGraph : ∀ node ∈ r.executed, wirings[node.index]?=some node.wiring
  follows : Follows (Visit.following wirings.length operation) next r.left r.progress.next
  executed : r.executed.map Node.index=r.left.map (fun v => v.node.index) ++ r.progress.next.toList
  paused : r.progress.next≠none → r.path=some (path ++ trail r.executed)
  finished : ∀ p, r.progress=.finished p → p=path ++ trail r.executed ∧ r.path=stored

theorem Loops.spec {nodes : Table ℕ Node} {stored : Option (List String)} {path : List String} {next : Option Node}
    {r : Processed} (hf : NodeStore.WellFormed wirings) (hw : Wired wirings nodes)
    (hnext : ∀ node ∈ next, wirings[node.index]?=some node.wiring)
    (h : Loops operation deps env stored nodes path next r) :
    LoopSpec wirings operation deps env stored path (next.map Node.index) r := by
  induction h with
  | finished => exact ⟨hw,by simp,by simp,by simp,rfl,by simp [Progress.next],by simp [Progress.next],by simp [trail]⟩
  | failed _ =>
    have hcur := hnext _ rfl
    exact ⟨hw.save hcur,by simp,by simp,by simpa using hcur,rfl,by simp [Progress.next],by simp [trail],by simp⟩
  | messages hrun _ =>
    have hcur := hnext _ rfl
    have hidx := run_index hrun
    exact ⟨hw.save (by rw [hidx,run_wiring hrun,hcur]),by simp,by simp,by simpa using hcur,
      by simp [Follows,Progress.next,hidx],by simp [Progress.next,hidx],by simp [trail],by simp⟩
  | @next nodes path current node next rest hrun hget hrest ih =>
    have hcur := hnext _ rfl
    have hidx := run_index hrun
    have hnode : wirings[node.index]?=some node.wiring := by rw [hidx,run_wiring hrun,hcur]
    have hw' := hw.save hnode
    obtain ⟨hbind,hfollow⟩ := getNext_eq_ok hf hw' hnode hget
    have hs := ih hw' fun n hn => by
      rw [Option.mem_def.mp hn] at hbind
      obtain ⟨k,_,hk⟩ := Option.bind_eq_some_iff.mp hbind.symm
      rw [(hw'.index hf hk).1]
      exact hw'.get? hk
    refine ⟨hs.wired,?_,?_,?_,⟨by simp [hidx],hfollow ▸ hs.follows⟩,?_,fun hp => ?_,fun p hp => ?_⟩
    · simpa using hs.views
    · simpa [hnode] using hs.onGraph
    · simpa [hcur] using hs.executedOnGraph
    · simp [hs.executed,hidx]
    · simp [hs.paused hp,trail]
    · simpa [trail] using hs.finished p hp

/-- A whole `Process` call: the commit of the previous node and the loop. -/
theorem process_spec {gas : ℕ} {storage : StrategyStorage} {previous : Option ℕ} {r : Processed}
    (hf : NodeStore.WellFormed wirings) (hw : Wired wirings storage.nodes)
    (h : process gas deps env storage operation previous=.ok r) :
    Wired wirings r.nodes ∧ (∀ v ∈ r.left, v.deps=deps ∧ v.env=env) ∧
      (∀ v ∈ r.left, wirings[v.node.index]?=some v.node.wiring) ∧
      (∀ node ∈ r.executed, wirings[node.index]?=some node.wiring) ∧
      Follows (Visit.following wirings.length operation)
        (match previous with | some p => some p | none => if wirings=[] then none else some 0)
        r.left r.progress.next ∧
      (previous≠none → r.left≠[]) ∧
      previous.toList ++ r.executed.map Node.index=r.left.map (fun v => v.node.index) ++ r.progress.next.toList ∧
      ∃ path, (match previous with | some _ => storage.path=some path | none => path=[]) ∧
        (r.progress.next≠none → r.path=some (path ++ trail r.executed)) ∧
        (∀ p, r.progress=.finished p → p=path ++ trail r.executed) := by
  cases process_eq_ok h with
  | first hloop =>
    have hs := hloop.spec hf hw fun node hn => by
      rw [(hw.index hf hn).1]
      exact hw.get? hn
    refine ⟨hs.wired,hs.views,hs.onGraph,hs.executedOnGraph,?_,by simp,by simpa using hs.executed,[],rfl,
      by simpa using hs.paused,fun p hp => by simpa using (hs.finished p hp).1⟩
    convert hs.follows using 1
    split_ifs with hnil
    · simp [hw.lookup_none (k := 0) (by simp [hnil])]
    · obtain ⟨node,hn⟩ := hw.lookup (List.length_pos_iff.mpr hnil)
      simp [hn,(hw.index hf hn).1]
  | @resumed p node updated next path rest hk hget hcommit hpath hloop =>
    obtain ⟨hidx,_⟩ := hw.index hf hk
    have hnode : wirings[node.index]?=some node.wiring := by rw [hidx,hw.get? hk]
    have hwire := Node.commit_wiring hcommit
    have hupd : wirings[updated.index]?=some updated.wiring := by rw [Node.index_congr hwire,hwire,hnode]
    obtain ⟨hbind,hfollow⟩ := getNext_eq_ok hf hw hnode hget
    have hs := hloop.spec hf (hw.save hupd) fun n hn => by
      rw [Option.mem_def.mp hn] at hbind
      obtain ⟨k,_,hk'⟩ := Option.bind_eq_some_iff.mp hbind.symm
      rw [(hw.index hf hk').1]
      exact hw.get? hk'
    refine ⟨hs.wired,by simpa using hs.views,by simpa [hnode] using hs.onGraph,hs.executedOnGraph,
      ⟨by simp [hidx],hfollow ▸ hs.follows⟩,by simp,by simp [hs.executed,hidx],path,hpath,hs.paused,
      fun p hp => (hs.finished p hp).1⟩

end StrategyContract
end CalcRs
