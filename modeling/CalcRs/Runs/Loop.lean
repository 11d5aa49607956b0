import CalcRs.Runs.Graph

/-! How a `Process` call goes that returns, whatever its gas: one rule for each way through its loop, and one for each
way to begin. -/
namespace CalcRs

theorem Node.index_congr {node node' : Node} (h : node'.wiring=node.wiring) : node'.index=node.index := by
  rw [← Node.wiring_index,h,Node.wiring_index]

namespace StrategyContract

theorem okay_load {nodes : Table ℕ Node} {k : ℕ} : Fault.okay (NodeStore.load nodes k)=.ok (nodes.get? k) := by
  unfold NodeStore.load
  cases nodes.get? k <;> rfl

end StrategyContract

variable [Crates]

/-- The node that `get_next` finds, and the key under which it is stored. -/
theorem NodeStore.getNext_eq_some {deps : Deps} {env : Env} {nodes : Table ℕ Node} {operation : StrategyOperation}
    {node next : Node} (h : Fault.okay (getNext deps env nodes operation node)=.ok (some next)) :
    ∃ k, nodes.get? k=some next ∧
      (operation=.cancel ∧ k=node.index+1 ∨ operation=.execute ∧ node.nextIndex deps env=.ok (some k)) := by
  have h := Fault.okay_eq_some.mp h
  cases operation with
  | cancel =>
    simp only [getNext,ne_eq,reduceCtorEq,not_false_eq_true,if_true] at h
    obtain ⟨k,hk,h⟩ := Except.bind_eq_ok.mp h
    obtain ⟨_,rfl⟩ := fits_eq_ok.mp hk
    exact ⟨_,load_eq_ok.mp h,.inl ⟨rfl,rfl⟩⟩
  | execute =>
    simp only [getNext,ne_eq,not_true_eq_false,if_false] at h
    obtain ⟨o,ho,h⟩ := Except.bind_eq_ok.mp h
    cases o with
    | none => cases h
    | some k => exact ⟨k,load_eq_ok.mp h,.inr ⟨rfl,ho⟩⟩

namespace StrategyContract

section

variable (operation : StrategyOperation) (deps : Deps) (env : Env)

/-- The loop, from a node on. -/
inductive Loops (stored : Option (List String)) : Table ℕ Node → List String → Option Node → Processed → Prop
  | finished {nodes : Table ℕ Node} {path : List String} :
      Loops stored nodes path none ⟨nodes,stored,.finished path,[],[]⟩
  | failed {nodes : Table ℕ Node} {path : List String} {current : Node} {error : StdError} :
      run operation current deps env=.error (.err error) →
      Loops stored nodes path (some current) ⟨NodeStore.save nodes current,some (path ++ [toString current.index]),
        .failed current.index error,[current],[]⟩
  | messages {nodes : Table ℕ Node} {path : List String} {current node : Node} {messages : List CosmosMsg} :
      run operation current deps env=.ok (messages,node) → messages≠[] →
      Loops stored nodes path (some current) ⟨NodeStore.save nodes node,some (path ++ [toString current.index]),
        .messages current.index messages node.index,[current],[]⟩
  | next {nodes : Table ℕ Node} {path : List String} {current node : Node} {next : Option Node} {rest : Processed} :
      run operation current deps env=.ok ([],node) →
      Fault.okay (NodeStore.getNext deps env (NodeStore.save nodes node) operation node)=.ok next →
      Loops stored (NodeStore.save nodes node) (path ++ [toString current.index]) next rest →
      Loops stored nodes path (some current)
        { rest with executed := current :: rest.executed,left := ⟨node,deps,env⟩ :: rest.left }

/-- A call: it begins with the first node, or with the commit of the node that the last call ended with. -/
inductive Processes (storage : StrategyStorage) : Option ℕ → Processed → Prop
  | first {r : Processed} : Loops operation deps env storage.path storage.nodes [] (storage.nodes.get? 0) r →
      Processes storage none r
  | resumed {p : ℕ} {node updated : Node} {next : Option Node} {path : List String} {rest : Processed} :
      storage.nodes.get? p=some node →
      Fault.okay (NodeStore.getNext deps env storage.nodes operation node)=.ok next →
      node.commit deps env=.ok updated → storage.path=some path →
      Loops operation deps env storage.path (NodeStore.save storage.nodes updated) path next rest →
      Processes storage (some p) { rest with left := ⟨node,deps,env⟩ :: rest.left }

end

variable {deps : Deps} {env : Env} {operation : StrategyOperation}

theorem run_wiring {node node' : Node} {messages : List CosmosMsg}
    (h : run operation node deps env=.ok (messages,node')) : node'.wiring=node.wiring := by
  cases operation with
  | execute => exact Node.execute_wiring h
  | cancel => exact Node.cancel_wiring h

theorem run_index {node node' : Node} {messages : List CosmosMsg}
    (h : run operation node deps env=.ok (messages,node')) : node'.index=node.index :=
  Node.index_congr (run_wiring h)

theorem processLoop_eq_ok {gas : ℕ} {nodes : Table ℕ Node} {stored : Option (List String)} {path : List String}
    {next : Option Node} {r : Processed} (h : processLoop deps env operation gas nodes stored path next=.ok r) :
    Loops operation deps env stored nodes path next r := by
  induction gas generalizing nodes path next r with
  | zero => cases h
  | succ gas ih =>
    cases next with
    | none =>
      obtain rfl := Except.ok.inj h
      exact .finished
    | some current =>
      simp only [processLoop] at h
      obtain ⟨result,hrun,h⟩ := Except.bind_eq_ok.mp h
      cases result with
      | error error =>
        obtain rfl := Except.ok.inj h
        exact .failed (Fault.attempt_eq_ok_error.mp hrun)
      | ok result =>
        obtain ⟨messages,node⟩ := result
        have hrun := Fault.attempt_eq_ok_ok.mp hrun
        simp only at h
        split_ifs at h with hm
        · obtain rfl := Except.ok.inj h
          exact .messages hrun hm
        · obtain ⟨next,hnext,h⟩ := Except.bind_eq_ok.mp h
          obtain ⟨rest,hrest,h⟩ := Except.bind_eq_ok.mp h
          obtain rfl := Except.ok.inj h
          obtain rfl : messages=[] := not_not.mp hm
          exact .next hrun hnext (ih hrest)

theorem process_eq_ok {gas : ℕ} {storage : StrategyStorage} {previous : Option ℕ} {r : Processed}
    (h : process gas deps env storage operation previous=.ok r) : Processes operation deps env storage previous r := by
  cases previous with
  | none =>
    rw [process,okay_load,Except.ok_bind] at h
    exact .first (processLoop_eq_ok h)
  | some p =>
    rw [process] at h
    obtain ⟨node,hload,h⟩ := Except.bind_eq_ok.mp h
    obtain ⟨next,hnext,h⟩ := Except.bind_eq_ok.mp h
    obtain ⟨updated,hcommit,h⟩ := Except.bind_eq_ok.mp h
    cases hpath : storage.path with
    | none => simp [hpath] at h
    | some path =>
      simp only [hpath] at h
      obtain ⟨rest,hrest,h⟩ := Except.bind_eq_ok.mp h
      obtain rfl := Except.ok.inj h
      refine .resumed (NodeStore.load_eq_ok.mp hload) hnext hcommit hpath ?_
      rw [hpath]
      exact processLoop_eq_ok hrest

end StrategyContract
end CalcRs
