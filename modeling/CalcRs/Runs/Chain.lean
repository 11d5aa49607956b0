import CalcRs.Runs.Process

/-! A logical run: the chain of `Process` calls that a contract sends itself, with the outcomes of the
messages emitted in between. The recipients of these messages do not call back. -/
namespace CalcRs.StrategyContract
open Fault (Settles)

/-- `commit` has no error of its own: it can only abort. -/
theorem commit_eq_error {node : Node} {deps : Deps} {env : Env} {f : Fault StdError}
    (h : node.commit deps env=.error f) : f.IsAbort := by
  have hmap : ∀ {α β : Type} {g : α → β} {x : Outcome α}, g <$> x=.error f → x=.error f := fun {_ _ _ x} hx => by
    cases x with
    | ok a => cases hx
    | error e => cases hx; rfl
  cases node with
  | action a i next =>
    have ha := hmap h
    cases a with
    | swap s => cases ha
    | distribute d => cases ha
    | limitOrder o =>
      have ho := hmap ha
      unfold FinLimitOrder.commit at ho
      cases hc : o.currentOrder with
      | none => simp [hc] at ho
      | some order =>
        simp only [hc] at ho
        rcases hr : order.refresh deps env o with (e | _ | _) | r <;> simp [hr,Fault.attempt] at ho
        · subst ho; trivial
        · subst ho; trivial
  | condition c i s f' =>
    have hc := hmap h
    cases c with
    | schedule sched =>
      simp only [Condition.commit,Schedule.commit] at hc
      cases hn : sched.next with
      | none => simp [hn] at hc
      | some next =>
        cases he : sched.executions with
        | none => simp [hn,Schedule.countExecution,he] at hc
        | some e =>
          simp only [hn,Schedule.countExecution,he,fits] at hc
          split_ifs at hc
          · cases hc
          · cases hc; trivial
    | timestampElapsed _ => cases hc
    | blocksCompleted _ => cases hc
    | canSwap _ => cases hc
    | finLimitOrderFilled _ _ _ _ => cases hc
    | balanceAvailable _ _ => cases hc
    | strategyStatus _ _ _ => cases hc
    | oraclePrice _ _ _ => cases hc
    | assetValueRatio _ => cases hc

/-- `reply` accepts every outcome, so no failed message stops a run. -/
theorem mapM_reply (subs : List (SubMsg × ℕ)) (outcomes : ℕ → Except String Unit) :
    ∃ replies, (subs.mapM fun sub => reply sub.1.id (outcomes sub.2))=.ok replies := by
  induction subs with
  | nil => exact ⟨[],rfl⟩
  | cons sub subs ih =>
    obtain ⟨replies,hr⟩ := ih
    rw [List.mapM_cons,hr]
    cases hs : outcomes sub.2 <;> exact ⟨_,rfl⟩

section

variable [Crates]

/-- What the rest of the chain contributes to one `Process` call: the gas and the state that the call
sees, and the outcome of each message it emits. -/
structure Turn where
  gas : ℕ
  deps : Deps
  env : Env
  outcomes : ℕ → Except String Unit

inductive Status where
  | pending (previous : Option ℕ)
  | finished
  deriving DecidableEq

/-- The state of a run between two calls. Besides the storage and the events it records the messages
that were delivered and the history of the calls. -/
structure Chain where
  storage : StrategyStorage
  status : Status
  events : List StrategyEvent
  delivered : List CosmosMsg
  executed : List Node
  left : List Visit

namespace Chain

def start (storage : StrategyStorage) : Chain := ⟨storage,.pending none,[],[],[],[]⟩

/-- The messages of a response whose outcome is reported to `reply`, numbered. -/
def reported (response : StrategyResponse) : List (SubMsg × ℕ) :=
  (response.messages.filter fun sub => sub.replyOn=.always).zipIdx

/-- One `Process` call and the delivery of its messages, each followed by its `reply`. -/
def step (operation : StrategyOperation) (c : Chain) (t : Turn) : Outcome Chain :=
  match c.status with
  | .finished => .ok c
  | .pending previous => do
    let result ← process t.gas t.deps t.env c.storage operation previous
    let response := processResponse t.env operation result.progress
    let replies ← (reported response).mapM fun sub => reply sub.1.id (t.outcomes sub.2)
    return {
      storage := { c.storage with nodes := result.nodes,path := result.path }
      status := match result.progress.next with
        | some previous => .pending (some previous)
        | none => .finished
      events := c.events ++ response.events ++ replies.flatMap StrategyResponse.events
      delivered := c.delivered ++
        ((reported response).filter fun sub => (t.outcomes sub.2).isOk).map fun sub => sub.1.msg
      executed := c.executed ++ result.executed
      left := c.left ++ result.left }

/-- The run from a storage on. -/
def run (operation : StrategyOperation) (storage : StrategyStorage) (turns : List Turn) : Outcome Chain :=
  turns.foldlM (step operation) (start storage)

/-- A step leaves a finished run as it is, and goes on with one call otherwise. -/
theorem step_eq_ok {operation : StrategyOperation} {c c' : Chain} {t : Turn} (h : step operation c t=.ok c') :
    c.status=.finished ∧ c'=c ∨ ∃ previous r, c.status=.pending previous ∧
      process t.gas t.deps t.env c.storage operation previous=.ok r ∧
      c'.storage={ c.storage with nodes := r.nodes,path := r.path } ∧
      (∀ p, c'.status=.pending (some p) ↔ r.progress.next=some p) ∧
      c'.executed=c.executed ++ r.executed ∧ c'.left=c.left ++ r.left := by
  unfold step at h
  cases hs : c.status with
  | finished =>
    simp only [hs] at h
    exact .inl ⟨rfl,(Except.ok.inj h).symm⟩
  | pending previous =>
    simp only [hs] at h
    obtain ⟨r,hp,h⟩ := Except.bind_eq_ok.mp h
    obtain ⟨replies,_,h⟩ := Except.bind_eq_ok.mp h
    obtain rfl := Except.ok.inj h
    refine .inr ⟨previous,r,rfl,hp,rfl,fun p => ?_,rfl,rfl⟩
    cases r.progress.next <;> simp

end Chain

/-- The entry point of the contract reaches `process` when it is called by itself. -/
theorem execute_process (gas : ℕ) (deps : Deps) (env : Env) (storage : StrategyStorage)
    (operation : StrategyOperation) (previous : Option ℕ) :
    execute gas deps env ⟨env.contract,[]⟩ storage (.process operation previous)=
      (fun r : Processed => ({ storage with nodes := r.nodes,path := r.path },
        processResponse env operation r.progress)) <$> process gas deps env storage operation previous := by
  simp only [execute,deposit,List.isEmpty_nil,if_true,Except.pure_eq_ok,Except.ok_bind,dispatch,ne_eq,
    not_true_eq_false,if_false]
  cases process gas deps env storage operation previous <;> rfl

/-! ### Runs return -/

/-- The states a node goes through when it is executed and committed in the states of `turns`. -/
inductive Evolves (turns : List Turn) (origin : Node) : Node → Prop
  | start : Evolves turns origin origin
  | execute {t : Turn} {node node' : Node} {messages : List CosmosMsg} : Evolves turns origin node →
      t ∈ turns → node.execute t.deps t.env=.ok (messages,node') → Evolves turns origin node'
  | commit {t : Turn} {node node' : Node} : Evolves turns origin node → t ∈ turns →
      node.commit t.deps t.env=.ok node' → Evolves turns origin node'

/-- No code of the node panics in the states of `turns`, whatever it went through before. -/
def CodeReturns (turns : List Turn) (origin : Node) : Prop :=
  ∀ node, Evolves turns origin node → ∀ t ∈ turns,
    Settles (node.execute t.deps t.env) ∧ Settles (node.nextIndex t.deps t.env) ∧ Settles (node.commit t.deps t.env)

/-- Every stored node is a state of one of the original nodes. -/
def Descends (turns : List Turn) (origins : List Node) (nodes : Table ℕ Node) : Prop :=
  ∀ k node, nodes.get? k=some node → ∃ origin ∈ origins, Evolves turns origin node

variable {wirings : List Wiring} {turns : List Turn} {origins : List Node}

theorem Descends.save {nodes : Table ℕ Node} {node : Node} (h : Descends turns origins nodes)
    (hn : ∃ origin ∈ origins, Evolves turns origin node) : Descends turns origins (NodeStore.save nodes node) :=
  fun k n hk => by
    rw [NodeStore.get?_save] at hk
    split_ifs at hk with he
    · exact Option.some.inj hk ▸ hn
    · exact h k n hk

/-- `get_next` returns where the condition of the node does. -/
theorem getNext_returns {deps : Deps} {env : Env} {nodes : Table ℕ Node} {node : Node}
    (h : Settles (node.nextIndex deps env)) : ∃ o, Fault.okay (NodeStore.getNext deps env nodes .execute node)=.ok o := by
  refine Fault.settles_iff_okay.mp fun f hf ha => ?_
  simp only [NodeStore.getNext,ne_eq,not_true_eq_false,if_false] at hf
  rcases Except.bind_eq_error.mp hf with he | ⟨o,_,hl⟩
  · exact h f he ha
  · cases o with
    | none =>
      cases hl
      exact ha
    | some k =>
      obtain ⟨e,rfl⟩ := NodeStore.load_eq_error hl
      exact ha

/-- The loop returns when its gas covers the numbering of the graph above the current node. -/
theorem processLoop_returns {t : Turn} {gas : ℕ} {nodes : Table ℕ Node} {stored : Option (List String)}
    {path : List String} {next : Option Node} {rank : ℕ → ℕ} (hf : NodeStore.WellFormed wirings)
    (hb : ∀ u<wirings.length, rank u<wirings.length)
    (hr : ∀ u<wirings.length, ∀ v ∈ (wirings[u]?.map Wiring.targets).getD [], v<wirings.length ∧ rank u < rank v)
    (ht : t ∈ turns) (hsafe : ∀ origin ∈ origins, CodeReturns turns origin) (hw : Wired wirings nodes)
    (hd : Descends turns origins nodes)
    (hnext : ∀ node ∈ next, wirings[node.index]?=some node.wiring ∧ ∃ origin ∈ origins, Evolves turns origin node)
    (hgas : next.elim 0 (fun node => wirings.length-rank node.index)<gas) :
    ∃ r, processLoop t.deps t.env .execute gas nodes stored path next=.ok r ∧ Descends turns origins r.nodes := by
  induction gas generalizing nodes path next with
  | zero => omega
  | succ gas ih =>
    cases next with
    | none => exact ⟨_,rfl,hd⟩
    | some current =>
      obtain ⟨hcur,origin,hmem,hev⟩ := hnext current rfl
      have hcode := hsafe origin hmem current hev t ht
      obtain ⟨result,hrun⟩ := Fault.settles_iff_attempt.mp hcode.1
      have hlt : current.index<wirings.length := (List.getElem?_eq_some_iff.mp hcur).1
      have hrank := hb _ hlt
      simp only [Option.elim_some] at hgas
      cases result with
      | error e => exact ⟨_,by simp only [processLoop,run,hrun,Except.ok_bind]; rfl,hd.save ⟨origin,hmem,hev⟩⟩
      | ok result =>
        obtain ⟨messages,node⟩ := result
        have hex := Fault.attempt_eq_ok_ok.mp hrun
        have hwire := Node.execute_wiring hex
        have hidx := Node.index_congr hwire
        have hnode : wirings[node.index]?=some node.wiring := by rw [hidx,hwire,hcur]
        have hev' := Evolves.execute hev ht hex
        have hd' := hd.save ⟨origin,hmem,hev'⟩
        have hw' := hw.save hnode
        by_cases hm : messages=[]
        · obtain ⟨o,ho⟩ : ∃ o, Fault.okay (NodeStore.getNext t.deps t.env (NodeStore.save nodes node) .execute node)=.ok o :=
            getNext_returns (hsafe origin hmem node hev' t ht).2.1
          obtain ⟨hbind,hfollow⟩ := getNext_eq_ok hf hw' hnode ho
          have hnext' : ∀ n ∈ o, wirings[n.index]?=some n.wiring ∧ ∃ origin ∈ origins, Evolves turns origin n := by
            intro n hn
            rw [Option.mem_def.mp hn] at hbind
            obtain ⟨k,_,hk⟩ := Option.bind_eq_some_iff.mp hbind.symm
            refine ⟨?_,hd' k n hk⟩
            rw [(hw'.index hf hk).1]
            exact hw'.get? hk
          have hgas' : o.elim 0 (fun n => wirings.length-rank n.index)<gas := by
            cases o with
            | none =>
              simp only [Option.elim_none]
              omega
            | some n =>
              have hup := following_spec (v := ⟨node,t.deps,t.env⟩) hr hnode
                (k := n.index) (by simpa [Visit.following] using hfollow.symm)
              simp only [hidx] at hup
              simp only [Option.elim_some]
              have := hb _ hup.1
              omega
          obtain ⟨rest,hrest,hdr⟩ := @ih _ (path ++ [toString current.index]) _ hw' hd' hnext' hgas'
          refine ⟨{ rest with executed := current :: rest.executed,left := ⟨node,t.deps,t.env⟩ :: rest.left },?_,hdr⟩
          simp only [processLoop,run,hrun,Except.ok_bind,hm,ne_eq,not_true_eq_false,if_false,ho,hrest]
          rfl
        · exact ⟨_,by simp only [processLoop,run,hrun,Except.ok_bind,hm,ne_eq,not_false_eq_true,if_true]; rfl,hd'⟩

/-- A whole call returns when its gas covers the node list. -/
theorem process_returns {t : Turn} {storage : StrategyStorage} {previous : Option ℕ}
    (hf : NodeStore.WellFormed wirings) (ht : t ∈ turns) (hsafe : ∀ origin ∈ origins, CodeReturns turns origin)
    (hw : Wired wirings storage.nodes) (hd : Descends turns origins storage.nodes)
    (hgas : wirings.length<t.gas) (hprev : ∀ p ∈ previous, p<wirings.length ∧ storage.path.isSome) :
    ∃ r, process t.gas t.deps t.env storage .execute previous=.ok r ∧ Descends turns origins r.nodes := by
  obtain ⟨rank,hb,hr⟩ := hf.ranked
  have helim : ∀ o : Option Node, o.elim 0 (fun n => wirings.length-rank n.index)<t.gas := fun o => by
    cases o <;> simp only [Option.elim_none,Option.elim_some] <;> omega
  cases previous with
  | none =>
    have hnext : ∀ node ∈ storage.nodes.get? 0,
        wirings[node.index]?=some node.wiring ∧ ∃ origin ∈ origins, Evolves turns origin node := by
      intro node hn
      refine ⟨?_,hd 0 node hn⟩
      rw [(hw.index hf hn).1]
      exact hw.get? hn
    obtain ⟨r,hr',hdr⟩ : ∃ r, processLoop t.deps t.env .execute t.gas storage.nodes storage.path [] (storage.nodes.get? 0)=
        .ok r ∧ Descends turns origins r.nodes := processLoop_returns hf hb hr ht hsafe hw hd hnext (helim _)
    exact ⟨r,by rw [process,okay_load,Except.ok_bind,hr'],hdr⟩
  | some p =>
    obtain ⟨hp,hpath⟩ := hprev p rfl
    obtain ⟨path,hpath⟩ := Option.isSome_iff_exists.mp hpath
    obtain ⟨node,hk⟩ := hw.lookup hp
    obtain ⟨origin,hmem,hev⟩ := hd p node hk
    obtain ⟨hidx,_⟩ := hw.index hf hk
    have hnode : wirings[node.index]?=some node.wiring := by rw [hidx,hw.get? hk]
    have hcode := hsafe origin hmem node hev t ht
    obtain ⟨o,ho⟩ : ∃ o, Fault.okay (NodeStore.getNext t.deps t.env storage.nodes .execute node)=.ok o :=
      getNext_returns hcode.2.1
    obtain ⟨updated,hcommit⟩ : ∃ updated, node.commit t.deps t.env=.ok updated := by
      rcases hc : node.commit t.deps t.env with f | updated
      · exact absurd (commit_eq_error hc) (hcode.2.2 f hc)
      · exact ⟨updated,rfl⟩
    have hwire := Node.commit_wiring hcommit
    have hupd : wirings[updated.index]?=some updated.wiring := by
      rw [Node.index_congr hwire,hwire,hnode]
    have hd' := hd.save ⟨origin,hmem,.commit hev ht hcommit⟩
    obtain ⟨hbind,_⟩ := getNext_eq_ok hf hw hnode ho
    have hnext : ∀ n ∈ o, wirings[n.index]?=some n.wiring ∧ ∃ origin ∈ origins, Evolves turns origin n := by
      intro n hn
      rw [Option.mem_def.mp hn] at hbind
      obtain ⟨k,_,hk'⟩ := Option.bind_eq_some_iff.mp hbind.symm
      refine ⟨?_,hd k n hk'⟩
      rw [(hw.index hf hk').1]
      exact hw.get? hk'
    obtain ⟨rest,hrest,hdr⟩ : ∃ r, processLoop t.deps t.env .execute t.gas (NodeStore.save storage.nodes updated)
        storage.path path o=.ok r ∧ Descends turns origins r.nodes :=
      processLoop_returns hf hb hr ht hsafe (hw.save hupd) hd' hnext (helim _)
    refine ⟨{ rest with left := ⟨node,t.deps,t.env⟩ :: rest.left },?_,hdr⟩
    simp only [process,NodeStore.load_eq_ok.mpr hk,Except.ok_bind,ho,hcommit,hpath]
    rw [← hpath,hrest]
    rfl

/-! ### The invariant of a run -/

/-- The index of the node that the run has executed but not left. -/
def Status.cursor : Status → Option ℕ
  | .pending previous => previous
  | .finished => none

/-- Where a run over a node list starts. -/
def entry (wirings : List Wiring) : Option ℕ := if wirings=[] then none else some 0

namespace Chain

structure Inv (wirings : List Wiring) (turns : List Turn) (origins : List Node) (c : Chain) : Prop where
  wired : Wired wirings c.storage.nodes
  descends : Descends turns origins c.storage.nodes
  views : ∀ v ∈ c.left, ∃ t ∈ turns, v.deps=t.deps ∧ v.env=t.env
  onGraph : ∀ v ∈ c.left, wirings[v.node.index]?=some v.node.wiring
  executedOnGraph : ∀ node ∈ c.executed, wirings[node.index]?=some node.wiring
  fresh : c.status=.pending none → c.left=[] ∧ c.executed=[]
  follows : c.status≠.pending none → Follows Visit.next (entry wirings) c.left c.status.cursor
  executed : c.executed.map Node.index=c.left.map (fun v => v.node.index) ++ c.status.cursor.toList
  path : ∀ p, c.status=.pending (some p) → c.storage.path=some (trail c.executed)
  final : c.status=.finished → c.events.getLast?=some (.process .execute (String.intercalate "," (trail c.executed)))

/-- A bound on the calls that are left. -/
def need (count : ℕ) (rank : ℕ → ℕ) : Status → ℕ
  | .pending none => count+1
  | .pending (some p) => count-rank p
  | .finished => 0

omit [Crates] in
/-- A call that has started goes on with a node of higher rank, or ends. -/
theorem need_lt {count : ℕ} {rank : ℕ → ℕ} {previous : Option ℕ} {status : Status} (hstarted : status≠.pending none)
    (hb : ∀ p ∈ previous, rank p<count) (hdown : ∀ p ∈ previous, ∀ q ∈ status.cursor, rank p < rank q) :
    need count rank status<need count rank (.pending previous) := by
  cases previous with
  | none =>
    rcases status with (_ | q) | _
    · exact absurd rfl hstarted
    · simp only [need]
      omega
    · exact Nat.succ_pos _
  | some p =>
    have hp := hb p rfl
    rcases status with (_ | q) | _
    · exact absurd rfl hstarted
    · have hq := hdown p rfl q rfl
      simp only [need]
      omega
    · exact Nat.sub_pos_of_lt hp

end Chain

/-- Along a path of a well formed graph the numbering increases. -/
theorem Follows.rank_le {rank : ℕ → ℕ}
    (hr : ∀ u<wirings.length, ∀ v ∈ (wirings[u]?.map Wiring.targets).getD [], v<wirings.length ∧ rank u < rank v)
    {visits : List Visit} (hv : ∀ v ∈ visits, wirings[v.node.index]?=some v.node.wiring) {p q : ℕ}
    (h : Follows Visit.next (some p) visits (some q)) : rank p ≤ rank q ∧ (visits≠[] → rank p < rank q) := by
  induction visits generalizing p with
  | nil =>
    obtain rfl : p=q := Option.some.inj h
    simp
  | cons v visits ih =>
    obtain ⟨hp,h⟩ := h
    obtain rfl := Option.some.inj hp
    cases hn : v.next with
    | none =>
      rw [hn] at h
      cases visits with
      | nil => cases h
      | cons w visits => exact absurd h.1 (by simp)
    | some k =>
      rw [hn] at h
      have h1 := (following_spec hr (hv v (by simp)) hn).2
      have h2 := (ih (fun w hw => hv w (by simp [hw])) h).1
      exact ⟨by omega,fun _ => by omega⟩

/-- The indices of a path of a well formed graph are a path of its edges. -/
theorem Follows.isChain {visits : List Visit}
    (hv : ∀ v ∈ visits, wirings[v.node.index]?=some v.node.wiring) {a b : Option ℕ}
    (h : Follows Visit.next a visits b) :
    (visits.map fun v => v.node.index).IsChain fun u w => w ∈ (wirings[u]?.map Wiring.targets).getD [] := by
  induction visits generalizing a with
  | nil => simp
  | cons v visits ih =>
    cases visits with
    | nil => simp
    | cons w visits =>
      have hstep : v.next=some w.node.index := h.2.1
      rw [List.map_cons,List.map_cons,List.isChain_cons_cons]
      refine ⟨?_,ih (fun u hu => hv u (by simp [hu])) h.2⟩
      rw [hv v (by simp)]
      obtain ⟨node,deps,env⟩ := v
      cases node with
      | action a i next =>
        obtain rfl : next=some w.node.index := hstep
        simp [Node.wiring,Wiring.targets]
      | condition c i s f =>
        simp only [Visit.next] at hstep
        simp only [Node.wiring,Wiring.targets,Option.map_some,Option.getD_some,List.mem_append,Option.mem_toList]
        split_ifs at hstep
        · exact .inl hstep
        · exact .inr hstep

theorem start_inv {storage : StrategyStorage} (hw : Wired wirings storage.nodes)
    (hd : Descends turns origins storage.nodes) : Chain.Inv wirings turns origins (Chain.start storage) where
  wired := hw
  descends := hd
  views := by simp [Chain.start]
  onGraph := by simp [Chain.start]
  executedOnGraph := by simp [Chain.start]
  fresh _ := ⟨rfl,rfl⟩
  follows h := absurd rfl h
  executed := rfl
  path p h := by cases h
  final h := by cases h

/-- One call of a run returns, keeps the invariant and leaves fewer calls to make. -/
theorem step_inv {c : Chain} {t : Turn} {rank : ℕ → ℕ} {previous : Option ℕ} (hf : NodeStore.WellFormed wirings)
    (hb : ∀ u<wirings.length, rank u<wirings.length)
    (hr : ∀ u<wirings.length, ∀ v ∈ (wirings[u]?.map Wiring.targets).getD [], v<wirings.length ∧ rank u < rank v)
    (ht : t ∈ turns) (hgas : wirings.length<t.gas) (hsafe : ∀ origin ∈ origins, CodeReturns turns origin)
    (hi : Chain.Inv wirings turns origins c) (hp : c.status=.pending previous) :
    ∃ c', Chain.step .execute c t=.ok c' ∧ Chain.Inv wirings turns origins c' ∧
      Chain.need wirings.length rank c'.status<Chain.need wirings.length rank c.status := by
  have hcursor : c.executed.map Node.index=c.left.map (fun v => v.node.index) ++ previous.toList := by
    rw [hi.executed,hp]
    rfl
  have hprev : ∀ p ∈ previous, p<wirings.length ∧ c.storage.path.isSome := fun p hmem => by
    obtain rfl := Option.mem_def.mp hmem
    have hin : p ∈ c.executed.map Node.index := by simp [hcursor]
    obtain ⟨node,hnode,rfl⟩ := List.mem_map.mp hin
    exact ⟨(List.getElem?_eq_some_iff.mp (hi.executedOnGraph node hnode)).1,by rw [hi.path _ hp]; rfl⟩
  obtain ⟨r,hproc,hd⟩ := process_returns hf ht hsafe hi.wired hi.descends hgas hprev
  obtain ⟨hw,hviews,hgraph,hexg,hfollows,hne,hex,path,hpath,hpaused,hfin⟩ := process_spec hf hi.wired hproc
  obtain ⟨replies,hreplies⟩ := mapM_reply (Chain.reported (processResponse t.env .execute r.progress)) t.outcomes
  have hpath' : path=trail c.executed := by
    cases previous with
    | none =>
      obtain ⟨_,he⟩ := hi.fresh hp
      simpa [he,trail] using hpath
    | some p => simpa [hi.path p hp,eq_comm] using hpath
  have hfollows' : Follows Visit.next (entry wirings) (c.left ++ r.left) r.progress.next := by
    cases previous with
    | none =>
      obtain ⟨hl,_⟩ := hi.fresh hp
      have h1 : Follows Visit.next (entry wirings) r.left r.progress.next := hfollows
      simpa [hl] using h1
    | some p =>
      have h1 := hi.follows (by rw [hp]; simp)
      rw [hp] at h1
      exact h1.append hfollows
  have hexecuted : (c.executed ++ r.executed).map Node.index=
      (c.left ++ r.left).map (fun v => v.node.index) ++ r.progress.next.toList := by
    rw [List.map_append,hcursor,List.append_assoc,hex,List.map_append,List.append_assoc]
  refine ⟨_,by simp only [Chain.step,hp,hproc,Except.ok_bind,hreplies]; rfl,?_,?_⟩
  · refine ⟨hw,hd,fun v hv => ?_,fun v hv => ?_,fun node hn => ?_,?_,fun _ => ?_,?_,?_,?_⟩
    · rcases List.mem_append.mp hv with hv | hv
      · exact hi.views v hv
      · exact ⟨t,ht,hviews v hv⟩
    · rcases List.mem_append.mp hv with hv | hv
      · exact hi.onGraph v hv
      · exact hgraph v hv
    · rcases List.mem_append.mp hn with hn | hn
      · exact hi.executedOnGraph node hn
      · exact hexg node hn
    · intro h
      cases hs : r.progress.next <;> simp [hs] at h
    · cases hs : r.progress.next <;> simpa [hs,Status.cursor] using hfollows'
    · cases hs : r.progress.next <;> simpa [hs,Status.cursor] using hexecuted
    · intro p h
      cases hs : r.progress.next with
      | none => simp [hs] at h
      | some q => simp only [trail_append,hpaused (by simp [hs]),hpath']
    · intro h
      cases hs : r.progress with
      | messages i ms q => simp [hs,Progress.next] at h
      | failed i e => simp [hs,Progress.next] at h
      | finished p =>
        obtain rfl : replies=[] := by
          simpa [hs,processResponse,Chain.reported,eq_comm] using hreplies
        simp only [processResponse,trail_append,hfin p hs,hpath']
        simp
  · rw [hp]
    refine Chain.need_lt (by cases hs : r.progress.next <;> simp) (fun p hmem => hb p (hprev p hmem).1) fun p hmem q hq => ?_
    obtain rfl := Option.mem_def.mp hmem
    cases hs : r.progress.next with
    | none => simp [hs,Status.cursor] at hq
    | some q' =>
      simp only [hs,Status.cursor,Option.mem_def,Option.some.injEq] at hq
      rw [hs] at hfollows
      exact hq ▸ (Follows.rank_le hr hgraph hfollows).2 (hne (by simp))

/-- A run that is given enough calls finishes. -/
theorem run_inv {c : Chain} {rank : ℕ → ℕ} {ts : List Turn} (hf : NodeStore.WellFormed wirings)
    (hb : ∀ u<wirings.length, rank u<wirings.length)
    (hr : ∀ u<wirings.length, ∀ v ∈ (wirings[u]?.map Wiring.targets).getD [], v<wirings.length ∧ rank u < rank v)
    (hts : ∀ t ∈ ts, t ∈ turns) (hgas : ∀ t ∈ turns, wirings.length<t.gas)
    (hsafe : ∀ origin ∈ origins, CodeReturns turns origin) (hi : Chain.Inv wirings turns origins c)
    (hneed : Chain.need wirings.length rank c.status≤ts.length) :
    ∃ c', ts.foldlM (Chain.step .execute) c=.ok c' ∧ Chain.Inv wirings turns origins c' ∧ c'.status=.finished := by
  induction ts generalizing c with
  | nil =>
    refine ⟨c,rfl,hi,?_⟩
    cases hs : c.status with
    | finished => rfl
    | pending previous =>
      cases previous with
      | none => simp [hs,Chain.need] at hneed
      | some p =>
        have hin : p ∈ c.executed.map Node.index := by simp [hi.executed,hs,Status.cursor]
        obtain ⟨node,hnode,rfl⟩ := List.mem_map.mp hin
        have := hb _ (List.getElem?_eq_some_iff.mp (hi.executedOnGraph node hnode)).1
        simp only [hs,Chain.need,List.length_nil] at hneed
        omega
  | cons t ts ih =>
    have hin := hts t (by simp)
    cases hs : c.status with
    | finished =>
      have hstep : Chain.step .execute c t=.ok c := by simp only [Chain.step,hs]
      obtain ⟨c',hrun,h⟩ := ih (fun u hu => hts u (by simp [hu])) hi (by simp [hs,Chain.need])
      exact ⟨c',by rw [List.foldlM_cons,hstep]; exact hrun,h⟩
    | pending previous =>
      obtain ⟨c₁,hstep,hi₁,hlt⟩ := step_inv hf hb hr hin (hgas t hin) hsafe hi hs
      obtain ⟨c',hrun,h⟩ := ih (fun u hu => hts u (by simp [hu])) hi₁ (by
        simp only [List.length_cons] at hneed
        omega)
      exact ⟨c',by rw [List.foldlM_cons,hstep]; exact hrun,h⟩

/-- Every run over a node list that `NodeStore::init` accepted into an empty store finishes within
`node_count+1` calls, whatever fails on the way. It executes exactly the path of the graph that the
conditions choose, no node twice, and the final event names that path. -/
theorem run_executes_path {deps : Deps} {env : Env} {affiliates : List Affiliate} {nodes : List Node}
    {storage : StrategyStorage} (hinit : NodeStore.init deps env affiliates Table.empty nodes=.ok storage.nodes)
    (turns : List Turn) (hcalls : nodes.length<turns.length) (hgas : ∀ t ∈ turns, nodes.length<t.gas)
    (hsafe : ∀ node ∈ NodeStore.all storage.nodes, CodeReturns turns node) :
    ∃ c, Chain.run .execute storage turns=.ok c ∧ c.status=.finished ∧
      Follows Visit.next (if nodes=[] then none else some 0) c.left none ∧
      c.executed.map Node.index=c.left.map (fun v => v.node.index) ∧
      (∀ v ∈ c.left, (∃ t ∈ turns, v.deps=t.deps ∧ v.env=t.env) ∧
        nodes[v.node.index]?.map Node.wiring=some v.node.wiring) ∧
      (c.executed.map Node.index).Nodup ∧ c.executed.length≤nodes.length ∧
      c.events.getLast?=some (.process .execute
        (String.intercalate "," (c.executed.map fun node => toString node.index))) := by
  obtain ⟨inits,hinits,hget⟩ := NodeStore.init_eq_ok hinit
  have hget' : ∀ k, storage.nodes.get? k=inits[k]? := fun k => by
    rw [hget]
    split_ifs with hk
    · rfl
    · rw [List.getElem?_eq_none_iff.mpr (by rw [hinits.length]; omega)]
      rfl
  have hlen : (inits.map Node.wiring).length=nodes.length := by rw [List.length_map,hinits.length]
  have hsame : ∀ i : ℕ, nodes[i]?.map Node.wiring=(inits.map Node.wiring)[i]? := fun i => by
    rw [List.getElem?_map]
    by_cases hi : i<nodes.length
    · have hi' : i < inits.length := hinits.length ▸ hi
      simp [hi,hi',Node.init_wiring (hinits.init i hi hi')]
    · simp [hi,hinits.length]
  obtain ⟨rank,hb,hr⟩ := hinits.wellFormed.ranked
  have hd : Descends turns (NodeStore.all storage.nodes) storage.nodes := fun k node hk =>
    ⟨node,Table.mem_values.mpr ⟨k,hk⟩,.start⟩
  obtain ⟨c,hrun,hi,hfin⟩ := run_inv (c := Chain.start storage) hinits.wellFormed hb hr (fun _ h => h)
    (fun t ht => hlen ▸ hgas t ht) hsafe (start_inv (Wired.of_lookup hget') hd)
    (by simp only [Chain.start,Chain.need,hlen]; omega)
  have hpath := hi.follows (by rw [hfin]; simp)
  have hexec : c.executed.map Node.index=c.left.map fun v => v.node.index := by
    simpa [hfin,Status.cursor] using hi.executed
  have hbound : ∀ v ∈ c.left.map (fun v => v.node.index), v<(inits.map Node.wiring).length := fun v hv => by
    obtain ⟨w,hw,rfl⟩ := List.mem_map.mp hv
    exact (List.getElem?_eq_some_iff.mp (hi.onGraph w hw)).1
  have hnodup := hinits.wellFormed.ranked.path_nodup hbound (hpath.isChain hi.onGraph)
  refine ⟨c,hrun,hfin,?_,hexec,fun v hv => ⟨hi.views v hv,?_⟩,hexec ▸ hnodup,?_,hi.final hfin⟩
  · rw [hfin] at hpath
    have hnil : inits.map Node.wiring=[] ↔ nodes=[] := by
      rw [← List.length_eq_zero_iff,hlen,List.length_eq_zero_iff]
    simpa only [entry,hnil,Status.cursor] using hpath
  · rw [hsame,hi.onGraph v hv]
  · have := Kahn.length_le hbound hnodup
    rwa [← hexec,List.length_map,hlen] at this

end

section

attribute [local instance] Crates.plain

/-- A condition that errs, a condition that is skipped and an action that errs. -/
def forked : List Node :=
  [.condition (.balanceAvailable none ⟨5,"rune"⟩) 0 (some 1) (some 2),
   .condition (.blocksCompleted 10) 1 (some 2) none,
   .action (.distribute ⟨["rune"],[⟨10000,.bank "owner",none,none⟩]⟩) 2 none]

def forkedStorage : StrategyStorage :=
  ⟨"manager","owner",[],[],[],Table.ofList forked,none⟩

def forkedTurns : List Turn := List.replicate 4 ⟨4,Deps.silent,⟨⟨1,⟨1⟩⟩,"strategy"⟩,fun _ => .ok ()⟩

theorem forked_evolves {origin node : Node} (ho : origin ∈ forked) (h : Evolves forkedTurns origin node) :
    node=origin := by
  induction h with
  | start => rfl
  | execute _ ht he ih =>
    subst ih
    obtain rfl := List.eq_of_mem_replicate ht
    simp only [forked,List.mem_cons,List.not_mem_nil,or_false] at ho
    rcases ho with rfl | rfl | rfl
    · exact (congrArg Prod.snd (Except.ok.inj he)).symm
    · exact (congrArg Prod.snd (Except.ok.inj he)).symm
    · cases he
  | commit _ ht he ih =>
    subst ih
    obtain rfl := List.eq_of_mem_replicate ht
    simp only [forked,List.mem_cons,List.not_mem_nil,or_false] at ho
    rcases ho with rfl | rfl | rfl <;> exact (Except.ok.inj he).symm

theorem forked_codeReturns {node : Node} (h : node ∈ forked) : CodeReturns forkedTurns node := by
  intro node' hev t ht
  obtain rfl := forked_evolves h hev
  obtain rfl := List.eq_of_mem_replicate ht
  simp only [forked,List.mem_cons,List.not_mem_nil,or_false] at h
  rcases h with rfl | rfl | rfl <;>
    refine ⟨fun f hf => ?_,fun f hf => ?_,fun f hf => ?_⟩ <;> cases hf
  exact id

theorem run_executes_path_forked : ∃ c, Chain.run .execute forkedStorage forkedTurns=.ok c ∧
    c.status=.finished ∧ Follows Visit.next (some 0) c.left none ∧ c.executed.length≤3 := by
  have hinit : NodeStore.init Deps.silent ⟨⟨1,⟨1⟩⟩,"strategy"⟩ [] Table.empty forked=.ok forkedStorage.nodes := by decide
  obtain ⟨c,hrun,hfin,hpath,_,_,_,hlen,_⟩ := run_executes_path hinit forkedTurns (by decide) (by decide)
    fun node hnode => forked_codeReturns (by simpa [NodeStore.all,Table.values_ofList,forkedStorage] using hnode)
  exact ⟨c,hrun,hfin,hpath,hlen⟩

example : (Chain.run .execute forkedStorage forkedTurns).map (fun c => c.executed.map Node.index)=.ok [0,2] := by
  decide

end

end CalcRs.StrategyContract
