import CalcRs.Conditions.Limits
import CalcRs.Runs.Replacement

/-! The executions that a schedule counts over the runs of its strategy, beside the times that its
`on_success` branch is followed. -/
namespace CalcRs.StrategyContract

theorem get?_save_other {k : ℕ} {nodes : Table ℕ Node} {node stored : Node} (hk : nodes.get? k=some stored)
    (hne : k≠node.index) : (NodeStore.save nodes node).get? k=some stored := by
  rw [NodeStore.get?_save,if_neg hne,hk]

section

variable [Crates]

/-- The node is left through its `on_success` branch; without such a branch the run ends there. -/
def Visit.succeeds (v : Visit) : Bool :=
  match v.node with
  | .action .. => false
  | .condition c _ _ _ => decide (c.isSatisfied v.deps v.env=.ok true)

/-- The executions of the node `k` in a call. -/
def entering (k : ℕ) (c : Chain) (t : Turn) : List Visit :=
  match c.status with
  | .finished => []
  | .pending previous =>
    match process t.gas t.deps t.env c.storage .execute previous with
    | .error _ => []
    | .ok result => (result.executed.filter fun node => node.index=k).map fun node => ⟨node,t.deps,t.env⟩

/-- A run together with the executions of the node `k` and the times it was left through `on_success`
in the runs before. -/
structure Watch where
  chain : Chain
  entered : List Visit
  earlier : ℕ

namespace Watch

/-- How often the branch has been followed in all runs. -/
def followed (k : ℕ) (w : Watch) : ℕ := w.earlier+w.chain.left.countP fun v => v.node.index=k ∧ v.succeeds

def step (k : ℕ) (w : Watch) (t : Turn) : Outcome Watch := do
  let chain ← Chain.step .execute w.chain t
  return ⟨chain,w.entered ++ entering k w.chain t,w.earlier⟩

end Watch

/-- What is reached by runs, each of them in one block. -/
inductive Watched (k : ℕ) (s : StrategyStorage) : Env → Watch → Prop
  | start (env : Env) : Watched k s env ⟨Chain.start s,[],0⟩
  | call {env : Env} {w w' : Watch} {t : Turn} : Watched k s env w → t.env=env → w.step k t=.ok w' → Watched k s env w'
  | run {env : Env} {w : Watch} (later : Env) : Watched k s env w → w.chain.status=.finished →
      Watched k s later ⟨Chain.start w.chain.storage,w.entered,w.followed k⟩

/-- The execution of a schedule that this visit is could be counted. -/
def Visit.Guarded (v : Visit) : Prop :=
  ∀ s i onSuccess onFailure, v.node=.condition (.schedule s) i onSuccess onFailure → s.Guarded v.deps v.env

variable {deps : Deps} {env : Env} {k : ℕ} {onSuccess onFailure : Option ℕ} {s : Schedule}

/-! ### One call -/

/-- A schedule that is executed sends its trigger. -/
theorem run_schedule {i : ℕ} {messages : List CosmosMsg} {node' : Node}
    (h : run .execute (.condition (.schedule s) i onSuccess onFailure) deps env=.ok (messages,node')) :
    messages≠[] ∧ ∃ s', s.executeUnsafe deps env=.ok (messages,.schedule s') ∧
      node'=.condition (.schedule s') i onSuccess onFailure := by
  obtain ⟨⟨ms,c⟩,hc,he⟩ := Except.map_eq_ok.mp h
  cases he
  obtain ⟨_,_,s',_,_,_,rfl,hms⟩ := Schedule.executeUnsafe_eq_ok hc
  exact ⟨by simp [hms],s',hc,rfl⟩

theorem run_schedule_error {i : ℕ} {e : StdError}
    (h : run .execute (.condition (.schedule s) i onSuccess onFailure) deps env=.error (.err e)) :
    s.executeUnsafe deps env=.error (.err e) := by
  have h' : (fun r : List CosmosMsg × Condition => (r.1,Node.condition r.2 i onSuccess onFailure)) <$>
      s.executeUnsafe deps env=.error (.err e) := h
  cases hs : s.executeUnsafe deps env with
  | ok r =>
    rw [hs] at h'
    cases h'
  | error f =>
    rw [hs] at h'
    cases h'
    rfl

/-- How the loop treats the schedule `k`: it is never left there, and its execution ends the loop. -/
structure Passes (k : ℕ) (onSuccess onFailure : Option ℕ) (s : Schedule) (deps : Deps) (env : Env)
    (r : Processed) : Prop where
  stays : ∀ v ∈ r.left, v.node.index≠k
  ends : r.progress.next≠some k ∧ (r.executed.filter fun node => node.index=k)=[] ∧
      r.nodes.get? k=some (.condition (.schedule s) k onSuccess onFailure) ∨
    r.progress.next=some k ∧
      (r.executed.filter fun node => node.index=k)=[.condition (.schedule s) k onSuccess onFailure] ∧
      ∃ s', s.Entered deps env s' ∧ r.nodes.get? k=some (.condition (.schedule s') k onSuccess onFailure)

theorem Loops.passes {nodes : Table ℕ Node} {stored : Option (List String)} {path : List String} {next : Option Node}
    {r : Processed} (hs : Sane nodes) (hk : nodes.get? k=some (.condition (.schedule s) k onSuccess onFailure))
    (hnext : ∀ node ∈ next, nodes.get? node.index=some node) (h : Loops .execute deps env stored nodes path next r) :
    Passes k onSuccess onFailure s deps env r := by
  induction h with
  | finished => exact ⟨by simp,.inl ⟨by simp [Progress.next],by simp,hk⟩⟩
  | @failed nodes path current error herr =>
    have hcur := hnext _ rfl
    by_cases hik : current.index=k
    · -- the call ends with the schedule, whatever comes of it
      rw [hik,hk] at hcur
      obtain rfl := Option.some.inj hcur
      refine ⟨by simp,.inr ⟨rfl,by simp [Node.index],s,.failed (run_schedule_error herr),?_⟩⟩
      exact NodeStore.get?_save_self
    · refine ⟨by simp,.inl ⟨by simpa [Progress.next] using hik,by simp [hik],?_⟩⟩
      exact get?_save_other hk fun he => hik he.symm
  | @messages nodes path current node messages hrun hne =>
    have hcur := hnext _ rfl
    have hidx := run_index hrun
    by_cases hik : current.index=k
    · rw [hik,hk] at hcur
      obtain rfl := Option.some.inj hcur
      obtain ⟨_,s',hexec,rfl⟩ := run_schedule hrun
      refine ⟨by simp,.inr ⟨rfl,by simp [Node.index],s',.executed hexec,?_⟩⟩
      exact NodeStore.get?_save_self
    · refine ⟨by simp,.inl ⟨by simpa [Progress.next,hidx] using hik,by simp [hik],?_⟩⟩
      exact get?_save_other hk fun he => hik (hidx.symm.trans he.symm)
  | @next nodes path current node next rest hrun hget _ ih =>
    have hcur := hnext _ rfl
    have hidx := run_index hrun
    have hik : current.index≠k := by
      intro hik
      rw [hik,hk] at hcur
      obtain rfl := Option.some.inj hcur
      exact (run_schedule hrun).1 rfl
    have hs' := NodeStore.sane_save hs hcur (run_wiring hrun)
    obtain ⟨hstays,hends⟩ := ih hs' (get?_save_other hk fun he => hik (hidx.symm.trans he.symm)) fun n hn => by
      rw [Option.mem_def.mp hn] at hget
      exact (NodeStore.getNext_stored hs' (hs'.noLoop _ _ NodeStore.get?_save_self) hget).1
    have hnot : node.index≠k := hidx ▸ hik
    exact ⟨by simpa [hnot] using hstays,by simpa [hik] using hends⟩

/-- A whole call: it begins with leaving and committing the schedule when that was executed last. -/
theorem process_passes {gas : ℕ} {storage : StrategyStorage} {previous : Option ℕ} {r : Processed}
    (hs : Sane storage.nodes) (hk : storage.nodes.get? k=some (.condition (.schedule s) k onSuccess onFailure))
    (h : process gas deps env storage .execute previous=.ok r) :
    Sane r.nodes ∧ ∃ (s₀ : Schedule) (rest : Processed), Passes k onSuccess onFailure s₀ deps env rest ∧
      rest.progress=r.progress ∧ rest.executed=r.executed ∧ rest.nodes=r.nodes ∧
      (previous≠some k ∧ s₀=s ∧ (∀ v ∈ r.left, v.node.index≠k) ∨
        previous=some k ∧ s.commit=.ok (.schedule s₀) ∧
          r.left=⟨.condition (.schedule s) k onSuccess onFailure,deps,env⟩ :: rest.left) := by
  refine ⟨(process_traces (traces_self hs) h).1.1,?_⟩
  cases process_eq_ok h with
  | first hloop =>
    have hpass := hloop.passes hs hk fun node hn => by
      have hn' := Option.mem_def.mp hn
      rw [hs.index 0 node hn']
      exact hn'
    exact ⟨s,r,hpass,rfl,rfl,rfl,.inl ⟨by simp,rfl,hpass.stays⟩⟩
  | @resumed p node updated next path rest hp hget hc hpath hloop =>
    have hindex := hs.index p node hp
    have hs' := NodeStore.sane_save hs (hindex.symm ▸ hp) (Node.commit_wiring hc)
    have hnext := next_stored hs hp hc hget
    by_cases hpk : p=k
    · subst hpk
      obtain rfl := Option.some.inj (hp.symm.trans hk)
      obtain ⟨c,hcommit,rfl⟩ := Except.map_eq_ok.mp hc
      obtain ⟨s₀,rfl⟩ : ∃ s₀, c=.schedule s₀ := by
        obtain ⟨_,hc⟩ | ⟨_,_,hc⟩ := Schedule.commit_eq_ok hcommit
        · exact ⟨_,hc⟩
        · exact ⟨_,hc⟩
      have hpass := hloop.passes hs' (show (NodeStore.save _ (.condition (.schedule s₀) p _ _)).get? p=some _ from
        NodeStore.get?_save_self) hnext
      exact ⟨s₀,rest,hpass,rfl,rfl,rfl,.inr ⟨rfl,hcommit,rfl⟩⟩
    · have hidx := Node.index_congr (Node.commit_wiring hc)
      have hsame := get?_save_other hk fun he => hpk (hindex.symm.trans (hidx.symm.trans he.symm))
      have hpass := hloop.passes hs' hsame hnext
      have hnot : node.index≠k := hindex ▸ hpk
      exact ⟨s,rest,hpass,rfl,rfl,rfl,.inl ⟨by simpa using hpk,rfl,by simpa [hnot] using hpass.stays⟩⟩

/-! ### All runs -/

/-- The count is never ahead of the branch, and it keeps up exactly when all these visits were guarded. -/
def Tracks (s : Schedule) (visits : List Visit) (followed : ℕ) : Prop :=
  s.executions.getD 0≤followed ∧ (s.executions.getD 0=followed ↔ ∀ v ∈ visits, v.Guarded)

/-- The schedule `k` between its visits, and after an execution that has not been left yet. -/
structure Counts (k m : ℕ) (onSuccess onFailure : Option ℕ) (env : Env) (w : Watch) : Prop where
  sane : Sane w.chain.storage.nodes
  stands : w.chain.status≠.pending (some k) → ∃ s, s.Standing m ∧ Tracks s w.entered (w.followed k) ∧
    w.chain.storage.nodes.get? k=some (.condition (.schedule s) k onSuccess onFailure)
  waits : w.chain.status=.pending (some k) → ∃ s s' deps visits, s.Standing m ∧ s.Entered deps env s' ∧
    w.entered=visits ++ [⟨.condition (.schedule s) k onSuccess onFailure,deps,env⟩] ∧
    Tracks s visits (w.followed k) ∧
    w.chain.storage.nodes.get? k=some (.condition (.schedule s') k onSuccess onFailure)

variable {m : ℕ} {visits : List Visit} {followed : ℕ}

/-- A schedule is left through `on_success` exactly when it can execute. -/
theorem succeeds_schedule (i : ℕ) :
    (⟨.condition (.schedule s) i onSuccess onFailure,deps,env⟩ : Visit).succeeds=decide (s.canExecute env=.ok true) := rfl

/-- Leaving and committing the schedule counts the visit. -/
theorem Tracks.commit {s' s₂ : Schedule} (h : Tracks s visits followed) (hs : s.Standing m)
    (he : s.Entered deps env s') (hc : s'.commit=.ok (.schedule s₂)) :
    s₂.Standing m ∧ Tracks s₂ (visits ++ [⟨.condition (.schedule s) k onSuccess onFailure,deps,env⟩])
      (followed+s'.taken env) := by
  obtain ⟨hle,hiff⟩ := h
  obtain ⟨hs₂,hle₂,hcount⟩ := he.counted_iff hs hc
  refine ⟨hs₂,by omega,?_⟩
  have hlast : (⟨.condition (.schedule s) k onSuccess onFailure,deps,env⟩ : Visit).Guarded ↔ s.Guarded deps env := by
    refine ⟨fun h => h s k _ _ rfl,fun h t i a b ht => ?_⟩
    cases ht
    exact h
  rw [List.forall_mem_append,List.forall_mem_singleton,hlast,← hiff,← hcount]
  omega

theorem countP_of_stays {visits : List Visit} (h : ∀ v ∈ visits, v.node.index≠k) :
    visits.countP (fun v => v.node.index=k ∧ v.succeeds)=0 := by
  rw [List.countP_eq_zero]
  intro v hv
  simpa using fun hk => absurd hk (h v hv)

/-- The first part of a call: the schedule is between its visits, and the visit that was left is counted. -/
theorem Counts.left {env : Env} {w : Watch} {t : Turn} {previous : Option ℕ} {r : Processed}
    (h : Counts k m onSuccess onFailure env w) (ht : t.env=env) (hstat : w.chain.status=.pending previous)
    (hproc : process t.gas t.deps t.env w.chain.storage .execute previous=.ok r) :
    Sane r.nodes ∧ ∃ (s₀ : Schedule) (rest : Processed), s₀.Standing m ∧
      Passes k onSuccess onFailure s₀ t.deps t.env rest ∧ rest.progress=r.progress ∧ rest.executed=r.executed ∧
      rest.nodes=r.nodes ∧ Tracks s₀ w.entered (w.followed k+r.left.countP fun v => v.node.index=k ∧ v.succeeds) := by
  by_cases hk : previous=some k
  · obtain ⟨s,s',deps,visits,hs,he,hentered,htracks,hstored⟩ := h.waits (hstat.trans (by rw [hk]))
    obtain ⟨hsane,s₀,rest,hpass,hprogress,hexecuted,hnodes,⟨hne,_⟩ | ⟨_,hcommit,hleft⟩⟩ :=
      process_passes h.sane hstored hproc
    · exact absurd hk hne
    obtain ⟨hs₀,htracks₀⟩ := @Tracks.commit _ _ _ k onSuccess onFailure _ _ _ _ _ _ htracks hs he hcommit
    refine ⟨hsane,s₀,rest,hs₀,hpass,hprogress,hexecuted,hnodes,?_⟩
    have hcount : r.left.countP (fun v => v.node.index=k ∧ v.succeeds)=s'.taken env := by
      rw [hleft,List.countP_cons,countP_of_stays hpass.stays,Nat.zero_add,Schedule.taken,succeeds_schedule,ht]
      simp [Node.index]
    rw [hcount,hentered]
    exact htracks₀
  · obtain ⟨s,hs,htracks,hstored⟩ := h.stands fun he => hk (Status.pending.inj (hstat.symm.trans he))
    obtain ⟨hsane,s₀,rest,hpass,hprogress,hexecuted,hnodes,⟨_,rfl,hstays⟩ | ⟨he,_⟩⟩ :=
      process_passes h.sane hstored hproc
    · refine ⟨hsane,s₀,rest,hs,hpass,hprogress,hexecuted,hnodes,?_⟩
      rw [countP_of_stays hstays]
      exact htracks
    · exact absurd he hk

theorem step_counts {env : Env} {w w' : Watch} {t : Turn} (h : Counts k m onSuccess onFailure env w) (ht : t.env=env)
    (hstep : w.step k t=.ok w') : Counts k m onSuccess onFailure env w' := by
  obtain ⟨chain,hchain,hstep⟩ := Except.bind_eq_ok.mp hstep
  cases hstep
  obtain ⟨hstat,rfl⟩ | ⟨previous,r,hstat,hproc,hstorage,hstatus,_,hleft⟩ := Chain.step_eq_ok hchain
  · have hnil : entering k w.chain t=[] := by simp only [entering,hstat]
    rw [hnil,List.append_nil]
    exact h
  · have hentering : entering k w.chain t=
        (r.executed.filter fun node => node.index=k).map fun node => ⟨node,t.deps,t.env⟩ := by
      simp only [entering,hstat,hproc]
    obtain ⟨hsane,s₀,rest,hs₀,hpass,hprogress,hexecuted,hnodes,htracks⟩ := h.left ht hstat hproc
    have hends := hpass.ends
    rw [hprogress,hexecuted,hnodes] at hends
    have hstored : chain.storage.nodes=r.nodes := by rw [hstorage]
    have hfollowed : w.followed k+r.left.countP (fun v => v.node.index=k ∧ v.succeeds)=
        Watch.followed k ⟨chain,w.entered ++ entering k w.chain t,w.earlier⟩ := by
      rw [Watch.followed,Watch.followed,hleft,List.countP_append,Nat.add_assoc]
    rw [hfollowed] at htracks
    refine ⟨hstored ▸ hsane,fun hnot => ?_,fun hwait => ?_⟩
    · rcases hends with ⟨_,hnone,hkept⟩ | ⟨hnext,_⟩
      · rw [hnone,List.map_nil] at hentering
        refine ⟨s₀,hs₀,?_,hstored ▸ hkept⟩
        simpa only [hentering,List.append_nil] using htracks
      · exact absurd ((hstatus k).mpr hnext) hnot
    · rcases hends with ⟨hne,_⟩ | ⟨_,hone,s',he,hkept⟩
      · exact absurd ((hstatus k).mp hwait) hne
      · rw [hone,List.map_singleton] at hentering
        exact ⟨s₀,s',t.deps,w.entered,hs₀,ht ▸ he,by simp only [hentering,ht],htracks,hstored ▸ hkept⟩

/-- What is reached from a schedule that has not been executed counts its executions. -/
theorem Watched.counts {storage : StrategyStorage} {env : Env} {w : Watch} (hw : Watched k storage env w)
    (hsane : Sane storage.nodes) (hk : storage.nodes.get? k=some (.condition (.schedule s) k onSuccess onFailure))
    (hs : s.Standing m) (hnew : s.executions.getD 0=0) : Counts k m onSuccess onFailure env w := by
  induction hw with
  | start env =>
    refine ⟨hsane,fun _ => ⟨s,hs,⟨?_,?_⟩,hk⟩,fun h => by cases h⟩
    · rw [hnew]
      exact Nat.zero_le _
    · simp [hnew,Watch.followed,Chain.start]
  | call _ ht hstep ih => exact step_counts ih ht hstep
  | @run env w later _ hfin ih =>
    obtain ⟨s,hs,htracks,hstored⟩ := ih.stands (by rw [hfin]; simp)
    refine ⟨ih.sane,fun _ => ⟨s,hs,?_,hstored⟩,fun h => by cases h⟩
    simpa [Watch.followed,Chain.start] using htracks

/-- At the end of every run the branch has been followed at most `max_executions` times and as often as
`executions` says, if and only if every execution of the schedule was guarded. -/
theorem executions_count_iff {storage : StrategyStorage} {lists : List (List Node)} {w : Watch}
    (hh : History storage lists) (hinit : s.init deps=.ok (.schedule s))
    (hk : storage.nodes.get? k=some (.condition (.schedule s) k onSuccess onFailure))
    (hexecutions : s.executions=none) (hnext : s.next=none) (hmax : s.maxExecutions=some m)
    (hu : ∀ c ∈ s.executionRebate, c.amount<2^128) (hw : Watched k storage env w)
    (hfin : w.chain.status=.finished) :
    (w.followed k ≤ m ∧ ∃ s', w.chain.storage.nodes.get? k=some (.condition (.schedule s') k onSuccess onFailure) ∧
      s'.executions.getD 0=w.followed k) ↔ ∀ v ∈ w.entered, v.Guarded := by
  have hs : s.Standing m := ⟨hnext,hmax,Schedule.init_parses hinit,hu,by rw [hexecutions]; exact Nat.zero_le m⟩
  obtain ⟨_,hstands,_⟩ := hw.counts hh.keys.1 hk hs (by rw [hexecutions]; rfl)
  obtain ⟨s',hs',⟨_,hiff⟩,hstored⟩ := hstands (by rw [hfin]; simp)
  constructor
  · rintro ⟨_,s'',hstored',heq⟩
    rw [hstored] at hstored'
    obtain rfl : s'=s'' := by simpa using hstored'
    exact hiff.mp heq
  · intro hall
    have heq := hiff.mpr hall
    exact ⟨heq ▸ hs'.below,s',hstored,heq⟩

end
section

attribute [local instance] Crates.plain

/-- Every ten blocks, at most this often, with this rebate. -/
def atMost (limit : ℕ) (rebate : List Coin) : Schedule :=
  { Schedule.everyTenBlocks rebate [] with maxExecutions := some limit }

/-- A payment behind such a schedule. -/
def limited (limit : ℕ) (rebate : List Coin) : StrategyStorage :=
  holding [.condition (.schedule (atMost limit rebate)) 0 (some 1) none,payAll 1 none]

/-- A call that can read no balance. -/
def unread : Turn := ⟨3,Deps.silent,Schedule.atBlock 1,fun _ => .ok ()⟩

/-- With a limit of zero, the first run errs at the schedule and follows its branch all the same, and with
a limit of one so does a run that cannot compute the rebate: the branch is followed again by the next run. -/
theorem limit_not_kept :
    (∃ w, Watched 0 (limited 0 []) (Schedule.atBlock 1) w ∧ w.chain.status=.finished ∧ w.followed 0=1 ∧
      w.chain.storage.nodes.get? 0=some (.condition (.schedule (atMost 0 [])) 0 (some 1) none)) ∧
    ∃ w, Watched 0 (limited 1 [⟨5,"rune"⟩]) (Schedule.atBlock 1) w ∧ w.chain.status=.finished ∧ w.followed 0=2 ∧
      w.chain.storage.nodes.get? 0=some (.condition (.schedule (atMost 1 [⟨5,"rune"⟩])) 0 (some 1) none) := by
  constructor
  · have hw := Watched.start (k := 0) (s := limited 0 []) (Schedule.atBlock 1)
    have hw := Watched.call (t := unread) hw rfl rfl
    have hw := Watched.call (t := unread) hw rfl rfl
    have hw := Watched.call (t := unread) hw rfl rfl
    exact ⟨_,hw,by decide,by decide,by decide⟩
  · have hw := Watched.start (k := 0) (s := limited 1 [⟨5,"rune"⟩]) (Schedule.atBlock 1)
    have hw := Watched.call (t := unread) hw rfl rfl
    have hw := Watched.call (t := unread) hw rfl rfl
    have hw := Watched.call (t := unread) hw rfl rfl
    have hw := Watched.run (Schedule.atBlock 1) hw (by decide)
    have hw := Watched.call (t := unread) hw rfl rfl
    have hw := Watched.call (t := unread) hw rfl rfl
    have hw := Watched.call (t := unread) hw rfl rfl
    exact ⟨_,hw,by decide,by decide,by decide⟩

/-- One run with a limit of one. -/
theorem executions_count_iff_once : ∃ w, Watched 0 (limited 1 []) (Schedule.atBlock 1) w ∧
    w.chain.status=.finished ∧ w.followed 0=1 ∧
    (w.followed 0≤1 ∧ ∃ s', w.chain.storage.nodes.get? 0=some (.condition (.schedule s') 0 (some 1) none) ∧
      s'.executions.getD 0=w.followed 0) := by
  have hh : History (limited 1 []) [[.condition (.schedule (atMost 1 [])) 0 (some 1) none,payAll 1 none]] :=
    holding_history _ (by decide)
  have hinit : (atMost 1 []).init Deps.silent=.ok (.schedule (atMost 1 [])) := by decide
  have hstored : (limited 1 []).nodes.get? 0=some (.condition (.schedule (atMost 1 [])) 0 (some 1) none) := by decide
  have hw := Watched.start (k := 0) (s := limited 1 []) (Schedule.atBlock 1)
  have hw := Watched.call (t := unread) hw rfl rfl
  have hw := Watched.call (t := unread) hw rfl rfl
  have hw := Watched.call (t := unread) hw rfl rfl
  refine ⟨_,hw,by decide,by decide,?_⟩
  refine (executions_count_iff hh hinit hstored rfl rfl rfl (by simp [atMost,Schedule.everyTenBlocks]) hw (by decide)).mpr ?_
  intro v hv s i a b hnode _ m hm
  obtain rfl := List.mem_singleton.mp hv
  obtain rfl := Condition.schedule.inj (Node.condition.inj hnode).1
  obtain rfl := Option.some.inj hm
  exact ⟨fun _ => by decide,fun _ => ⟨fun _ => 0,by simp [atMost,Schedule.everyTenBlocks],
    by simp [Schedule.clamped,atMost,Schedule.everyTenBlocks]⟩⟩

end

end CalcRs.StrategyContract
