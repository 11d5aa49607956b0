import CalcRs.Conditions.Rebates
import CalcRs.Conditions.Trigger

/-! A batch of ids that the scheduler executes. Which triggers it takes depends on the set of the ids only,
and every trigger is taken once. -/
namespace CalcRs

/-- The message that a trigger was created with. -/
def Trigger.command (self : Trigger) : CreateTriggerMsg :=
  ⟨self.condition,self.msg,self.contractAddress,self.executors,self.jitter⟩

namespace SchedulerContract

section

variable [Crates] {deps : Deps} {env : Env} {info : MessageInfo} {triggers triggers' : Table ℕ Trigger}
  {messages : List SubMsg} {ids ids' : List ℕ}

/-- The stores of the scheduler. -/
inductive Reachable : Table ℕ Trigger → Prop
  | instantiate : Reachable Table.empty
  | call {deps : Deps} {env : Env} {info : MessageInfo} {msg : SchedulerExecuteMsg} {triggers triggers' : Table ℕ Trigger}
      {messages : List SubMsg} : Reachable triggers → execute deps env info triggers msg=.ok (triggers',messages) →
      Reachable triggers'

/-- The messages for a trigger that is executed: its call, and its rebate for the sender, unless that is empty. -/
def emitted (sender : Addr) (t : Trigger) : List SubMsg :=
  ⟨.wasmExecute t.contractAddress (.raw t.msg) [],.error,0⟩ ::
    if t.executionRebate=[] then [] else [⟨.bankSend sender t.executionRebate,.never,0⟩]

/-- The stored triggers that a batch takes. -/
def batch (triggers : Table ℕ Trigger) (deps : Deps) (env : Env) (sender : Addr) (ids : List ℕ) : List Trigger :=
  triggers.values.filter fun t => t.id ∈ ids ∧ Admits deps env sender t

/-- Every trigger is stored under its id and waits for a block or for a time. -/
structure Stored (triggers : Table ℕ Trigger) : Prop where
  keyed : Keyed triggers
  timed : ∀ k t, triggers.get? k=some t → Schedule.Supported t.condition

/-- Conditions on blocks and times can always be evaluated. -/
theorem isSatisfied_supported {c : Condition} (h : Schedule.Supported c) : ∃ b, c.isSatisfied deps env=.ok b := by
  cases c with
  | blocksCompleted => exact ⟨_,rfl⟩
  | timestampElapsed => exact ⟨_,rfl⟩
  | _ => cases h

theorem checkCondition_supported {c : Condition} (h : checkCondition c=.ok ()) : Schedule.Supported c := by
  cases c with
  | blocksCompleted => trivial
  | timestampElapsed => trivial
  | _ => cases h

/-- A creation adds one trigger, whose condition is checked and whose id is hashed. -/
theorem create_saves {command : CreateTriggerMsg} (hk : Keyed triggers)
    (h : create info triggers command=.ok (triggers',messages)) : ∃ t, Schedule.Supported t.condition ∧
      command.id info.sender=.ok t.id ∧ (∀ k t', triggers'.get? k=some t' → k=t.id ∧ t'=t ∨ triggers.get? k=some t') ∧
      t.owner=info.sender ∧ t.command=command := by
  simp only [SchedulerContract.create,genericErr,Except.ite_error_eq_ok] at h
  obtain ⟨_,hcheck,h⟩ := Except.bind_eq_ok.mp h.2
  obtain ⟨id,hid,h⟩ := Except.bind_eq_ok.mp h
  obtain ⟨⟨rest,subMessages⟩,hremove,h⟩ := Except.bind_eq_ok.mp h
  obtain ⟨rebate,_,h⟩ := Except.bind_eq_ok.mp h
  cases h
  obtain ⟨rfl,_,_⟩ := removeExisting_eq_ok hk hremove
  refine ⟨⟨id,info.sender,command.condition,command.msg,command.contractAddress,command.executors,rebate.toVec,
    command.jitter⟩,checkCondition_supported hcheck,hid,fun k t' ht' => ?_,rfl,rfl⟩
  rw [TriggerStore.save,Table.get?_insert] at ht'
  split_ifs at ht' with hk'
  · exact .inl ⟨hk',(Option.some.inj ht').symm⟩
  · rw [Table.get?_erase,if_neg hk'] at ht'
    exact .inr ht'

/-- Executing triggers only takes some out. -/
theorem execute_keeps (hk : Keyed triggers)
    (h : ids.foldlM (executeTrigger deps env info) (triggers,[])=.ok (triggers',messages)) {k : ℕ} {t : Trigger}
    (ht : triggers'.get? k=some t) : triggers.get? k=some t := by
  obtain ⟨rest,he⟩ := execute_effect hk h
  rw [he.stored,added,Option.elim_none,he.left] at ht
  split_ifs at ht
  exact ht

theorem Stored.create {command : CreateTriggerMsg} (hs : Stored triggers)
    (h : create info triggers command=.ok (triggers',messages)) : Stored triggers' := by
  obtain ⟨new,hnew,_,hget,_⟩ := create_saves hs.keyed h
  refine ⟨fun k t ht => ?_,fun k t ht => ?_⟩
  · rcases hget k t ht with ⟨rfl,rfl⟩ | hold
    · rfl
    · exact hs.keyed k t hold
  · rcases hget k t ht with ⟨rfl,rfl⟩ | hold
    · exact hnew
    · exact hs.timed k t hold

theorem Stored.execute (hs : Stored triggers)
    (h : ids.foldlM (executeTrigger deps env info) (triggers,[])=.ok (triggers',messages)) : Stored triggers' :=
  ⟨fun k t ht => hs.keyed k t (execute_keeps hs.keyed h ht),fun k t ht => hs.timed k t (execute_keeps hs.keyed h ht)⟩

theorem Reachable.stored (h : Reachable triggers) : Stored triggers := by
  induction h with
  | instantiate => exact ⟨fun _ _ h => (by cases h),fun _ _ h => (by cases h)⟩
  | @call deps env info msg triggers triggers' messages _ hcall ih =>
    cases msg with
    | create command => exact ih.create hcall
    | execute ids => exact ih.execute hcall

theorem id_lt (hhash : ∀ bytes, Crates.hash bytes<2^64) {command : CreateTriggerMsg} {sender : Addr} {id : ℕ}
    (h : command.id sender=.ok id) : id<2^64 := by
  obtain ⟨condition,_,h⟩ := Except.bind_eq_ok.mp h
  exact Except.ok.inj h ▸ hhash _

/-- Ids are hashes. -/
theorem Reachable.id_lt (hhash : ∀ bytes, Crates.hash bytes<2^64) (h : Reachable triggers) {k : ℕ} {t : Trigger}
    (ht : triggers.get? k=some t) : k<2^64 := by
  induction h generalizing k t with
  | instantiate => cases ht
  | @call deps env info msg triggers triggers' messages hbefore hcall ih =>
    cases msg with
    | create command =>
      obtain ⟨new,_,hid,hget,_⟩ := create_saves hbefore.stored.keyed hcall
      rcases hget k t ht with ⟨rfl,_⟩ | hold
      · exact SchedulerContract.id_lt hhash hid
      · exact ih hold
    | execute ids => exact ih (execute_keeps hbefore.stored.keyed hcall ht)

/-! ### One batch -/

omit [Crates] in
theorem emitted_eq (sender : Addr) (t : Trigger) : emitted sender t=
    ⟨.wasmExecute t.contractAddress (.raw t.msg) [],.error,0⟩ :: payRebate sender t.executionRebate := by
  unfold emitted payRebate
  cases t.executionRebate <;> simp

/-- A round that finds a trigger of a reachable store returns. -/
theorem executeTrigger_total {state : Table ℕ Trigger × List SubMsg} {removed : List Trigger} (hs : Stored triggers)
    (ht : Taken info triggers state removed) (id : ℕ) : ∃ state', executeTrigger deps env info state id=.ok state' := by
  unfold executeTrigger
  cases hget : state.1.get? id with
  | none => exact ⟨_,rfl⟩
  | some t =>
    have hstored : triggers.get? id=some t := by
      have hleft := ht.left id
      rw [hget] at hleft
      split_ifs at hleft
      exact hleft.symm
    obtain ⟨b,hb⟩ := @isSatisfied_supported _ deps env _ (hs.timed id t hstored)
    dsimp only
    split_ifs
    · exact ⟨_,rfl⟩
    · rw [hb,Fault.unwrapOr_ok,Except.ok_bind]
      split_ifs <;> exact ⟨_,rfl⟩

/-- What the rounds for the first ids have taken out: exactly the stored triggers among them that admit the sender. -/
structure Processed (deps : Deps) (env : Env) (info : MessageInfo) (before : Table ℕ Trigger) (ids : List ℕ)
    (state : Table ℕ Trigger × List SubMsg) (removed : List Trigger) : Prop where
  taken : Taken info before state removed
  exact : ∀ t, t ∈ removed ↔ before.get? t.id=some t ∧ t.id ∈ ids ∧ Admits deps env info.sender t

theorem Processed.round {state : Table ℕ Trigger × List SubMsg} {removed : List Trigger} (hs : Stored triggers)
    (hp : Processed deps env info triggers ids state removed) (id : ℕ) : ∃ state' removed',
      executeTrigger deps env info state id=.ok state' ∧ Processed deps env info triggers (ids ++ [id]) state' removed' := by
  obtain ⟨state',hround⟩ := @executeTrigger_total _ deps env _ _ _ _ hs hp.taken id
  rcases executeTrigger_taken hs.keyed hp.taken hround with ⟨ht,hskip⟩ | ⟨t,hstored,hadmits,ht⟩
  · refine ⟨state',removed,hround,ht,fun t => ⟨fun hmem => ?_,?_⟩⟩
    · obtain ⟨h1,h2,h3⟩ := (hp.exact t).mp hmem
      exact ⟨h1,List.mem_append_left _ h2,h3⟩
    · rintro ⟨hstored,hin,hadmits⟩
      rcases List.mem_append.mp hin with hin | hin
      · exact (hp.exact t).mpr ⟨hstored,hin,hadmits⟩
      · exact hskip t (List.mem_singleton.mp hin ▸ hstored) hadmits
  · have hid := hs.keyed id t hstored
    refine ⟨state',removed ++ [t],hround,ht,fun t' => ⟨fun hmem => ?_,?_⟩⟩
    · rcases List.mem_append.mp hmem with hmem | hmem
      · obtain ⟨h1,h2,h3⟩ := (hp.exact t').mp hmem
        exact ⟨h1,List.mem_append_left _ h2,h3⟩
      · obtain rfl := List.mem_singleton.mp hmem
        exact ⟨hid.symm ▸ hstored,by simp [hid],hadmits⟩
    · rintro ⟨hstored',hin,hadmits'⟩
      rcases List.mem_append.mp hin with hin | hin
      · exact List.mem_append_left _ ((hp.exact t').mpr ⟨hstored',hin,hadmits'⟩)
      · rw [List.mem_singleton.mp hin,hstored] at hstored'
        rw [Option.some.inj hstored']
        exact List.mem_append_right _ (List.mem_singleton_self _)

theorem Processed.rounds {done : List ℕ} {state : Table ℕ Trigger × List SubMsg} {removed : List Trigger}
    (hs : Stored triggers) (hp : Processed deps env info triggers done state removed) (ids : List ℕ) :
    ∃ state' removed', ids.foldlM (executeTrigger deps env info) state=.ok state' ∧
      Processed deps env info triggers (done ++ ids) state' removed' := by
  induction ids generalizing done state removed with
  | nil => exact ⟨state,removed,rfl,by rwa [List.append_nil]⟩
  | cons id ids ih =>
    obtain ⟨state₁,removed₁,hround,hp₁⟩ := hp.round hs id
    obtain ⟨state',removed',hrest,hp'⟩ := ih hp₁
    refine ⟨state',removed',by rw [List.foldlM_cons,hround,Except.ok_bind,hrest],?_⟩
    rwa [List.append_assoc,List.singleton_append] at hp'

/-- A batch on a reachable store, for its set of ids. -/
theorem Stored.batch (hs : Stored triggers) (deps : Deps) (env : Env) (info : MessageInfo) (ids : List ℕ) :
    ∃ triggers' messages, ids.foldlM (executeTrigger deps env info) (triggers,[])=.ok (triggers',messages) ∧
      (∀ k t, triggers'.get? k=some t ↔ triggers.get? k=some t ∧
        t ∉ SchedulerContract.batch triggers deps env info.sender ids) ∧
      messages.Perm ((SchedulerContract.batch triggers deps env info.sender ids).flatMap (emitted info.sender)) := by
  have hstart : Processed deps env info triggers [] (triggers,[]) [] :=
    ⟨⟨by simp,by simp,List.nodup_nil,rfl⟩,by simp⟩
  obtain ⟨⟨triggers',messages⟩,removed,hrun,⟨htaken,hexact⟩⟩ := hstart.rounds hs ids
  have hbatch : ∀ t, t ∈ SchedulerContract.batch triggers deps env info.sender ids ↔ t ∈ removed := fun t => by
    rw [SchedulerContract.batch,List.mem_filter,hexact,List.nil_append,decide_eq_true_eq]
    refine and_congr_left fun _ => ⟨hs.keyed.get?_of_mem,fun h => Table.mem_values.mpr ⟨_,h⟩⟩
  refine ⟨triggers',messages,hrun,fun k t => ?_,?_⟩
  · rw [hbatch,show triggers'.get? k=_ from htaken.left k]
    split_ifs with hk
    · obtain ⟨t',ht',hid⟩ := List.mem_map.mp hk
      have hstored := htaken.stored t' ht'
      rw [hid] at hstored
      refine iff_of_false (by simp) fun ⟨h1,h2⟩ => h2 ?_
      rwa [← Option.some.inj (hstored.symm.trans h1)]
    · refine ⟨fun h => ⟨h,fun hmem => hk ?_⟩,fun h => h.1⟩
      exact List.mem_map.mpr ⟨t,hmem,hs.keyed k t h⟩
  · simp only [show messages=_ from htaken.messages,← emitted_eq]
    refine List.Perm.flatMap_right _ ((List.perm_ext_iff_of_nodup htaken.nodup ?_).mpr fun t => (hbatch t).symm)
    exact hs.keyed.values_nodup.filter _

/-- Executing a list of ids takes exactly the listed triggers that are stored, satisfied and open to the
sender, emits their messages once each, and depends on the set of the ids only. -/
theorem execute_batch (h : Reachable triggers) (deps : Deps) (env : Env) (info : MessageInfo) (ids : List ℕ) :
    ∃ triggers' messages, execute deps env info triggers (.execute ids)=.ok (triggers',messages) ∧
      (∀ k t, triggers'.get? k=some t ↔ triggers.get? k=some t ∧ t ∉ batch triggers deps env info.sender ids) ∧
      messages.Perm ((batch triggers deps env info.sender ids).flatMap (emitted info.sender)) ∧
      ∀ ids', (∀ k, k ∈ ids' ↔ k ∈ ids) → ∃ messages', execute deps env info triggers (.execute ids')=
        .ok (triggers',messages') ∧ messages'.Perm messages := by
  obtain ⟨triggers',messages,hrun,hleft,hmessages⟩ := h.stored.batch deps env info ids
  refine ⟨triggers',messages,hrun,hleft,hmessages,fun ids' hsame => ?_⟩
  obtain ⟨triggers'',messages',hrun',hleft',hmessages'⟩ := h.stored.batch deps env info ids'
  have hbatch : batch triggers deps env info.sender ids'=batch triggers deps env info.sender ids :=
    List.filter_congr fun t _ => decide_eq_decide.mpr (and_congr_left fun _ => hsame t.id)
  rw [hbatch] at hleft' hmessages'
  have htriggers : triggers''=triggers' := Table.ext_get? fun k => Option.ext fun t => (hleft' k t).trans (hleft k t).symm
  exact ⟨messages',htriggers ▸ hrun',hmessages'.trans hmessages.symm⟩

end

section

attribute [local instance] Crates.plain

/-- Two triggers of alice: one has waited long enough, the other one has not. -/
def reached : CreateTriggerMsg := ⟨.blocksCompleted 5,asBytes "ping","clock",["keeper"],none⟩

def ahead : CreateTriggerMsg := ⟨.blocksCompleted 50,asBytes "later","clock",["keeper"],none⟩

def reachedTrigger : Trigger := ⟨23,"alice",.blocksCompleted 5,asBytes "ping","clock",["keeper"],[⟨5,"rune"⟩],none⟩

def aheadTrigger : Trigger := ⟨24,"alice",.blocksCompleted 50,asBytes "later","clock",["keeper"],[],none⟩

/-- A batch that repeats an id, lists an unknown one and one that is not satisfied. -/
theorem execute_batch_repeated : ∃ triggers, Reachable triggers ∧ triggers.values=[reachedTrigger,aheadTrigger] ∧
    ∃ triggers' messages, execute Deps.silent (Schedule.atBlock 10) ⟨"keeper",[]⟩ triggers (.execute [23,99,24,23])=
        .ok (triggers',messages) ∧
      triggers'.get? 23=none ∧ triggers'.get? 24=some aheadTrigger ∧ messages.Perm
        [⟨.wasmExecute "clock" (.raw (asBytes "ping")) [],.error,0⟩,⟨.bankSend "keeper" [⟨5,"rune"⟩],.never,0⟩] := by
  have hreached : execute Deps.silent (Schedule.atBlock 1) ⟨"alice",[⟨5,"rune"⟩]⟩ Table.empty (.create reached)=
      .ok (Table.empty.insert 23 reachedTrigger,[]) := by decide +kernel
  have hahead : execute Deps.silent (Schedule.atBlock 1) ⟨"alice",[]⟩ (Table.empty.insert 23 reachedTrigger) (.create ahead)=
      .ok ((Table.empty.insert 23 reachedTrigger).insert 24 aheadTrigger,[]) := by decide +kernel
  have hstore : Reachable ((Table.empty.insert 23 reachedTrigger).insert 24 aheadTrigger) :=
    .call (.call .instantiate hreached) hahead
  have hbatch : batch ((Table.empty.insert 23 reachedTrigger).insert 24 aheadTrigger) Deps.silent (Schedule.atBlock 10)
      "keeper" [23,99,24,23]=[reachedTrigger] := by decide +kernel
  obtain ⟨triggers',messages,hrun,hleft,hmessages,_⟩ :=
    execute_batch hstore Deps.silent (Schedule.atBlock 10) ⟨"keeper",[]⟩ [23,99,24,23]
  rw [hbatch] at hmessages
  simp only [hbatch,List.mem_singleton] at hleft
  refine ⟨_,hstore,by decide +kernel,triggers',messages,hrun,?_,(hleft 24 aheadTrigger).mpr (by decide +kernel),hmessages⟩
  refine Option.eq_none_iff_forall_ne_some.mpr fun t ht => ?_
  obtain ⟨hstored,hne⟩ := (hleft 23 t).mp ht
  exact hne (Option.some.inj hstored).symm

end

end SchedulerContract
end CalcRs
