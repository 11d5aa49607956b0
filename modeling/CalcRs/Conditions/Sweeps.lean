import CalcRs.Conditions.Filters

/-! A keeper asks for the triggers up to some height or time and executes what it is told, again and again. -/
namespace CalcRs

namespace SchedulerContract

section

variable {sender : Addr} {t : Trigger} {filter : ConditionFilter} {limit : Option ℕ} {triggers : Table ℕ Trigger}
  {env later : Env}

/-- The sender may execute the trigger. -/
def permits (sender : Addr) (t : Trigger) : Bool := decide (t.executors=[] ∨ sender ∈ t.executors)

/-- The ids of the triggers that the keeper is told. -/
def asked (filter : ConditionFilter) (limit : Option ℕ) (triggers : Table ℕ Trigger) : List ℕ :=
  (TriggerStore.filtered triggers filter limit).map Trigger.id

/-- Blocks and times that have come stay so. -/
theorem isReached_mono {c : Condition} (hb : env.block.height ≤ later.block.height) (ht : env.block.time ≤ later.block.time)
    (h : c.isReached env=true) : c.isReached later=true := by
  cases c with
  | blocksCompleted height => exact decide_eq_true ((of_decide_eq_true h).trans hb)
  | timestampElapsed time =>
    have h : time.nanos ≤ env.block.time.nanos := of_decide_eq_true h
    exact decide_eq_true (h.trans ht)
  | _ => cases h

theorem permits_iff : permits sender t=true ↔ t.executors=[] ∨ sender ∈ t.executors := decide_eq_true_iff

theorem mem_asked {id : ℕ} : id ∈ asked filter limit triggers ↔
    ∃ u ∈ (TriggerStore.scanned triggers filter).take (limit.getD 30), u.id=id := by
  rw [asked,TriggerStore.filtered_eq,List.mem_map]

variable [Crates] {deps : Deps} {info : MessageInfo} {triggers' : Table ℕ Trigger} {messages : List SubMsg}
  {x : Trigger}

/-- The sender may execute it, and what it waits for has come. -/
def opens (env : Env) (sender : Addr) (t : Trigger) : Bool := t.condition.isReached env && permits sender t

/-- The keeper asks, and executes the answer in a block that is not earlier, whatever calls came in between. -/
def Sweeps (quiet : Table ℕ Trigger → Table ℕ Trigger → Prop) (env : Env) (sender : Addr) (filter : ConditionFilter)
    (limit : Option ℕ) (triggers triggers' : Table ℕ Trigger) : Prop :=
  ∃ found, Relation.ReflTransGen quiet triggers found ∧
    ∃ deps later funds messages, env.block.height ≤ later.block.height ∧ env.block.time ≤ later.block.time ∧
      execute deps later ⟨sender,funds⟩ found (.execute (asked filter limit triggers))=.ok (triggers',messages)

/-- Any call that creates nothing in the range. -/
def Spares (filter : ConditionFilter) (triggers triggers' : Table ℕ Trigger) : Prop :=
  ∃ deps env info msg messages, execute deps env info triggers msg=.ok (triggers',messages) ∧
    ∀ command, msg=.create command → filter.within ((filter.position command.condition).getD U64.MAX)=false

/-- Any call that takes nothing out. -/
def Adds (triggers triggers' : Table ℕ Trigger) : Prop :=
  ∃ deps env info msg messages, execute deps env info triggers msg=.ok (triggers',messages) ∧
    triggers.values ⊆ triggers'.values

theorem isSatisfied_reached {c : Condition} (h : Schedule.Supported c) : c.isSatisfied deps env=.ok (c.isReached env) := by
  cases c with
  | blocksCompleted => rfl
  | timestampElapsed => rfl
  | _ => cases h

/-- `CanExecute` answers for the condition. -/
theorem canExecute_reached (hs : Stored triggers) (ht : t ∈ triggers.values) :
    canExecute deps env triggers t.id=.ok (t.condition.isReached env) := by
  have hget := hs.keyed.get?_of_mem ht
  rw [canExecute,hget]
  exact isSatisfied_reached (hs.timed _ t hget)

theorem admits_of_opens (hc : Schedule.Supported t.condition) (hb : env.block.height ≤ later.block.height)
    (ht : env.block.time ≤ later.block.time) (h : opens env sender t=true) : Admits deps later sender t := by
  obtain ⟨hreached,hpermits⟩ := Bool.and_eq_true_iff.mp h
  exact ⟨by rw [isSatisfied_reached hc,isReached_mono hb ht hreached],permits_iff.mp hpermits⟩

theorem Reachable.ids (hhash : ∀ bytes, Crates.hash bytes<2^64) (h : Reachable triggers) : ∀ t ∈ triggers.values, t.id<2^64 :=
  fun _ ht => h.id_lt hhash (h.stored.keyed.get?_of_mem ht)

theorem mem_scanned (hhash : ∀ bytes, Crates.hash bytes<2^64) (h : Reachable triggers) :
    t ∈ TriggerStore.scanned triggers filter ↔ t ∈ triggers.values ∧ filter.within (filter.index t)=true := by
  rw [(TriggerStore.scanned_spec h.stored.keyed (h.ids hhash) filter).1.mem_iff,List.mem_filter]

/-- What an execution leaves: everything but what it is told, can be executed and is open to the keeper. -/
theorem Stored.executed (env : Env) {ids : List ℕ} {funds : List Coin} (hs : Stored triggers)
    (he : SchedulerContract.execute deps later ⟨sender,funds⟩ triggers (.execute ids)=.ok (triggers',messages)) :
    (∀ t ∈ triggers'.values, t ∈ triggers.values) ∧
    (∀ t ∈ triggers.values, t ∈ triggers'.values ∨ t.id ∈ ids ∧ permits sender t=true) ∧
    ∀ t ∈ triggers.values, t.id ∈ ids → env.block.height ≤ later.block.height → env.block.time ≤ later.block.time →
      opens env sender t=true → t ∉ triggers'.values := by
  obtain ⟨left,sent,hbatch,hleft,_⟩ := hs.batch deps later ⟨sender,funds⟩ ids
  obtain ⟨rfl,rfl⟩ := Prod.mk.inj (Except.ok.inj (hbatch.symm.trans he))
  refine ⟨fun t ht => ?_,fun t ht => ?_,fun t ht hid hb htime hopens hstill => ?_⟩
  · obtain ⟨k,hk⟩ := Table.mem_values.mp ht
    exact Table.mem_values.mpr ⟨k,((hleft k t).mp hk).1⟩
  · refine or_iff_not_imp_left.mpr fun hgone => ?_
    by_cases hin : t ∈ SchedulerContract.batch triggers deps later sender ids
    · obtain ⟨hid,hadmits⟩ := of_decide_eq_true (List.mem_filter.mp hin).2
      exact ⟨hid,permits_iff.mpr hadmits.2⟩
    · exact absurd (Table.mem_values.mpr ⟨_,(hleft _ t).mpr ⟨hs.keyed.get?_of_mem ht,hin⟩⟩) hgone
  · obtain ⟨k,hk⟩ := Table.mem_values.mp hstill
    obtain ⟨hget,hnot⟩ := (hleft k t).mp hk
    exact hnot (List.mem_filter.mpr
      ⟨ht,decide_eq_true ⟨hid,admits_of_opens (hs.timed k t hget) hb htime hopens⟩⟩)

/-- Whatever the keeper was told before, his execution does not fail. -/
theorem Stored.executes (hs : Stored triggers) (deps : Deps) (env : Env) (sender : Addr) (funds : List Coin)
    (ids : List ℕ) : ∃ triggers' messages,
      SchedulerContract.execute deps env ⟨sender,funds⟩ triggers (.execute ids)=.ok (triggers',messages) := by
  obtain ⟨left,sent,hbatch,_⟩ := hs.batch deps env ⟨sender,funds⟩ ids
  exact ⟨left,sent,hbatch⟩

/-- Other calls bring nothing into the range. -/
theorem Spares.leaves (hhash : ∀ bytes, Crates.hash bytes<2^64) (h : Reachable triggers) (hs : Spares filter triggers triggers') :
    Reachable triggers' ∧ TriggerStore.scanned triggers' filter ⊆ TriggerStore.scanned triggers filter := by
  obtain ⟨deps,env,info,msg,messages,he,hcreate⟩ := hs
  have h' : Reachable triggers' := .call h he
  refine ⟨h',fun t ht => ?_⟩
  obtain ⟨hmem,hwithin⟩ := (mem_scanned hhash h').mp ht
  obtain ⟨k,hk⟩ := Table.mem_values.mp hmem
  refine (mem_scanned hhash h).mpr ⟨Table.mem_values.mpr ⟨k,?_⟩,hwithin⟩
  cases msg with
  | create command =>
    obtain ⟨new,_,_,hget,_,hcommand⟩ := create_saves h.stored.keyed he
    rcases hget k t hk with ⟨_,rfl⟩ | hold
    · have hout := hcreate command rfl
      rw [← hcommand] at hout
      rw [filter.index_eq] at hwithin
      exact absurd hwithin (by simpa [Trigger.command] using hout)
    · exact hold
  | execute ids => exact execute_keeps h.stored.keyed he hk

/-- So with any number of them. -/
theorem Spares.run (hhash : ∀ bytes, Crates.hash bytes<2^64) (h : Reachable triggers)
    (hs : Relation.ReflTransGen (Spares filter) triggers triggers') :
    Reachable triggers' ∧ TriggerStore.scanned triggers' filter ⊆ TriggerStore.scanned triggers filter := by
  induction hs with
  | refl => exact ⟨h,List.Subset.refl _⟩
  | tail _ hstep ih =>
    obtain ⟨hreach,hless⟩ := hstep.leaves hhash ih.1
    exact ⟨hreach,List.Subset.trans hless ih.2⟩

theorem Adds.run (h : Reachable triggers) (hs : Relation.ReflTransGen Adds triggers triggers') :
    Reachable triggers' ∧ triggers.values ⊆ triggers'.values := by
  induction hs with
  | refl => exact ⟨h,List.Subset.refl _⟩
  | tail _ hstep ih =>
    obtain ⟨_,_,_,_,_,he,hkeep⟩ := hstep
    exact ⟨.call ih.1 he,List.Subset.trans ih.2 hkeep⟩

theorem scanned_subset (hhash : ∀ bytes, Crates.hash bytes<2^64) (filter : ConditionFilter) (h : Reachable triggers)
    (h' : Reachable triggers') (hsub : triggers.values ⊆ triggers'.values) :
    TriggerStore.scanned triggers filter ⊆ TriggerStore.scanned triggers' filter := fun t ht => by
  obtain ⟨hmem,hwithin⟩ := (mem_scanned hhash h).mp ht
  exact (mem_scanned hhash h').mpr ⟨hsub hmem,hwithin⟩

theorem ordered (hhash : ∀ bytes, Crates.hash bytes<2^64) (env : Env) (sender : Addr) (filter : ConditionFilter)
    (limit : Option ℕ) {quiet : Table ℕ Trigger → Table ℕ Trigger → Prop}
    (hq : ∀ triggers triggers', Reachable triggers → Relation.ReflTransGen quiet triggers triggers' → Reachable triggers') :
    Paging.Ordered Reachable (fun triggers => TriggerStore.scanned triggers filter) filter.place
      (Sweeps quiet env sender filter limit) quiet where
  sorted _ h := (TriggerStore.scanned_spec h.stored.keyed (h.ids hhash) filter).2
  stays _ _ h hs := by
    rcases hs with ⟨found,hfound,_,_,_,_,_,_,he⟩ | hs
    · exact .call (hq _ _ h hfound) he
    · exact hq _ _ h (.single hs)

/-- When nothing came into the range since the keeper asked, a sweep takes from it what is open to him and was among the
first, if nobody else did. -/
theorem Sweeps.spared (hhash : ∀ bytes, Crates.hash bytes<2^64) (h : Reachable triggers)
    (hs : Sweeps (Spares filter) env sender filter limit triggers triggers') :
    TriggerStore.scanned triggers' filter ⊆ TriggerStore.scanned triggers filter ∧
    ∀ t ∈ (TriggerStore.scanned triggers filter).take (limit.getD 30), opens env sender t=true →
      t ∉ TriggerStore.scanned triggers' filter := by
  obtain ⟨found,hfound,deps,later,funds,messages,hb,htime,he⟩ := hs
  obtain ⟨hreach,hless⟩ := Spares.run hhash h hfound
  obtain ⟨hrest,_,hserved⟩ := hreach.stored.executed env he
  have hreach' : Reachable triggers' := .call hreach he
  refine ⟨List.Subset.trans (scanned_subset hhash filter hreach' hreach hrest) hless,fun t ht hopens hstill => ?_⟩
  have hstill := ((mem_scanned hhash hreach').mp hstill).1
  exact hserved t (hrest t hstill) (mem_asked.mpr ⟨t,ht,rfl⟩) hb htime hopens hstill

/-- When nothing was taken out since the keeper asked, a sweep leaves what was not among the first and what is not open
to him. -/
theorem Sweeps.added (hhash : ∀ bytes, Crates.hash bytes<2^64) (h : Reachable triggers)
    (hs : Sweeps Adds env sender filter limit triggers triggers') :
    ∀ t ∈ TriggerStore.scanned triggers filter, t ∉ (TriggerStore.scanned triggers filter).take (limit.getD 30) ∨
      (!permits sender t)=true → t ∈ TriggerStore.scanned triggers' filter := by
  obtain ⟨found,hfound,deps,later,funds,messages,_,_,he⟩ := hs
  obtain ⟨hreach,hkeep⟩ := Adds.run h hfound
  intro t ht hlate
  obtain ⟨hmem,hwithin⟩ := (mem_scanned hhash h).mp ht
  refine (mem_scanned hhash (.call hreach he)).mpr
    ⟨((hreach.stored.executed env he).2.1 t (hkeep hmem)).resolve_right ?_,hwithin⟩
  rintro ⟨hid,hpermits⟩
  obtain ⟨u,hu,hsame⟩ := mem_asked.mp hid
  -- ids are unique in the store
  have hfront := hreach.stored.keyed.get?_of_mem (hkeep ((mem_scanned hhash h).mp (List.mem_of_mem_take hu)).1)
  rw [hsame,hreach.stored.keyed.get?_of_mem (hkeep hmem)] at hfront
  obtain rfl := Option.some.inj hfront
  rcases hlate with hlate | hlate
  · exact hlate hu
  · simp [hpermits] at hlate

/-- A trigger that can be executed is, after a number of sweeps, if fewer triggers than the limit come before it that are
not open to the keeper. Behind so many that he must not execute it is never executed. -/
theorem sweeps_serve (hhash : ∀ bytes, Crates.hash bytes<2^64) (deps : Deps) (env : Env) (sender : Addr)
    (filter : ConditionFilter) (limit : Option ℕ) (h : Reachable triggers) (hx : x ∈ triggers.values)
    (hin : filter.within (filter.index x)=true) :
    let queue := Paging.prior filter.place (TriggerStore.scanned triggers filter) x
    (∀ k triggers' found, Paging.Rounds (Sweeps (Spares filter) env sender filter limit) (Spares filter) triggers k triggers' →
      Relation.ReflTransGen (Spares filter) triggers' found → ∀ deps later funds, ∃ triggers'' messages,
        execute deps later ⟨sender,funds⟩ found (.execute (asked filter limit triggers'))=.ok (triggers'',messages)) ∧
    (canExecute deps env triggers x.id=.ok true → permits sender x=true → ∀ k triggers',
      Paging.Rounds (Sweeps (Spares filter) env sender filter limit) (Spares filter) triggers k triggers' →
      queue.length<k*(limit.getD 30-queue.countP fun t => !opens env sender t) → x ∉ triggers'.values) ∧
    (limit.getD 30 ≤ queue.countP (fun t => !permits sender t) → ∀ k triggers',
      Paging.Rounds (Sweeps Adds env sender filter limit) Adds triggers k triggers' → x ∈ triggers'.values) := by
  intro queue
  have hspares := ordered hhash env sender filter limit fun _ _ h
    (hs : Relation.ReflTransGen (Spares filter) _ _) => (Spares.run hhash h hs).1
  have hadds := ordered hhash env sender filter limit fun _ _ h hs => (Adds.run h hs).1
  have hmem : x ∈ TriggerStore.scanned triggers filter := (mem_scanned hhash h).mpr ⟨hx,hin⟩
  refine ⟨fun k triggers' found hrounds hfound deps later funds => ?_,fun hcan hpermits k triggers' hrounds hlong hstill => ?_,
    fun hstuck k triggers' hrounds => ?_⟩
  · exact (Spares.run hhash (hspares.rounds h hrounds) hfound).1.stored.executes deps later sender funds _
  · have hopens : opens env sender x=true := by
      rw [canExecute_reached h.stored hx] at hcan
      exact Bool.and_eq_true_iff.mpr ⟨Except.ok.inj hcan,hpermits⟩
    have hstill' := (mem_scanned hhash (hspares.rounds h hrounds)).mpr ⟨hstill,hin⟩
    obtain ⟨_,_,hle⟩ := hrounds.moves_up hspares
      (fun _ _ h hs => hs.elim (fun hs => (hs.spared hhash h).1) fun hs => (hs.leaves hhash h).2)
      (fun _ _ h hs => (hs.spared hhash h).2) h hstill' hopens
    change _+k*(limit.getD 30-queue.countP fun t => !opens env sender t) ≤ queue.length at hle
    omega
  · have hfound := hrounds.stays_behind hadds (fun _ _ h hs => hs.added hhash h)
      (fun _ _ h hs => scanned_subset hhash filter h (Adds.run h (.single hs)).1 (Adds.run h (.single hs)).2) h hmem hstuck
    exact ((mem_scanned hhash (hadds.rounds h hrounds)).mp hfound.1).1

end

attribute [local instance] TriggerStore.hashed

def another : CreateTriggerMsg := ⟨.blocksCompleted 3,asBytes "knock","clock",["guard"],none⟩

def anotherTrigger : Trigger := ⟨24,"alice",.blocksCompleted 3,asBytes "knock","clock",["guard"],[],none⟩

def hindmost : CreateTriggerMsg := ⟨.blocksCompleted 6,asBytes "bell","tower",[],none⟩

def hindmostTrigger : Trigger := ⟨23,"alice",.blocksCompleted 6,asBytes "bell","tower",[],[],none⟩

def queued : Table ℕ Trigger := (Table.empty.insert 24 anotherTrigger).insert 23 hindmostTrigger

/-- Behind a trigger of the guard, the last one is executed by a keeper who asks for two, and never by one who asks for one. -/
theorem sweeps_serve_guarded : Reachable queued ∧
    (∀ triggers', Paging.Rounds (Sweeps (Spares (.blockHeight none (some 10))) (Schedule.atBlock 10) "keeper"
      (.blockHeight none (some 10)) (some 2)) (Spares (.blockHeight none (some 10))) queued 2 triggers' →
      hindmostTrigger ∉ triggers'.values) ∧
    ∀ k triggers', Paging.Rounds (Sweeps Adds (Schedule.atBlock 10) "keeper" (.blockHeight none (some 10)) (some 1)) Adds
      queued k triggers' → hindmostTrigger ∈ triggers'.values := by
  have hanother : execute Deps.silent (Schedule.atBlock 1) ⟨"alice",[]⟩ Table.empty (.create another)=
      .ok (Table.empty.insert 24 anotherTrigger,[]) := by decide +kernel
  have hhindmost : execute Deps.silent (Schedule.atBlock 1) ⟨"alice",[]⟩ (Table.empty.insert 24 anotherTrigger)
      (.create hindmost)=.ok (queued,[]) := by decide +kernel
  have hreach : Reachable queued := .call (.call .instantiate hanother) hhindmost
  have hmem : hindmostTrigger ∈ queued.values := by decide +kernel
  have hserve := fun limit => sweeps_serve (fun _ => Nat.mod_lt _ (by decide)) Deps.silent (Schedule.atBlock 10) "keeper"
    (.blockHeight none (some 10)) limit hreach hmem (by decide +kernel)
  exact ⟨hreach,fun triggers' hrounds => (hserve (some 2)).2.1 (by decide +kernel) (by decide +kernel) 2 triggers' hrounds
    (by decide +kernel),fun k triggers' hrounds => (hserve (some 1)).2.2 (by decide +kernel) k triggers' hrounds⟩

end SchedulerContract
end CalcRs
