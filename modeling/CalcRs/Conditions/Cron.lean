import CalcRs.Conditions.Execution

/-! Cron schedules. The cadence that `crank` stores already names the next occurrence, and the trigger is
registered for the occurrence after that one. -/
namespace CalcRs

/-- `after(t).next()`: the least occurrence strictly later than `t`, or none. Occurrences are whole
seconds from the epoch on, and their nanoseconds fit an `i64`. -/
structure CronSpec (after : ℤ → Option ℤ) (occurrences : Set ℕ) : Prop where
  least : ∀ t o, after t=some o → ∃ n ∈ occurrences, o=(n : ℤ) ∧ t<(n : ℤ)*10^9 ∧
    ∀ m ∈ occurrences, t<(m : ℤ)*10^9 → n ≤ m
  never : ∀ t, after t=none → ∀ m ∈ occurrences, (m : ℤ)*10^9≤t
  bounded : ∀ m ∈ occurrences, m*10^9<2^63

/-- The first occurrence strictly later than `now`. -/
structure FirstLater (occurrences : Set ℕ) (now : Timestamp) (o : ℕ) : Prop where
  mem : o ∈ occurrences
  later : now.nanos<o*10^9
  least : ∀ m ∈ occurrences, now.nanos < m*10^9 → o ≤ m

namespace CronSpec

variable {after : ℤ → Option ℤ} {occurrences : Set ℕ}

/-- The timestamp of an occurrence does not overflow. -/
theorem fromSeconds (h : CronSpec after occurrences) {n : ℕ} (hn : n ∈ occurrences) :
    Timestamp.fromSeconds (asU64 (n : ℤ))=.ok ⟨n*10^9⟩ := by
  have hb := h.bounded n hn
  have hu : asU64 (n : ℤ)=n := by
    rw [asU64]
    omega
  have hm : U64.mul n Timestamp.nanosPerSecond=.ok (n*10^9) := by
    rw [U64.mul,Timestamp.nanosPerSecond]
    exact fits_of_lt (by omega)
  rw [Timestamp.fromSeconds,hu,hm,Except.map_ok]

end CronSpec

namespace Schedule

section

variable [Crates]

/-- A due schedule is executed and committed, and a trigger for `registered` is sent. -/
structure Executed (s : Schedule) (deps : Deps) (env : Env) (registered : Condition) (s' : Schedule) : Prop where
  due : s.cadence.isDue env=.ok true
  runs : ∃ rebate stored, s.executeUnsafe deps env=.ok ([.wasmExecute s.schedulerAddress
    (.scheduler (.create (s.createTriggerMsg env registered))) rebate],.schedule stored) ∧
    stored.commit=.ok (.schedule s')

variable {s s' : Schedule} {deps : Deps} {env : Env} {registered : Condition} {expr : String}
  {previous : Option Timestamp} {after : ℤ → Option ℤ} {occurrences : Set ℕ}

theorem executed_advance (h : Executed s deps env registered s') :
    ∃ current, s.cadence.crank env=.ok current ∧ current.intoCondition env=.ok registered ∧ s'.cadence=current := by
  obtain ⟨hdue,rebate,stored,hexec,hcommit⟩ := h
  obtain ⟨_,condition,s₁,_,_,hadvance,hstored,hmessages⟩ := executeUnsafe_eq_ok hexec
  obtain rfl := Condition.schedule.inj hstored
  obtain rfl : registered=condition := by
    simp only [createTriggerMsg,List.cons.injEq,CosmosMsg.wasmExecute.injEq,Body.scheduler.injEq,
      SchedulerExecuteMsg.create.injEq,CreateTriggerMsg.mk.injEq] at hmessages
    tauto
  obtain ⟨_,current,hcrank,hinto,rfl⟩ | ⟨hnot,_⟩ := advance_eq_ok hadvance
  · obtain ⟨hnone,_⟩ | ⟨next,hnext,hsame⟩ := commit_eq_ok hcommit
    · cases hnone
    · cases hnext
      exact ⟨_,hcrank,hinto,congrArg Schedule.cadence (Condition.schedule.inj hsame)⟩
  · rw [hdue] at hnot
    cases hnot

theorem cronAfter_eq (hexpr : Crates.cronAfter expr=.ok after) (time : Timestamp) :
    Cadence.cronAfter expr time=.ok (after (U64.asI64 time.nanos)) := by
  rw [Cadence.cronAfter,hexpr]

/-- Cranking takes the occurrence after the current time, or after a `previous` that is not earlier. -/
theorem crank_cron {current : Cadence} (hexpr : Crates.cronAfter expr=.ok after) (hs : CronSpec after occurrences)
    (h : (Cadence.cron expr previous).crank env=.ok current) :
    ∃ n ∈ occurrences, current=.cron expr (some ⟨n*10^9⟩) ∧
      after (U64.asI64 (Cadence.cronBase previous env).nanos)=some (n : ℤ) := by
  rw [Cadence.crank,cronAfter_eq hexpr,Except.ok_bind] at h
  cases ha : after (U64.asI64 (Cadence.cronBase previous env).nanos) with
  | none =>
    simp only [ha] at h
    obtain ⟨_,hf,_⟩ := Except.map_eq_ok.mp h
    obtain ⟨_,hm,_⟩ := Except.map_eq_ok.mp hf
    have := (fits_eq_ok.mp hm).1
    simp only [Timestamp.nanosPerSecond] at this
    omega
  | some o =>
    obtain ⟨n,hn,rfl,_⟩ := hs.least _ _ ha
    simp only [ha,hs.fromSeconds hn] at h
    obtain ⟨t,ht,rfl⟩ := Except.map_eq_ok.mp h
    obtain rfl := Except.ok.inj ht
    exact ⟨n,hn,rfl,rfl⟩

theorem intoCondition_cron (hexpr : Crates.cronAfter expr=.ok after) (hs : CronSpec after occurrences)
    {p : Timestamp} {n : ℕ} (hn : n ∈ occurrences) (ha : after (U64.asI64 p.nanos)=some (n : ℤ)) :
    (Cadence.cron expr (some p)).intoCondition env=.ok (.timestampElapsed ⟨n*10^9⟩) := by
  rw [Cadence.intoCondition,cronAfter_eq hexpr,Option.getD_some,ha,Except.ok_bind]
  dsimp only
  rw [hs.fromSeconds hn,Except.map_ok]

theorem intoCondition_cron_none (hexpr : Crates.cronAfter expr=.ok after) {p : Timestamp}
    (ha : after (U64.asI64 p.nanos)=none) :
    (Cadence.cron expr (some p)).intoCondition env=.ok (.blocksCompleted (2^64-1)) := by
  rw [Cadence.intoCondition,cronAfter_eq hexpr,Option.getD_some,ha]
  rfl

/-- The trigger is registered for the first occurrence later than `now`, and the cadence is due there. -/
structure Reschedules (registered : Condition) (s' : Schedule) (o : ℕ) : Prop where
  trigger : registered=.timestampElapsed ⟨o*10^9⟩
  next : ∀ env, s'.cadence.isDue env=.ok (decide (o*10^9≤env.block.time.nanos))

/-- The stored `previous` reads as a time before the epoch and exactly one occurrence has passed. -/
def OnlyOnePassed (occurrences : Set ℕ) (previous : Option Timestamp) (now : Timestamp) : Prop :=
  ∃ p, previous=some p ∧ 2^63≤p.nanos ∧
    ∃ m ∈ occurrences, m*10^9≤now.nanos ∧ ∀ m' ∈ occurrences, m'*10^9≤now.nanos → m'=m

/-- The stored `previous` reads as a time before the epoch. -/
def BeforeEpoch (previous : Option Timestamp) : Prop := ∃ p, previous=some p ∧ 2^63≤p.nanos

/-- What an execution stores and registers: an occurrence `n` and the one after it. Here `n` is the
first later than `now`, unless `previous` reads as a time before the epoch. -/
theorem executed_cron (hexpr : Crates.cronAfter expr=.ok after) (hs : CronSpec after occurrences)
    (hc : s.cadence=.cron expr previous) (hp : ∀ p ∈ previous, p.nanos<2^64)
    (h : Executed s deps env registered s') {o : ℕ} (ho : FirstLater occurrences env.block.time o) :
    ∃ n ∈ occurrences, s'.cadence=.cron expr (some ⟨n*10^9⟩) ∧
      (Cadence.cron expr (some ⟨n*10^9⟩)).intoCondition env=.ok registered ∧
      (¬BeforeEpoch previous → n=o) ∧
      (BeforeEpoch previous → n*10^9≤env.block.time.nanos ∧ ∀ m ∈ occurrences, n ≤ m) := by
  obtain ⟨current,hcrank,hinto,hcur⟩ := executed_advance h
  rw [hc] at hcrank
  obtain ⟨n,hn,rfl,ha⟩ := crank_cron hexpr hs hcrank
  have hnow : env.block.time.nanos<2^63 := ho.later.trans (hs.bounded o ho.mem)
  have hfirst : after (U64.asI64 env.block.time.nanos)=some (n : ℤ) → n=o := by
    intro ha
    rw [U64.asI64,if_pos hnow] at ha
    obtain ⟨n',_,hcast,hlt,hle⟩ := hs.least _ _ ha
    obtain rfl : n=n' := by exact_mod_cast hcast
    have h1 := hle o ho.mem (by have := ho.later; omega)
    have h2 := ho.least n hn (by omega)
    omega
  have hdue : ∀ p, previous=some p → after (U64.asI64 p.nanos)=some (n : ℤ) → n*10^9≤env.block.time.nanos := by
    intro p hprev ha
    have hdue := h.due
    rw [hc,hprev] at hdue
    simp only [Cadence.isDue,intoCondition_cron hexpr hs hn ha,Except.ok_bind,Condition.isReached] at hdue
    exact of_decide_eq_true (Except.ok.inj hdue)
  refine ⟨n,hn,hcur,hinto,fun hnot => ?_,fun hbefore => ?_⟩
  · cases previous with
    | none => exact hfirst ha
    | some p =>
      by_cases hlt : p<env.block.time
      · rw [Cadence.cronBase,if_pos hlt] at ha
        exact hfirst ha
      · -- the schedule is due, so the occurrence after `previous` is not later than `now`
        rw [Cadence.cronBase,if_neg hlt] at ha
        have hge : env.block.time.nanos≤p.nanos := not_lt.mp hlt
        have hreached := hdue p rfl ha
        obtain ⟨n',_,hcast,hafter,_⟩ := hs.least _ _ ha
        obtain rfl : n=n' := by exact_mod_cast hcast
        have hsmall : p.nanos<2^63 := not_le.mp fun hle => hnot ⟨p,rfl,hle⟩
        rw [U64.asI64,if_pos hsmall] at hafter
        omega
  · obtain ⟨p,rfl,hbig⟩ := hbefore
    have hlt : ¬p<env.block.time := fun hlt => by
      have : p.nanos<env.block.time.nanos := hlt
      omega
    rw [Cadence.cronBase,if_neg hlt] at ha
    obtain ⟨n',_,hcast,_,hle⟩ := hs.least _ _ ha
    obtain rfl : n=n' := by exact_mod_cast hcast
    have hu := hp p rfl
    exact ⟨hdue p rfl ha,fun m hm => hle m hm (by rw [U64.asI64,if_neg (by omega)]; omega)⟩

/-- The condition built from a stored occurrence is the occurrence after it. -/
theorem intoCondition_occurrence (hexpr : Crates.cronAfter expr=.ok after) (hs : CronSpec after occurrences)
    {n : ℕ} (hn : n ∈ occurrences) :
    (∃ k ∈ occurrences, n<k ∧ (∀ m ∈ occurrences, n < m → k ≤ m) ∧
      ∀ env, (Cadence.cron expr (some ⟨n*10^9⟩)).intoCondition env=.ok (.timestampElapsed ⟨k*10^9⟩)) ∨
    (∀ m ∈ occurrences, m≤n) ∧
      ∀ env, (Cadence.cron expr (some ⟨n*10^9⟩)).intoCondition env=.ok (.blocksCompleted (2^64-1)) := by
  have hasI : U64.asI64 (n*10^9)=(n : ℤ)*10^9 := by
    rw [U64.asI64,if_pos (hs.bounded n hn)]
    push_cast
    rfl
  cases ha : after (U64.asI64 (n*10^9)) with
  | none =>
    refine .inr ⟨fun m hm => ?_,fun env => intoCondition_cron_none hexpr ha⟩
    have := hs.never _ ha m hm
    omega
  | some z =>
    obtain ⟨k,hk,rfl,hlt,hle⟩ := hs.least _ _ ha
    rw [hasI] at hlt hle
    exact .inl ⟨k,hk,by omega,fun m hm hnm => hle m hm (by omega),fun env => intoCondition_cron hexpr hs hk ha⟩

theorem onlyOnePassed_of_trigger (hexpr : Crates.cronAfter expr=.ok after) (hs : CronSpec after occurrences)
    (hc : s.cadence=.cron expr previous) (hp : ∀ p ∈ previous, p.nanos<2^64)
    (h : Executed s deps env registered s') {o : ℕ} (ho : FirstLater occurrences env.block.time o)
    (htrigger : registered=.timestampElapsed ⟨o*10^9⟩) : OnlyOnePassed occurrences previous env.block.time := by
  obtain ⟨n,hn,_,hinto,hnot,hbefore⟩ := executed_cron hexpr hs hc hp h ho
  have hlater := ho.later
  have hnext : n<o ∧ ∀ m ∈ occurrences, n < m → o ≤ m := by
    rcases intoCondition_occurrence hexpr hs hn with ⟨k,hk,hnk,hle,hcond⟩ | ⟨_,hcond⟩
    · rw [hcond,htrigger] at hinto
      obtain rfl : k=o := by simpa using hinto
      exact ⟨hnk,hle⟩
    · rw [hcond,htrigger] at hinto
      cases hinto
  by_cases hb : BeforeEpoch previous
  · obtain ⟨p,hprev,hbig⟩ := hb
    obtain ⟨hreached,hleast⟩ := hbefore ⟨p,hprev,hbig⟩
    refine ⟨p,hprev,hbig,n,hn,hreached,fun m hm hmle => ?_⟩
    have h1 := hleast m hm
    by_contra hne
    have := hnext.2 m hm (by omega)
    omega
  · have := hnot hb
    omega

theorem reschedules_of_onlyOnePassed (hexpr : Crates.cronAfter expr=.ok after) (hs : CronSpec after occurrences)
    (hc : s.cadence=.cron expr previous) (hp : ∀ p ∈ previous, p.nanos<2^64)
    (h : Executed s deps env registered s') {o : ℕ} (ho : FirstLater occurrences env.block.time o)
    (honly : OnlyOnePassed occurrences previous env.block.time) : Reschedules registered s' o := by
  obtain ⟨n,hn,hcur,hinto,_,hbefore⟩ := executed_cron hexpr hs hc hp h ho
  obtain ⟨p,hprev,hbig,m,_,_,honly⟩ := honly
  have hlater := ho.later
  obtain ⟨hreached,_⟩ := hbefore ⟨p,hprev,hbig⟩
  obtain rfl := honly n hn hreached
  rcases intoCondition_occurrence hexpr hs hn with ⟨k,hk,hnk,hle,hcond⟩ | ⟨hlast,_⟩
  · have hko : k=o := by
      have h1 := hle o ho.mem (by omega)
      have h2 : env.block.time.nanos<k*10^9 := by
        by_contra hnot
        have := honly k hk (not_lt.mp hnot)
        omega
      have := ho.least k hk h2
      omega
    subst hko
    refine ⟨?_,fun env' => ?_⟩
    · rw [hcond env] at hinto
      exact (Except.ok.inj hinto).symm
    · rw [hcur]
      simp only [Cadence.isDue,hcond,Except.ok_bind,Condition.isReached]
      rfl
  · have := hlast o ho.mem
    omega

/-- The stored `previous` of a cron schedule. -/
def previousRun (s : Schedule) : Option Timestamp :=
  match s.cadence with
  | .cron _ previous => previous
  | _ => none

/-- A run in which each registered trigger is executed at its own time: the schedules before the
executions and the blocks of these. -/
def TriggerRun (executions : List (Schedule × Env)) : Prop :=
  executions.IsChain fun a b => (∃ deps, Executed a.1 deps a.2 (.timestampElapsed b.2.block.time) b.1) ∧
    a.2.block.time<b.2.block.time

/-- Each execution is at the first occurrence after the one before it: none is skipped. -/
def TakesEvery (occurrences : Set ℕ) (executions : List (Schedule × Env)) : Prop :=
  executions.IsChain fun a b => ∃ o, FirstLater occurrences a.2.block.time o ∧ b.2.block.time=⟨o*10^9⟩

/-- One step of a run takes the next occurrence exactly when only one occurrence has passed. -/
theorem step_takes_iff (hexpr : Crates.cronAfter expr=.ok after) (hs : CronSpec after occurrences)
    (hc : s.cadence=.cron expr previous) (hp : ∀ p ∈ previous, p.nanos<2^64) {time : Timestamp}
    (h : Executed s deps env (.timestampElapsed time) s') (hlt : env.block.time<time) :
    (∃ o, FirstLater occurrences env.block.time o ∧ time=⟨o*10^9⟩) ↔
      OnlyOnePassed occurrences previous env.block.time := by
  constructor
  · rintro ⟨o,ho,rfl⟩
    exact onlyOnePassed_of_trigger hexpr hs hc hp h ho rfl
  · intro honly
    obtain ⟨current,hcrank,hinto,_⟩ := executed_advance h
    rw [hc] at hcrank
    obtain ⟨n,hn,rfl,_⟩ := crank_cron hexpr hs hcrank
    have hexists : ∃ o, o ∈ occurrences ∧ env.block.time.nanos<o*10^9 := by
      rcases intoCondition_occurrence hexpr hs hn with ⟨k,hk,_,_,hcond⟩ | ⟨_,hcond⟩
      · rw [hcond] at hinto
        obtain rfl : (⟨k*10^9⟩ : Timestamp)=time := by simpa using hinto
        exact ⟨k,hk,hlt⟩
      · rw [hcond] at hinto
        cases hinto
    classical
    have ho : FirstLater occurrences env.block.time (Nat.find hexists) :=
      ⟨(Nat.find_spec hexists).1,(Nat.find_spec hexists).2,fun m hm hlater => Nat.find_min' hexists ⟨hm,hlater⟩⟩
    have htrigger := (reschedules_of_onlyOnePassed hexpr hs hc hp h ho honly).trigger
    exact ⟨_,ho,by simpa using htrigger⟩

theorem run_takes_iff (hexpr : Crates.cronAfter expr=.ok after) (hs : CronSpec after occurrences)
    {executions : List (Schedule × Env)} (hrun : TriggerRun executions)
    (hfirst : ∀ a ∈ executions.head?, ∃ previous, a.1.cadence=.cron expr previous ∧ ∀ p ∈ previous, p.nanos<2^64) :
    TakesEvery occurrences executions ↔
      ∀ a ∈ executions.dropLast, OnlyOnePassed occurrences a.1.previousRun a.2.block.time := by
  induction executions with
  | nil => simp [TakesEvery]
  | cons a executions ih =>
    cases executions with
    | nil => simp [TakesEvery]
    | cons b executions =>
      obtain ⟨⟨⟨deps,hexec⟩,hlt⟩,hrun⟩ := List.isChain_cons_cons.mp hrun
      obtain ⟨previous,hc,hp⟩ := hfirst a rfl
      have hnext : ∃ previous, b.1.cadence=.cron expr previous ∧ ∀ p ∈ previous, p.nanos<2^64 := by
        obtain ⟨current,hcrank,_,hcur⟩ := executed_advance hexec
        rw [hc] at hcrank
        obtain ⟨n,hn,rfl,_⟩ := crank_cron hexpr hs hcrank
        refine ⟨_,hcur,fun p hp => ?_⟩
        have hb := hs.bounded n hn
        obtain rfl := Option.some.inj (Option.mem_def.mp hp)
        exact hb.trans (by decide)
      have ih' := ih hrun fun a ha => by
        obtain rfl := Option.some.inj (Option.mem_def.mp ha)
        exact hnext
      have hprev : a.1.previousRun=previous := by rw [previousRun,hc]
      rw [TakesEvery,List.isChain_cons_cons,List.dropLast_cons_of_ne_nil (List.cons_ne_nil _ _),
        List.forall_mem_cons,step_takes_iff hexpr hs hc hp hexec hlt,hprev]
      exact and_congr_right fun _ => ih'

/-- A due cron schedule is registered and next due at the first later occurrence if and only if its
`previous` reads as a time before the epoch and exactly one occurrence has passed; so a run takes every
occurrence if and only if this holds at each of its executions but the last. -/
theorem cron_takes_next_iff (hexpr : Crates.cronAfter expr=.ok after) (hs : CronSpec after occurrences)
    (hc : s.cadence=.cron expr previous) (hp : ∀ p ∈ previous, p.nanos<2^64) :
    (∀ deps env registered s' o, Executed s deps env registered s' → FirstLater occurrences env.block.time o →
      (Reschedules registered s' o ↔ OnlyOnePassed occurrences previous env.block.time)) ∧
    ∀ env executions, TriggerRun ((s,env) :: executions) →
      (TakesEvery occurrences ((s,env) :: executions) ↔ ∀ a ∈ ((s,env) :: executions).dropLast,
        OnlyOnePassed occurrences a.1.previousRun a.2.block.time) := by
  refine ⟨fun deps env registered s' o h ho => ⟨fun hr => ?_,reschedules_of_onlyOnePassed hexpr hs hc hp h ho⟩,
    fun env executions hrun => run_takes_iff hexpr hs hrun fun a ha => ?_⟩
  · exact onlyOnePassed_of_trigger hexpr hs hc hp h ho hr.trigger
  · obtain rfl := Option.some.inj (Option.mem_def.mp ha)
    exact ⟨previous,hc,hp⟩

end

/-- The full hours that `hourly` enumerates. -/
def fullHours : Set ℕ := {n | n%3600=0 ∧ n<9000000000}

theorem hourly_spec : CronSpec hourly fullHours where
  least t o h := by
    simp only [hourly] at h
    split_ifs at h with hlt
    obtain rfl := Option.some.inj h
    refine ⟨(max ((t/3600000000000+1)*3600) 0).toNat,⟨by omega,by omega⟩,by omega,by omega,fun m hm hlater => ?_⟩
    have := hm.1
    omega
  never t h m hm := by
    simp only [hourly] at h
    split_ifs at h with hlt
    have h1 := hm.1
    have h2 := hm.2
    omega
  bounded m hm := by
    have := hm.2
    omega

section

attribute [local instance] Crates.plain

def everyHour (previous next : Option Timestamp) : Schedule where
  schedulerAddress := "scheduler"
  managerAddress := "manager"
  cadence := .cron "0 0 * * * *" previous
  next := next.map fun t => .cron "0 0 * * * *" (some t)
  executionRebate := []
  executors := []
  jitter := none
  executions := if next.isNone ∧ previous.isSome then some 1 else none
  maxExecutions := none

def atSecond (seconds : ℕ) : Env := ⟨⟨1,⟨seconds*10^9⟩⟩,"strategy"⟩

/-- A first execution half an hour into the epoch registers its trigger for the second full hour and
skips the first. -/
theorem cron_skips_an_hour : FirstLater fullHours (atSecond 1800).block.time 3600 ∧
    Executed (everyHour none none) Deps.silent (atSecond 1800) (.timestampElapsed ⟨7200*10^9⟩)
      (everyHour (some ⟨3600*10^9⟩) none) ∧
    ¬Reschedules (.timestampElapsed ⟨7200*10^9⟩) (everyHour (some ⟨3600*10^9⟩) none) 3600 := by
  refine ⟨⟨⟨by decide,by decide⟩,by decide,fun m hm hlt => ?_⟩,⟨by decide,[],everyHour none (some ⟨3600*10^9⟩),?_,?_⟩,
    fun h => ?_⟩
  · have := hm.1
    simp only [atSecond] at hlt
    omega
  · decide
  · decide
  · exact absurd h.trigger (by decide)

theorem cron_takes_next_iff_hourly :
    (Reschedules (.timestampElapsed ⟨7200*10^9⟩) (everyHour (some ⟨3600*10^9⟩) none) 3600 ↔
      OnlyOnePassed fullHours none (atSecond 1800).block.time) :=
  have hcadence : (everyHour none none).cadence=.cron "0 0 * * * *" none := rfl
  (cron_takes_next_iff rfl hourly_spec hcadence (by simp)).1
    Deps.silent (atSecond 1800) _ _ 3600
    ⟨by decide,[],everyHour none (some ⟨3600*10^9⟩),by decide,by decide⟩
    ⟨⟨by decide,by decide⟩,by decide,fun m hm hlt => by
      have := hm.1
      simp only [atSecond] at hlt
      omega⟩

end

end Schedule
end CalcRs
