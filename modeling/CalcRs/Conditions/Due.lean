import CalcRs.Conditions.Panics
import CalcRs.Model.Condition

/-! When a cadence is due, and when the condition registered for it is satisfied. The one counts whole seconds,
the other nanoseconds. -/
namespace CalcRs

namespace Timestamp

/-- Whole seconds and nanoseconds disagree only within the last second. -/
theorem seconds_le_iff (previous now : Timestamp) (secs : ℕ) :
    (previous.seconds+secs ≤ now.seconds ↔ previous.nanos+secs*10^9 ≤ now.nanos) ↔
      ¬(now.seconds=previous.seconds+secs ∧ now.nanos%10^9<previous.nanos%10^9) := by
  simp only [seconds,nanosPerSecond]
  omega

end Timestamp

namespace Cadence

/-- The cadence has run before. -/
def Started : Cadence → Prop
  | .blocks _ previous => previous.isSome
  | .time _ previous => previous.isSome
  | .cron _ previous => previous.isSome

theorem plusSeconds_eq_ok_iff {t t' : Timestamp} {secs : ℕ} :
    t.plusSeconds secs=.ok t' ↔ t.nanos+secs*10^9<2^64 ∧ t'=⟨t.nanos+secs*10^9⟩ := by
  constructor
  · intro h
    have hfits := plusSeconds_eq_ok h
    rw [plusSeconds_eq hfits] at h
    exact ⟨hfits,(Except.ok.inj h).symm⟩
  · rintro ⟨hfits,rfl⟩
    exact plusSeconds_eq hfits

theorem Moved.started {c : Cadence} {c' : Cadence} (h : Moved c c') : c'.Started := by
  cases h <;> rfl

end Cadence

section

variable [Crates] {deps : Deps} {env env' : Env} {condition : Condition}

theorem Condition.isSatisfied_reached (h : Schedule.Supported condition) :
    condition.isSatisfied deps env=.ok (condition.isReached env) := by
  cases condition <;> first | rfl | exact h.elim

namespace Cadence

/-- Not within the second in which a time is due, before the nanosecond at which it elapses. -/
def InStep (env : Env) : Cadence → Prop
  | .time duration (some previous) => ¬(env.block.time.seconds=previous.seconds+duration.secs ∧
    env.block.time.nanos%10^9<previous.nanos%10^9)
  | _ => True

variable {c : Cadence}

theorem due_iff_reached_blocks {interval previous : ℕ}
    (h : (Cadence.blocks interval (some previous)).intoCondition env=.ok condition) :
    (Cadence.blocks interval (some previous)).isDue env'=.ok true ↔ condition.isReached env'=true := by
  obtain ⟨due,hdue,rfl⟩ := Except.map_eq_ok.mp h
  rw [isDue,hdue,Except.ok_bind]
  exact ⟨Except.ok.inj,congrArg _⟩

theorem due_iff_reached_cron {expr : String} {previous : Timestamp}
    (h : (Cadence.cron expr (some previous)).intoCondition env=.ok condition) :
    (Cadence.cron expr (some previous)).isDue env'=.ok true ↔ condition.isReached env'=true := by
  have hsame : (Cadence.cron expr (some previous)).intoCondition env'=.ok condition := h
  rw [isDue,hsame,Except.ok_bind]
  exact ⟨Except.ok.inj,congrArg _⟩

theorem isDue_time_iff {duration : Duration} {previous : Timestamp} (h : previous.nanos+duration.secs*10^9<2^64) :
    (Cadence.time duration (some previous)).isDue env=.ok true ↔
      previous.seconds+duration.secs ≤ env.block.time.seconds := by
  have hadd : U64.add previous.seconds duration.secs=.ok (previous.seconds+duration.secs) := by
    refine fits_of_lt (lt_of_le_of_lt ?_ h)
    simp only [Timestamp.seconds,Timestamp.nanosPerSecond]
    omega
  rw [isDue,hadd,Except.ok_bind]
  simp

theorem due_iff_reached_time {duration : Duration} {previous : Timestamp}
    (h : (Cadence.time duration (some previous)).intoCondition env=.ok condition) :
    ((Cadence.time duration (some previous)).isDue env'=.ok true ↔ condition.isReached env'=true) ↔
      InStep env' (.time duration (some previous)) := by
  obtain ⟨due,hdue,rfl⟩ := Except.map_eq_ok.mp h
  obtain ⟨hfits,rfl⟩ := plusSeconds_eq_ok_iff.mp hdue
  have hreached : (Condition.timestampElapsed ⟨previous.nanos+duration.secs*10^9⟩).isReached env'=true ↔
      previous.nanos+duration.secs*10^9 ≤ env'.block.time.nanos := decide_eq_true_iff
  rw [isDue_time_iff hfits,hreached,InStep]
  exact Timestamp.seconds_le_iff previous env'.block.time duration.secs

/-- The cadence is due exactly when the condition made from it is satisfied, except for a time within the second
in which it is due. -/
theorem due_iff_satisfied_iff (hstarted : c.Started) (h : c.intoCondition env=.ok condition) :
    (c.isDue env'=.ok true ↔ condition.isSatisfied deps env'=.ok true) ↔ c.InStep env' := by
  rw [Condition.isSatisfied_reached (Schedule.intoCondition_supported h),Except.ok.injEq]
  cases c with
  | blocks interval previous =>
    obtain ⟨previous,rfl⟩ := Option.isSome_iff_exists.mp hstarted
    exact iff_of_true (due_iff_reached_blocks h) trivial
  | time duration previous =>
    obtain ⟨previous,rfl⟩ := Option.isSome_iff_exists.mp hstarted
    exact due_iff_reached_time h
  | cron expr previous =>
    obtain ⟨previous,rfl⟩ := Option.isSome_iff_exists.mp hstarted
    exact iff_of_true (due_iff_reached_cron h) trivial

/-- A cadence without a previous run is due. -/
theorem started_of_not_due (h : c.isDue env=.ok false) : c.Started := by
  cases c with
  | blocks interval previous => cases previous <;> first | rfl | cases h
  | time duration previous => cases previous <;> first | rfl | cases h
  | cron expr previous => cases previous <;> first | rfl | cases h

end Cadence

namespace Schedule

variable {s s' : Schedule} {messages : List CosmosMsg} {stored : Condition}

/-- The trigger that an execution creates waits for the condition of the cadence that its commit stores. -/
theorem executeUnsafe_registers (hnext : s.next=none) (h : s.executeUnsafe deps env=.ok (messages,stored))
    (hcommit : stored.commit=.ok (.schedule s')) : ∃ rebate condition,
      messages=[.wasmExecute s.schedulerAddress (.scheduler (.create (s.createTriggerMsg env condition))) rebate] ∧
      s'.cadence.Started ∧ s'.cadence.intoCondition env=.ok condition := by
  obtain ⟨rebate,condition,s₁,_,_,hadvance,rfl,hmessages⟩ := executeUnsafe_eq_ok h
  refine ⟨rebate.toVec,condition,hmessages,?_⟩
  have hcommit : s₁.commit=.ok (.schedule s') := hcommit
  obtain ⟨_,current,hcrank,hinto,rfl⟩ | ⟨hnot,hinto,rfl⟩ := advance_eq_ok hadvance
  · obtain ⟨hnone,_⟩ | ⟨next,hsome,hsame⟩ := commit_eq_ok hcommit
    · cases hnone
    · cases hsome
      obtain rfl := Condition.schedule.inj hsame
      exact ⟨(Cadence.crank_moved hcrank).started,hinto⟩
  · obtain ⟨_,hsame⟩ | ⟨next,hsome,_⟩ := commit_eq_ok hcommit
    · obtain rfl := Condition.schedule.inj hsame
      exact ⟨Cadence.started_of_not_due hnot,hinto⟩
    · rw [hnext] at hsome
      cases hsome

/-- A cadence that has run before is due exactly when the condition made from it is satisfied, and a schedule exactly
when its trigger can be executed, up to the second in which a time is due. -/
theorem due_with_trigger_iff :
    (∀ (c : Cadence) (condition : Condition) (env env' : Env) (deps : Deps), c.Started →
      c.intoCondition env=.ok condition →
        ((c.isDue env'=.ok true ↔ condition.isSatisfied deps env'=.ok true) ↔ c.InStep env')) ∧
    ∀ (s s' : Schedule) (messages : List CosmosMsg) (stored : Condition) (deps : Deps) (env : Env), s.next=none →
      s.executeUnsafe deps env=.ok (messages,stored) → stored.commit=.ok (.schedule s') → ∃ rebate condition,
        messages=[.wasmExecute s.schedulerAddress (.scheduler (.create (s.createTriggerMsg env condition))) rebate] ∧
        ∀ deps' env', (s'.cadence.isDue env'=.ok true ↔ condition.isSatisfied deps' env'=.ok true) ↔
          s'.cadence.InStep env' := by
  refine ⟨fun c condition env env' deps hstarted h => Cadence.due_iff_satisfied_iff hstarted h,?_⟩
  intro s s' messages stored deps env hnext h hcommit
  obtain ⟨rebate,condition,hmessages,hstarted,hinto⟩ := executeUnsafe_registers hnext h hcommit
  exact ⟨rebate,condition,hmessages,fun deps' env' => Cadence.due_iff_satisfied_iff hstarted hinto⟩

end Schedule

end

section

attribute [local instance] Crates.plain

namespace Schedule

/-- Every ten seconds. -/
def everyTenSeconds (previous : Option Timestamp) : Schedule where
  schedulerAddress := "scheduler"
  managerAddress := "manager"
  cadence := .time ⟨10,0⟩ previous
  next := none
  executionRebate := []
  executors := []
  jitter := none
  executions := none
  maxExecutions := none

def blockAt (height nanos : ℕ) : Env := ⟨⟨height,⟨nanos⟩⟩,"strategy"⟩

/-- First run at half a second: at ten seconds the schedule is due again, and its trigger pending for half a second
more. -/
theorem due_before_trigger :
    (everyTenSeconds none).executeUnsafe Deps.silent (blockAt 1 (5*10^8))=.ok ([.wasmExecute "scheduler" (.scheduler (.create
      ((everyTenSeconds none).createTriggerMsg (blockAt 1 (5*10^8)) (.timestampElapsed ⟨105*10^8⟩)))) []],
      .schedule { everyTenSeconds none with next := some (.time ⟨10,0⟩ (some ⟨5*10^8⟩)) }) ∧
    (Cadence.time ⟨10,0⟩ (some ⟨5*10^8⟩)).intoCondition (blockAt 1 (5*10^8))=.ok (.timestampElapsed ⟨105*10^8⟩) ∧
    (Cadence.time ⟨10,0⟩ (some ⟨5*10^8⟩)).isDue (blockAt 2 (10*10^9))=.ok true ∧
    ¬((Cadence.time ⟨10,0⟩ (some ⟨5*10^8⟩)).isDue (blockAt 2 (10*10^9))=.ok true ↔
      (Condition.timestampElapsed ⟨105*10^8⟩).isSatisfied Deps.silent (blockAt 2 (10*10^9))=.ok true) := by
  have hdue : (Cadence.time ⟨10,0⟩ (some ⟨5*10^8⟩)).isDue (blockAt 2 (10*10^9))=.ok true := by decide +kernel
  have hpending : (Condition.timestampElapsed ⟨105*10^8⟩).isSatisfied Deps.silent (blockAt 2 (10*10^9))=.ok false := by
    decide +kernel
  refine ⟨by decide +kernel,by decide +kernel,hdue,fun h => ?_⟩
  have hsatisfied := h.mp hdue
  rw [hpending] at hsatisfied
  cases hsatisfied

/-- At eleven seconds both hold. -/
theorem due_with_trigger_iff_later : (Cadence.time ⟨10,0⟩ (some ⟨5*10^8⟩)).isDue (blockAt 2 (11*10^9))=.ok true ↔
    (Condition.timestampElapsed ⟨105*10^8⟩).isSatisfied Deps.silent (blockAt 2 (11*10^9))=.ok true := by
  have hinto : (Cadence.time ⟨10,0⟩ (some ⟨5*10^8⟩)).intoCondition (blockAt 1 (5*10^8))=.ok (.timestampElapsed ⟨105*10^8⟩) := by
    decide +kernel
  have hstarted : (Cadence.time ⟨10,0⟩ (some ⟨5*10^8⟩)).Started := rfl
  have hstep : (Cadence.time ⟨10,0⟩ (some ⟨5*10^8⟩)).InStep (blockAt 2 (11*10^9)) := by
    rintro ⟨h,_⟩
    exact absurd h (by decide +kernel)
  exact (due_with_trigger_iff.1 _ _ _ (blockAt 2 (11*10^9)) Deps.silent hstarted hinto).mpr hstep

end Schedule

end

end CalcRs
