import CalcRs.Conditions.Catchup
import CalcRs.Conditions.Cron
import CalcRs.Conditions.Limits

/-! The arithmetic of a schedule over the executions that follow its first one. Only a due execution that
gets as far as cranking can panic, and the counter when it is full. -/
namespace CalcRs

section

open Fault

namespace Cadence

theorem plusSeconds_eq {t : Timestamp} {secs : ℕ} (h : t.nanos+secs*10^9<2^64) :
    t.plusSeconds secs=.ok ⟨t.nanos+secs*10^9⟩ := by
  have hmul : U64.mul secs Timestamp.nanosPerSecond=.ok (secs*10^9) :=
    fits_of_lt ((Nat.le_add_left _ _).trans_lt h)
  rw [Timestamp.plusSeconds,hmul,Except.ok_bind,U64.add,fits_of_lt h]
  rfl

theorem plusSeconds_eq_ok {t t' : Timestamp} {secs : ℕ} (h : t.plusSeconds secs=.ok t') :
    t.nanos+secs*10^9<2^64 := by
  obtain ⟨n,hn,h⟩ := Except.bind_eq_ok.mp h
  obtain ⟨_,hm,_⟩ := Except.map_eq_ok.mp h
  obtain ⟨_,rfl⟩ := fits_eq_ok.mp hn
  exact (fits_eq_ok.mp hm).1

end Cadence

namespace Schedule

variable {s : Schedule}

theorem settles_checkExecutions : Settles s.checkExecutions ↔ (s.maxExecutions≠none → s.executions.getD 0+1<2^32) := by
  rw [checkExecutions]
  cases s.maxExecutions with
  | none => simp
  | some m =>
    rw [settles_bind,settles_fits]
    simp only [ne_eq,reduceCtorEq,not_false_eq_true,true_imp_iff]
    refine and_iff_left fun n _ => ?_
    split_ifs
    · exact settles_genericErr _
    · exact settles_pure _

theorem checkExecutions_eq_ok (h : s.maxExecutions≠none → s.executions.getD 0+1<2^32) :
    s.checkExecutions=.ok () ↔ ∀ m ∈ s.maxExecutions, s.executions.getD 0 < m := by
  cases hm : s.maxExecutions with
  | none => simp [checkExecutions,hm]
  | some m =>
    rw [checkExecutions_ok_iff hm,and_iff_right (h (by simp [hm]))]
    simp

theorem settles_commit (hn : s.next≠none) : Settles s.commit ↔ s.executions.getD 0+1<2^32 := by
  obtain ⟨next,hnext⟩ := Option.ne_none_iff_exists'.mp hn
  rw [commit,hnext,settles_bind,countExecution]
  cases s.executions with
  | none => simp
  | some e =>
    rw [settles_fits]
    exact and_iff_left fun _ _ => settles_ok _

end Schedule

variable [Crates] {occurrences : String → Set ℕ} {env : Env}

namespace Cadence

/-- Where `crank` moves a due height. -/
def movedBlock (interval previous height : ℕ) : ℕ :=
  if previous+interval<height-interval then height-(height-previous)%interval else previous+interval

/-- Where `crank` moves a due time, in nanoseconds. -/
def movedNanos (secs : ℕ) (previous time : Timestamp) : ℕ :=
  if previous.nanos+secs*10^9<time.nanos-secs*10^9 then time.nanos-(time.seconds-previous.seconds)%secs*10^9
  else previous.nanos+secs*10^9

/-- A due cadence that can be cranked, and the next time after the one it moves to is a number. A cadence
of no length has not fallen behind the block; a cron expression has another occurrence. -/
def Movable (occurrences : String → Set ℕ) (env : Env) : Cadence → Prop
  | .blocks interval (some previous) => (interval=0 → env.block.height ≤ previous) ∧
    movedBlock interval previous env.block.height+interval<2^64
  | .time duration (some previous) => (duration.secs=0 → env.block.time.nanos ≤ previous.nanos) ∧
    previous.nanos+duration.secs*10^9<2^64 ∧
    movedNanos duration.secs previous env.block.time+duration.secs*10^9<2^64
  | .cron expr previous => ∃ n ∈ occurrences expr, U64.asI64 (cronBase previous env).nanos<(n : ℤ)*10^9
  | _ => True

/-- A cadence that has been cranked, and whose next time is a number. -/
def Ready : Cadence → Prop
  | .blocks interval (some previous) => previous+interval<2^64
  | .time duration (some previous) => previous.nanos+duration.secs*10^9<2^64
  | .cron expr (some _) => (Crates.cronAfter expr).isOk
  | _ => False

variable {c c' : Cadence}

theorem Ready.parses (h : c.Ready) : c.Parses := by
  cases c with
  | blocks => trivial
  | time => trivial
  | cron expr previous =>
    cases previous with
    | none => cases h
    | some p => exact h

/-- A cadence that names its condition once names it ever after. -/
theorem Moved.ready {condition : Condition} (hm : Moved c c') (hp : c.Parses)
    (h : c'.intoCondition env=.ok condition) : c'.Ready := by
  cases hm with
  | blocks interval p q =>
    obtain ⟨_,hq,_⟩ := Except.map_eq_ok.mp h
    exact (fits_eq_ok.mp hq).1
  | time duration p q =>
    obtain ⟨_,hq,_⟩ := Except.map_eq_ok.mp h
    exact plusSeconds_eq_ok hq
  | cron expr p q => exact hp

section Cron

variable {expr : String} {after : ℤ → Option ℤ}

theorem settles_intoCondition_cron (hexpr : Crates.cronAfter expr=.ok after)
    (hs : CronSpec after (occurrences expr)) (p : Option Timestamp) :
    Settles ((Cadence.cron expr p).intoCondition env) := by
  rw [intoCondition,Schedule.cronAfter_eq hexpr,Except.ok_bind]
  cases ha : after (U64.asI64 (p.getD env.block.time).nanos) with
  | none => exact settles_ok _
  | some o =>
    obtain ⟨n,hn,rfl,_⟩ := hs.least _ _ ha
    dsimp only
    rw [hs.fromSeconds hn]
    exact settles_ok _

theorem settles_crank_cron (hexpr : Crates.cronAfter expr=.ok after) (hs : CronSpec after (occurrences expr))
    (p : Option Timestamp) : Settles ((Cadence.cron expr p).crank env) ↔ Movable occurrences env (.cron expr p) := by
  rw [crank,Schedule.cronAfter_eq hexpr,Except.ok_bind,Movable]
  cases ha : after (U64.asI64 (cronBase p env).nanos) with
  | none =>
    have hmax : Timestamp.fromSeconds (2^64-1)=.error .panic := by decide
    dsimp only
    rw [hmax]
    refine iff_of_false (fun h => h _ rfl trivial) ?_
    rintro ⟨n,hn,hlt⟩
    have := hs.never _ ha n hn
    omega
  | some o =>
    obtain ⟨n,hn,rfl,hlt,_⟩ := hs.least _ _ ha
    dsimp only
    rw [hs.fromSeconds hn]
    exact iff_of_true (settles_ok _) ⟨n,hn,hlt⟩

end Cron

/-- A cadence that is ready can always be asked. -/
theorem Ready.settles (h : c.Ready) (hcron : ∀ expr after, Crates.cronAfter expr=.ok after →
    CronSpec after (occurrences expr)) : Settles (c.isDue env) ∧ Settles (c.intoCondition env) := by
  cases c with
  | blocks interval previous =>
    cases previous with
    | none => cases h
    | some p =>
      have hadd : U64.add p interval=.ok (p+interval) := fits_of_lt h
      rw [isDue,intoCondition,hadd]
      exact ⟨settles_ok _,settles_ok _⟩
  | time duration previous =>
    cases previous with
    | none => cases h
    | some p =>
      have hready : p.nanos+duration.secs*10^9<2^64 := h
      have hadd : U64.add p.seconds duration.secs=.ok (p.seconds+duration.secs) :=
        fits_of_lt (by simp only [Timestamp.seconds,Timestamp.nanosPerSecond]; omega)
      rw [isDue,intoCondition,hadd,plusSeconds_eq hready]
      exact ⟨settles_ok _,settles_ok _⟩
  | cron expr previous =>
    cases previous with
    | none => cases h
    | some p =>
      obtain ⟨after,hafter⟩ := Except.isOk_iff.mp (show (Crates.cronAfter expr).isOk from h)
      have hinto := @settles_intoCondition_cron _ occurrences env expr after hafter (hcron expr after hafter) (some p)
      exact ⟨settles_bind.mpr ⟨hinto,fun _ _ => settles_ok _⟩,hinto⟩

/-- Cranking a due height panics when it divides by an interval of zero. -/
theorem crank_blocks_due {interval p : ℕ} (hdue : p+interval ≤ env.block.height) (hheight : env.block.height<2^64) :
    (Settles ((Cadence.blocks interval (some p)).crank env) ↔ (interval=0 → env.block.height ≤ p)) ∧
      ∀ c, (Cadence.blocks interval (some p)).crank env=.ok c →
        c=.blocks interval (some (movedBlock interval p env.block.height)) := by
  rcases Nat.eq_zero_or_pos interval with rfl | hpos
  · have hadd : U64.add p 0=.ok p := fits_of_lt (by omega)
    have hsub : U64.sub env.block.height 0=.ok env.block.height := if_pos (Nat.zero_le _)
    rw [crank,hadd,Except.ok_bind,hsub,Except.ok_bind]
    by_cases hlt : p<env.block.height
    · have hsub : U64.sub env.block.height p=.ok (env.block.height-p) := if_pos hlt.le
      have hmod : U64.mod (env.block.height-p) 0=.error .panic := if_pos rfl
      rw [if_pos hlt,hsub,Except.ok_bind,hmod]
      refine ⟨iff_of_false (fun h => h _ rfl trivial) fun h => absurd (h rfl) (not_le.mpr hlt),fun c h => ?_⟩
      cases h
    · rw [if_neg hlt]
      refine ⟨iff_of_true (settles_ok _) fun _ => not_lt.mp hlt,fun c h => ?_⟩
      rw [movedBlock,if_neg (by omega)]
      exact (Except.ok.inj h).symm
  · rw [crank_blocks hdue hpos hheight]
    exact ⟨iff_of_true (settles_ok _) fun h => by omega,fun c h => (Except.ok.inj h).symm⟩

/-- Cranking a due time panics there as well, and when the next time is too late for a timestamp. -/
theorem crank_time_due {duration : Duration} {p : Timestamp}
    (hdue : p.seconds+duration.secs ≤ env.block.time.seconds) (htime : env.block.time.nanos<2^64) :
    (Settles ((Cadence.time duration (some p)).crank env) ↔
      (duration.secs=0 → env.block.time.nanos ≤ p.nanos) ∧ p.nanos+duration.secs*10^9<2^64) ∧
      ∀ c, (Cadence.time duration (some p)).crank env=.ok c →
        c=.time duration (some ⟨movedNanos duration.secs p env.block.time⟩) := by
  rcases Nat.eq_zero_or_pos duration.secs with hzero | hpos
  · by_cases hfits : p.nanos+0*10^9<2^64
    · have hminus : env.block.time.minusSeconds 0=.ok env.block.time := by
        have hmul : U64.mul 0 Timestamp.nanosPerSecond=.ok 0 := by decide
        rw [Timestamp.minusSeconds,hmul,Except.ok_bind,U64.sub,if_pos (Nat.zero_le _)]
        rfl
      rw [crank,hzero,plusSeconds_eq hfits,Except.ok_bind,hminus,Except.ok_bind,movedNanos]
      simp only [Nat.zero_mul,Nat.add_zero,Nat.sub_zero,true_imp_iff] at hfits ⊢
      by_cases hlt : p.nanos<env.block.time.nanos
      · have hlt' : (⟨p.nanos⟩ : Timestamp)<env.block.time := hlt
        have hsub : U64.sub env.block.time.seconds p.seconds=.ok (env.block.time.seconds-p.seconds) := if_pos (by omega)
        have hmod : U64.mod (env.block.time.seconds-p.seconds) 0=.error .panic := if_pos rfl
        rw [if_pos hlt',hsub,Except.ok_bind,hmod]
        refine ⟨iff_of_false (fun h => h _ rfl trivial) fun h => absurd h.1 (not_le.mpr hlt),fun c h => ?_⟩
        cases h
      · have hlt' : ¬(⟨p.nanos⟩ : Timestamp)<env.block.time := hlt
        rw [if_neg hlt',if_neg hlt]
        exact ⟨iff_of_true (settles_ok _) ⟨not_lt.mp hlt,hfits⟩,fun c h => (Except.ok.inj h).symm⟩
    · have hnone : ¬∃ c, (Cadence.time duration (some p)).crank env=.ok c := by
        rintro ⟨c,h⟩
        rw [crank,hzero] at h
        obtain ⟨t,ht,_⟩ := Except.bind_eq_ok.mp h
        exact hfits (plusSeconds_eq_ok ht)
      rw [(errorless_crank (c := .time duration (some p)) trivial).settles_iff]
      exact ⟨iff_of_false hnone fun h => hfits (hzero ▸ h.2),fun c h => absurd ⟨c,h⟩ hnone⟩
  · rw [crank_time hdue hpos htime]
    by_cases hfits : p.nanos+duration.secs*10^9<2^64
    · rw [if_pos hfits]
      refine ⟨iff_of_true (settles_ok _) ⟨fun h => by omega,hfits⟩,fun c h => ?_⟩
      rw [← Except.ok.inj h,movedNanos]
      split_ifs <;> rfl
    · rw [if_neg hfits]
      refine ⟨iff_of_false (fun h => h _ rfl trivial) fun h => hfits h.2,fun c h => ?_⟩
      cases h

theorem settles_intoCondition_blocks {interval p : ℕ} :
    Settles ((Cadence.blocks interval (some p)).intoCondition env) ↔ p+interval<2^64 :=
  settles_map.trans settles_fits

theorem settles_intoCondition_time {duration : Duration} {p : Timestamp} :
    Settles ((Cadence.time duration (some p)).intoCondition env) ↔ p.nanos+duration.secs*10^9<2^64 := by
  rw [intoCondition,settles_map,(Timestamp.errorless_plusSeconds _ _).settles_iff]
  constructor
  · rintro ⟨_,h⟩
    exact plusSeconds_eq_ok h
  · exact fun h => ⟨_,plusSeconds_eq h⟩

/-- A due cadence moves exactly when it is movable. -/
theorem settles_move (hr : c.Ready) (hdue : c.isDue env=.ok true) (hheight : env.block.height<2^64)
    (htime : env.block.time.nanos<2^64)
    (hcron : ∀ expr after, Crates.cronAfter expr=.ok after → CronSpec after (occurrences expr)) :
    Settles (c.crank env >>= fun c' => c'.intoCondition env) ↔ c.Movable occurrences env := by
  cases c with
  | blocks interval previous =>
    cases previous with
    | none => cases hr
    | some p =>
      obtain ⟨hsettles,hmoved⟩ := @crank_blocks_due _ env interval p (isDue_blocks hdue) hheight
      rw [settles_bind_of (errorless_crank (c := .blocks interval (some p)) trivial) hsettles hmoved,
        settles_intoCondition_blocks]
      rfl
  | time duration previous =>
    cases previous with
    | none => cases hr
    | some p =>
      obtain ⟨hsettles,hmoved⟩ := @crank_time_due _ env duration p (isDue_time hdue) htime
      rw [settles_bind_of (errorless_crank (c := .time duration (some p)) trivial) hsettles hmoved,
        settles_intoCondition_time,and_assoc]
      rfl
  | cron expr previous =>
    obtain ⟨after,hafter⟩ := Except.isOk_iff.mp hr.parses
    have hs := hcron expr after hafter
    rw [settles_bind,settles_crank_cron hafter hs]
    refine and_iff_left fun c' hc => ?_
    cases crank_moved hc
    exact settles_intoCondition_cron hafter hs _

end Cadence
namespace Schedule

variable {s s₁ s₂ : Schedule} {deps : Deps}

/-- The schedule that the strategy stores when it has executed and committed it. -/
def Visited (s : Schedule) (deps : Deps) (env : Env) (s₂ : Schedule) : Prop :=
  ∃ s₁, s.Entered deps env s₁ ∧ s₁.commit=.ok (.schedule s₂)

/-- No call on the schedule panics in a visit: to ask it, to execute it, to ask it again and to commit it. -/
structure Unharmed (s : Schedule) (deps : Deps) (env : Env) : Prop where
  asked : Settles (s.canExecute env)
  executed : Settles (s.executeUnsafe deps env)
  left : ∀ s₁, s.Entered deps env s₁ → Settles (s₁.canExecute env) ∧ Settles s₁.commit

/-- The counter can be compared with the limit, and an execution that is due, below the limit and can
compute its rebate can be counted and moved. -/
structure Fits (occurrences : String → Set ℕ) (s : Schedule) (deps : Deps) (env : Env) : Prop where
  compared : s.maxExecutions≠none → s.executions.getD 0+1<2^32
  moved : s.cadence.isDue env=.ok true → (∀ m ∈ s.maxExecutions, s.executions.getD 0 < m) → s.RebateAnswers deps env →
    s.executions.getD 0+1<2^32 ∧ s.cadence.Movable occurrences env

/-- A schedule between two visits that has been executed before. -/
structure Installed (s : Schedule) : Prop where
  next : s.next=none
  ready : s.cadence.Ready
  amounts : ∀ c ∈ s.executionRebate, c.amount<2^128

theorem settles_canExecute (h : Settles (s.cadence.isDue env)) : Settles (s.canExecute env) := by
  rw [canExecute]
  cases s.maxExecutions with
  | none => exact h
  | some m =>
    cases s.executions with
    | none => exact h
    | some e =>
      dsimp only
      split_ifs
      · exact settles_ok _
      · exact h

/-- Executing settles when the counter can be compared and a due cadence can be moved. -/
theorem settles_executeUnsafe (hs : s.Installed) (hheight : env.block.height<2^64) (htime : env.block.time.nanos<2^64)
    (hcron : ∀ expr after, Crates.cronAfter expr=.ok after → CronSpec after (occurrences expr)) :
    Settles (s.executeUnsafe deps env) ↔ (s.maxExecutions≠none → s.executions.getD 0+1<2^32) ∧
      (s.cadence.isDue env=.ok true → (∀ m ∈ s.maxExecutions, s.executions.getD 0 < m) → s.RebateAnswers deps env →
        s.cadence.Movable occurrences env) := by
  have hadvance : Settles (s.advance env) ↔ (s.cadence.isDue env=.ok true → s.cadence.Movable occurrences env) := by
    obtain ⟨hdue,hinto⟩ := @Cadence.Ready.settles _ occurrences env _ hs.ready hcron
    rw [advance,settles_bind,and_iff_right hdue]
    constructor
    · intro h htrue
      refine (Cadence.settles_move hs.ready htrue hheight htime hcron).mp (settles_bind.mpr ?_)
      have := settles_bind.mp (h true htrue)
      exact ⟨this.1,fun c hc => (settles_bind.mp (this.2 c hc)).1⟩
    · intro h due hdue
      cases due with
      | false => exact settles_bind.mpr ⟨hinto,fun _ _ => settles_ok _⟩
      | true =>
        obtain ⟨hcrank,hthen⟩ := settles_bind.mp ((Cadence.settles_move hs.ready hdue hheight htime hcron).mpr (h hdue))
        exact settles_bind.mpr ⟨hcrank,fun c hc => settles_bind.mpr ⟨hthen c hc,fun _ _ => settles_ok _⟩⟩
  rw [executeUnsafe,settles_bind,settles_checkExecutions]
  refine and_congr_right fun hcompared => ?_
  constructor
  · intro h hdue hbelow hanswers
    have hrebate := h () ((checkExecutions_eq_ok hcompared).mpr hbelow)
    obtain ⟨r,hr⟩ := (rebate_ok_iff hs.amounts).mpr hanswers
    exact hadvance.mp (settles_bind.mp ((settles_bind.mp hrebate).2 r hr)).1 hdue
  · intro h _ hcheck
    refine settles_bind.mpr ⟨settles_rebate,fun r hr => settles_bind.mpr ⟨hadvance.mpr fun hdue => ?_,fun _ _ => settles_ok _⟩⟩
    exact h hdue ((checkExecutions_eq_ok hcompared).mp hcheck) ((rebate_ok_iff hs.amounts).mp ⟨r,hr⟩)

/-- What an execution leaves: the schedule as it was, or with the cadence to move to. -/
theorem Entered.shape (h : s.Entered deps env s₁) : s₁=s ∨ ∃ current condition, s₁={ s with next := some current } ∧
    s.cadence.isDue env=.ok true ∧ s.cadence.crank env=.ok current ∧ current.intoCondition env=.ok condition ∧
    s.checkExecutions=.ok () ∧ ∃ r, s.rebate deps env=.ok r := by
  cases h with
  | failed => exact .inl rfl
  | executed h =>
    obtain ⟨r,condition,s',hcheck,hr,hadvance,hsame,_⟩ := executeUnsafe_eq_ok h
    obtain rfl := Condition.schedule.inj hsame
    obtain ⟨hdue,current,hcrank,hinto,rfl⟩ | ⟨_,_,rfl⟩ := advance_eq_ok hadvance
    · exact .inr ⟨current,_,rfl,hdue,hcrank,hinto,hcheck,r,hr⟩
    · exact .inl rfl

/-- A visit of an installed schedule panics nowhere if and only if it fits. -/
theorem unharmed_iff (hs : s.Installed) (hheight : env.block.height<2^64) (htime : env.block.time.nanos<2^64)
    (hcron : ∀ expr after, Crates.cronAfter expr=.ok after → CronSpec after (occurrences expr)) :
    s.Unharmed deps env ↔ s.Fits occurrences deps env := by
  have hexecute := @settles_executeUnsafe _ occurrences env s deps hs hheight htime hcron
  have hcan : Settles (s.canExecute env) := settles_canExecute (@Cadence.Ready.settles _ occurrences env _ hs.ready hcron).1
  constructor
  · rintro ⟨_,hexecuted,hleft⟩
    obtain ⟨hcompared,hmovable⟩ := hexecute.mp hexecuted
    refine ⟨hcompared,fun hdue hbelow hanswers => ⟨?_,hmovable hdue hbelow hanswers⟩⟩
    -- the execution reaches its end and stores a next cadence, so its commit counts
    have hcheck := (checkExecutions_eq_ok hcompared).mpr hbelow
    obtain ⟨r,hr⟩ := (rebate_ok_iff hs.amounts).mpr hanswers
    rw [executeUnsafe,hcheck,Except.ok_bind,hr,Except.ok_bind] at hexecuted
    obtain ⟨⟨condition,s₁⟩,hadvance⟩ := (errorless_advance hs.ready.parses).settles_iff.mp (settles_bind.mp hexecuted).1
    have hentered : s.Entered deps env s₁ := .executed (by
      rw [executeUnsafe,hcheck,Except.ok_bind,hr,Except.ok_bind,hadvance]
      rfl)
    rcases advance_eq_ok hadvance with ⟨_,current,_,_,rfl⟩ | ⟨hnot,_⟩
    · have hcommit := (hleft _ hentered).2
      rw [settles_commit (by simp)] at hcommit
      exact hcommit
    · rw [hdue] at hnot
      cases hnot
  · rintro ⟨hcompared,hmoved⟩
    refine ⟨hcan,hexecute.mpr ⟨hcompared,fun hdue hbelow hanswers => (hmoved hdue hbelow hanswers).2⟩,fun s₁ he => ?_⟩
    rcases he.shape with rfl | ⟨current,_,rfl,hdue,_,_,hcheck,hrebate⟩
    · refine ⟨hcan,?_⟩
      rw [commit,hs.next]
      exact settles_ok _
    · refine ⟨hcan,(settles_commit (by simp)).mpr ?_⟩
      exact (hmoved hdue ((checkExecutions_eq_ok hcompared).mp hcheck) ((rebate_ok_iff hs.amounts).mp hrebate)).1

/-- An installed schedule stays one. -/
theorem Installed.visited (hs : s.Installed) (h : s.Visited deps env s₂) : s₂.Installed := by
  obtain ⟨s₁,he,hc⟩ := h
  rcases he.shape with rfl | ⟨current,condition,rfl,_,hcrank,hinto,_,_⟩
  · obtain ⟨_,hsame⟩ | ⟨_,hnext,_⟩ := commit_eq_ok hc
    · rw [Condition.schedule.inj hsame]
      exact hs
    · rw [hs.next] at hnext
      cases hnext
  · obtain ⟨hnone,_⟩ | ⟨next,hnext,hsame⟩ := commit_eq_ok hc
    · cases hnone
    · obtain rfl := Option.some.inj hnext
      rw [Condition.schedule.inj hsame]
      exact ⟨rfl,(Cadence.crank_moved hcrank).ready hs.ready.parses hinto,hs.amounts⟩

/-- A property of every visit of a sequence. -/
def Along (P : Schedule → Deps → Env → Prop) : Schedule → List (Deps × Env) → Prop
  | _,[] => True
  | s,(deps,env) :: visits => P s deps env ∧ ∀ s₂, s.Visited deps env s₂ → Along P s₂ visits

/-- A cadence that has not been executed yet. -/
def Unstarted (s : Schedule) : Prop :=
  s.executions=none ∧ s.next=none ∧ ((∃ interval, s.cadence=.blocks interval none) ∨
    (∃ duration, s.cadence=.time duration none) ∨ ∃ expr, s.cadence=.cron expr none)

theorem Unstarted.due (h : s.Unstarted) : s.cadence.isDue env=.ok true := by
  rcases h.2.2 with ⟨_,hc⟩ | ⟨_,hc⟩ | ⟨_,hc⟩ <;> rw [hc] <;> rfl

/-- The first execution that returns installs the schedule. -/
theorem Unstarted.installed (h : s.Unstarted) (hinit : s.init deps=.ok (.schedule s))
    (hu : ∀ c ∈ s.executionRebate, c.amount<2^128) {deps' : Deps} {messages : List CosmosMsg}
    (hexec : s.executeUnsafe deps' env=.ok (messages,.schedule s₁)) (hc : s₁.commit=.ok (.schedule s₂)) :
    s₂.Installed := by
  obtain ⟨_,condition,s',_,_,hadvance,hsame,_⟩ := executeUnsafe_eq_ok hexec
  obtain rfl := Condition.schedule.inj hsame
  obtain ⟨_,current,hcrank,hinto,rfl⟩ | ⟨hnot,_⟩ := advance_eq_ok hadvance
  swap
  · rw [h.due] at hnot
    cases hnot
  obtain ⟨hnone,_⟩ | ⟨next,hnext,hsame⟩ := commit_eq_ok hc
  · cases hnone
  · obtain rfl := Option.some.inj hnext
    rw [Condition.schedule.inj hsame]
    exact ⟨rfl,(Cadence.crank_moved hcrank).ready (init_parses hinit) hinto,hu⟩

/-- Once the first execution has returned, a sequence of visits panics nowhere if and only if every visit fits
the schedule that it finds. -/
theorem never_panics_iff (hcron : ∀ expr after, Crates.cronAfter expr=.ok after → CronSpec after (occurrences expr))
    (hinit : s.init deps=.ok (.schedule s)) (hs : s.Unstarted) (hu : ∀ c ∈ s.executionRebate, c.amount<2^128)
    {deps' : Deps} {messages : List CosmosMsg} (hexec : s.executeUnsafe deps' env=.ok (messages,.schedule s₁))
    (hc : s₁.commit=.ok (.schedule s₂)) {visits : List (Deps × Env)}
    (hblocks : ∀ v ∈ visits, v.2.block.height<2^64 ∧ v.2.block.time.nanos<2^64) :
    Along Unharmed s₂ visits ↔ Along (Fits occurrences) s₂ visits := by
  have hinstalled := hs.installed hinit hu hexec hc
  clear hexec hc hinit hs hu
  induction visits generalizing s₂ with
  | nil => rfl
  | cons v visits ih =>
    obtain ⟨deps₁,env₁⟩ := v
    obtain ⟨hheight,htime⟩ := hblocks _ List.mem_cons_self
    rw [Along,Along,unharmed_iff hinstalled hheight htime hcron]
    refine and_congr_right fun _ => forall_congr' fun s' => forall_congr' fun hv => ?_
    exact ih (fun v hv => hblocks v (List.mem_cons_of_mem _ hv)) (hinstalled.visited hv)

end Schedule
end

namespace Schedule

attribute [local instance] Crates.plain

def scheduled (cadence : Cadence) : Schedule := { everyTenBlocks [] [] with cadence := cadence }

/-- The first execution returns, and one in a later block panics. -/
def PanicsLater (s : Schedule) (first later : Env) : Prop :=
  s.Unstarted ∧ s.init Deps.silent=.ok (.schedule s) ∧ first.block.height≤later.block.height ∧
    first.block.time.nanos≤later.block.time.nanos ∧ ∃ messages s₁ s₂,
      s.executeUnsafe Deps.silent first=.ok (messages,.schedule s₁) ∧ s₁.commit=.ok (.schedule s₂) ∧
      s₂.executeUnsafe Deps.silent later=.error .panic

/-- An interval of zero blocks, half a second, and full hours of which only the last is left. -/
theorem later_execution_panics : PanicsLater (scheduled (.blocks 0 none)) (atBlock 100) (atBlock 101) ∧
    PanicsLater (scheduled (.time ⟨0,500000000⟩ none)) (atBlock 100) (atBlock 101) ∧
    PanicsLater (scheduled (.cron "0 0 * * * *" none)) (atSecond 8999990000) (atSecond 8999996400) := by
  refine ⟨⟨⟨rfl,rfl,.inl ⟨0,rfl⟩⟩,by decide,by decide,by decide,_,_,_,rfl,rfl,by decide⟩,
    ⟨⟨rfl,rfl,.inr (.inl ⟨_,rfl⟩)⟩,by decide,by decide,by decide,_,_,_,rfl,rfl,by decide⟩,
    ⟨rfl,rfl,.inr (.inr ⟨_,rfl⟩)⟩,by decide,by decide,by decide,_,_,_,rfl,rfl,by decide⟩

theorem never_panics_iff_tenBlocks : ∃ messages s₁ s₂,
    (everyTenBlocks [] []).executeUnsafe Deps.silent (atBlock 1)=.ok (messages,.schedule s₁) ∧
    s₁.commit=.ok (.schedule s₂) ∧ Along Unharmed s₂ [(Deps.silent,atBlock 11)] := by
  have hinit : (everyTenBlocks [] []).init Deps.silent=.ok (.schedule (everyTenBlocks [] [])) := by decide
  have hcron : ∀ expr after, Crates.plain.cronAfter expr=.ok after → CronSpec after fullHours := fun _ _ h =>
    Except.ok.inj h ▸ hourly_spec
  have hexec : (everyTenBlocks [] []).executeUnsafe Deps.silent (atBlock 1)=
      .ok (_,.schedule { everyTenBlocks [] [] with next := some (.blocks 10 (some 1)) }) := rfl
  have hcommit : commit { everyTenBlocks [] [] with next := some (.blocks 10 (some 1)) }=
      .ok (.schedule { everyTenBlocks [] [] with cadence := .blocks 10 (some 1),executions := some 1 }) := rfl
  refine ⟨_,_,_,hexec,hcommit,?_⟩
  refine (@never_panics_iff _ (fun _ => fullHours) _ _ _ _ _ hcron hinit ⟨rfl,rfl,.inl ⟨10,rfl⟩⟩
    (by simp [everyTenBlocks]) _ _ hexec hcommit _ (by decide)).mpr ⟨⟨fun h => absurd rfl h,fun _ _ _ => ⟨by decide,?_⟩⟩,
      fun _ _ => trivial⟩
  exact ⟨by decide,by decide⟩

end Schedule
end CalcRs
