import CalcRs.Conditions.Trigger

/-! The limit of a schedule. It is checked where the trigger is created, read again where the branch is
chosen, and the executions are counted where the schedule is committed. -/
namespace CalcRs

namespace Schedule

open Fault

variable {s : Schedule} {deps : Deps} {env : Env} {m : ℕ}

/-- The balance behind each coin of the rebate can be read, and what is sent of each denom fits. -/
def RebateAnswers (self : Schedule) (deps : Deps) (env : Env) : Prop :=
  ∃ balance : Denom → ℕ, (∀ c ∈ self.executionRebate, ∃ held, deps.queryBalance env.contract c.denom=.ok held ∧
    held.amount=balance c.denom) ∧ ∀ d, self.clamped balance d<2^128

theorem settles_rebate : Settles (s.rebate deps env) := by
  rw [rebate]
  generalize Coins.empty=c
  induction s.executionRebate generalizing c with
  | nil => exact settles_ok _
  | cons amount rest ih =>
    rw [List.foldlM_cons]
    refine settles_bind.mpr ⟨settles_bind.mpr ⟨settles_query _,fun held _ => Coins.settles_add _ _⟩,fun c _ => ih c⟩

theorem rebate_reads {c : Coins} (h : s.rebate deps env=.ok c) :
    ∀ c ∈ s.executionRebate, ∃ held, deps.queryBalance env.contract c.denom=.ok held := by
  rw [rebate] at h
  generalize Coins.empty=start at h
  generalize s.executionRebate=xs at h
  induction xs generalizing start with
  | nil => simp
  | cons amount rest ih =>
    rw [List.foldlM_cons] at h
    obtain ⟨next,hnext,h⟩ := Except.bind_eq_ok.mp h
    obtain ⟨held,hq,_⟩ := Except.bind_eq_ok.mp hnext
    exact List.forall_mem_cons.mpr ⟨⟨held,query_eq_ok.mp hq⟩,ih next h⟩

theorem rebate_ok_iff (hu : ∀ c ∈ s.executionRebate, c.amount<2^128) :
    (∃ c, s.rebate deps env=.ok c) ↔ s.RebateAnswers deps env := by
  have hfits : ∀ balance : Denom → ℕ, (∃ c, Coins.empty.addAll
      (s.executionRebate.map fun c => ⟨min c.amount (balance c.denom),c.denom⟩)=.ok c) ↔ ∀ d, s.clamped balance d<2^128 := by
    intro balance
    rw [Coins.addAll_iff (fun _ => by simp) fun c hc => ?_]
    · simp [clamped]
    · obtain ⟨c',hc',rfl⟩ := List.mem_map.mp hc
      exact (Nat.min_le_left _ _).trans_lt (hu c' hc')
  constructor
  · rintro ⟨c,h⟩
    let balance d := ((deps.queryBalance env.contract d).toOption.map Coin.amount).getD 0
    have hb : ∀ c ∈ s.executionRebate, ∃ held, deps.queryBalance env.contract c.denom=.ok held ∧
        held.amount=balance c.denom := fun c hc => by
      obtain ⟨held,hq⟩ := rebate_reads h c hc
      exact ⟨held,hq,by simp [balance,hq,Except.toOption]⟩
    exact ⟨balance,hb,(hfits balance).mp ⟨c,rebate_eq hb ▸ h⟩⟩
  · rintro ⟨balance,hb,hsum⟩
    rw [rebate_eq hb]
    exact (hfits balance).mpr hsum

theorem checkExecutions_ok_iff (hm : s.maxExecutions=some m) :
    s.checkExecutions=.ok () ↔ s.executions.getD 0+1<2^32 ∧ s.executions.getD 0 < m := by
  rw [checkExecutions,hm]
  simp only [Except.bind_eq_ok,fits_eq_ok]
  constructor
  · rintro ⟨_,⟨hfit,rfl⟩,h⟩
    split_ifs at h with hlt
    · cases h
    · exact ⟨hfit,by omega⟩
  · rintro ⟨hfit,hlt⟩
    exact ⟨_,⟨hfit,rfl⟩,by rw [if_neg (by omega)]; rfl⟩

theorem checkExecutions_error (hm : s.maxExecutions=some m) {e : StdError} (h : s.checkExecutions=.error (.err e)) :
    m ≤ s.executions.getD 0 := by
  rw [checkExecutions,hm] at h
  rcases Except.bind_eq_error.mp h with h | ⟨n,hn,h⟩
  · exact absurd h (errorless_fits e)
  · obtain ⟨_,rfl⟩ := fits_eq_ok.mp hn
    split_ifs at h with hlt
    · omega
    · cases h

end Schedule

section

variable [Crates]

namespace Cadence

open Fault

/-- The expression of a cron cadence is one that the parser takes. -/
def Parses : Cadence → Prop
  | .cron expr _ => (Crates.cronAfter expr).isOk
  | _ => True

variable {c c' : Cadence} {env : Env}

theorem errorless_cronAfter {expr : String} (h : (Crates.cronAfter expr).isOk) (time : Timestamp) :
    Errorless (cronAfter expr time) := by
  obtain ⟨after,ha⟩ := Except.isOk_iff.mp h
  rw [cronAfter,ha]
  exact errorless_ok _

theorem errorless_intoCondition (h : c.Parses) : Errorless (c.intoCondition env) := by
  cases c with
  | blocks interval previous =>
    cases previous with
    | none => exact errorless_ok _
    | some p => exact errorless_map.mpr errorless_fits
  | time duration previous =>
    cases previous with
    | none => exact errorless_ok _
    | some p => exact errorless_map.mpr (Timestamp.errorless_plusSeconds _ _)
  | cron expr previous =>
    refine errorless_bind (errorless_cronAfter h _) fun o _ => ?_
    cases o with
    | none => exact errorless_ok _
    | some next => exact errorless_map.mpr (Timestamp.errorless_fromSeconds _)

theorem errorless_isDue (h : c.Parses) : Errorless (c.isDue env) := by
  cases c with
  | blocks interval previous =>
    cases previous with
    | none => exact errorless_ok _
    | some p => exact errorless_bind errorless_fits fun _ _ => errorless_ok _
  | time duration previous =>
    cases previous with
    | none => exact errorless_ok _
    | some p => exact errorless_bind errorless_fits fun _ _ => errorless_ok _
  | cron expr previous =>
    cases previous with
    | none => exact errorless_ok _
    | some p => exact errorless_bind (errorless_intoCondition h) fun _ _ => errorless_ok _

theorem errorless_crank (h : c.Parses) : Errorless (c.crank env) := by
  cases c with
  | blocks interval previous =>
    cases previous with
    | none => exact errorless_ok _
    | some p =>
      refine errorless_bind errorless_fits fun next _ => errorless_bind (U64.errorless_sub _ _) fun threshold _ => ?_
      split_ifs
      · exact errorless_bind (U64.errorless_sub _ _) fun _ _ => errorless_bind (U64.errorless_mod _ _) fun _ _ =>
          errorless_bind (U64.errorless_sub _ _) fun _ _ => errorless_ok _
      · exact errorless_ok _
  | time duration previous =>
    cases previous with
    | none => exact errorless_ok _
    | some p =>
      refine errorless_bind (Timestamp.errorless_plusSeconds _ _) fun next _ =>
        errorless_bind (Timestamp.errorless_minusSeconds _ _) fun threshold _ => ?_
      split_ifs
      · exact errorless_bind (U64.errorless_sub _ _) fun _ _ => errorless_bind (U64.errorless_mod _ _) fun _ _ =>
          errorless_bind (Timestamp.errorless_minusSeconds _ _) fun _ _ => errorless_ok _
      · exact errorless_ok _
  | cron expr previous =>
    refine errorless_bind (errorless_cronAfter h _) fun o _ => ?_
    cases o with
    | none => exact errorless_map.mpr (Timestamp.errorless_fromSeconds _)
    | some next => exact errorless_map.mpr (Timestamp.errorless_fromSeconds _)

/-- The same cadence with another `previous`. -/
inductive Moved : Cadence → Cadence → Prop
  | blocks (interval : ℕ) (p : Option ℕ) (q : ℕ) : Moved (.blocks interval p) (.blocks interval (some q))
  | time (duration : Duration) (p : Option Timestamp) (q : Timestamp) :
      Moved (.time duration p) (.time duration (some q))
  | cron (expr : String) (p : Option Timestamp) (q : Timestamp) : Moved (.cron expr p) (.cron expr (some q))

theorem Moved.parses (h : Moved c c') (hc : c.Parses) : c'.Parses := by
  cases h with
  | blocks => trivial
  | time => trivial
  | cron => exact hc

theorem crank_moved (h : c.crank env=.ok c') : Moved c c' := by
  cases c with
  | blocks interval previous =>
    cases previous with
    | none =>
      cases h
      exact .blocks ..
    | some p =>
      obtain ⟨_,_,h⟩ := Except.bind_eq_ok.mp h
      obtain ⟨_,_,h⟩ := Except.bind_eq_ok.mp h
      split_ifs at h
      · obtain ⟨_,_,h⟩ := Except.bind_eq_ok.mp h
        obtain ⟨_,_,h⟩ := Except.bind_eq_ok.mp h
        obtain ⟨_,_,h⟩ := Except.bind_eq_ok.mp h
        cases h
        exact .blocks ..
      · cases h
        exact .blocks ..
  | time duration previous =>
    cases previous with
    | none =>
      cases h
      exact .time ..
    | some p =>
      obtain ⟨_,_,h⟩ := Except.bind_eq_ok.mp h
      obtain ⟨_,_,h⟩ := Except.bind_eq_ok.mp h
      split_ifs at h
      · obtain ⟨_,_,h⟩ := Except.bind_eq_ok.mp h
        obtain ⟨_,_,h⟩ := Except.bind_eq_ok.mp h
        obtain ⟨_,_,h⟩ := Except.bind_eq_ok.mp h
        cases h
        exact .time ..
      · cases h
        exact .time ..
  | cron expr previous =>
    obtain ⟨o,_,h⟩ := Except.bind_eq_ok.mp h
    cases o with
    | none =>
      obtain ⟨_,_,rfl⟩ := Except.map_eq_ok.mp h
      exact .cron ..
    | some next =>
      obtain ⟨_,_,rfl⟩ := Except.map_eq_ok.mp h
      exact .cron ..

end Cadence
namespace Schedule

open Fault

/-- When the cadence is due, a schedule that was never counted has a limit other than zero, and one that is
below its limit can compute its rebate. -/
def Guarded (self : Schedule) (deps : Deps) (env : Env) : Prop :=
  self.cadence.isDue env=.ok true → ∀ m ∈ self.maxExecutions,
    (self.executions=none → m≠0) ∧ (self.executions.getD 0 < m → self.RebateAnswers deps env)

variable {s s₁ s₂ : Schedule} {deps : Deps} {env : Env} {m : ℕ}

theorem init_parses (h : s.init deps=.ok (.schedule s₁)) : s₁.cadence.Parses := by
  simp only [init,genericErr,Except.ite_error_eq_ok] at h
  obtain ⟨_,_,_,h⟩ := h
  cases hc : s.cadence with
  | blocks =>
    rw [hc] at h
    obtain rfl := Condition.schedule.inj (Except.ok.inj h)
    rw [hc]
    trivial
  | time =>
    rw [hc] at h
    obtain rfl := Condition.schedule.inj (Except.ok.inj h)
    rw [hc]
    trivial
  | cron expr previous =>
    rw [hc] at h
    cases hafter : Crates.cronAfter expr with
    | error e => simp [hafter] at h
    | ok after =>
      simp only [hafter] at h
      obtain rfl := Condition.schedule.inj (Except.ok.inj h)
      rw [hc]
      exact Except.isOk_iff.mpr ⟨after,hafter⟩

/-! ### One visit -/

/-- The schedule that is stored when the run has executed it: unchanged when that errs. -/
inductive Entered (s : Schedule) (deps : Deps) (env : Env) : Schedule → Prop
  | failed {e : StdError} : s.executeUnsafe deps env=.error (.err e) → Entered s deps env s
  | executed {messages : List CosmosMsg} {s' : Schedule} :
      s.executeUnsafe deps env=.ok (messages,.schedule s') → Entered s deps env s'

theorem canExecute_iff (hm : s.maxExecutions=some m) :
    s.canExecute env=.ok true ↔ (∀ e, s.executions=some e → e < m) ∧ s.cadence.isDue env=.ok true := by
  rw [canExecute,hm]
  cases he : s.executions with
  | none => simp
  | some e =>
    by_cases hle : m≤e
    · simp [hle]
    · simpa [hle] using fun _ => not_le.mp hle

theorem errorless_advance (hp : s.cadence.Parses) : Errorless (s.advance env) := by
  refine errorless_bind (Cadence.errorless_isDue hp) fun due _ => ?_
  split_ifs
  · exact errorless_bind (Cadence.errorless_crank hp) fun current hc =>
      errorless_bind (Cadence.errorless_intoCondition ((Cadence.crank_moved hc).parses hp)) fun _ _ => errorless_ok _
  · exact errorless_bind (Cadence.errorless_intoCondition hp) fun _ _ => errorless_ok _

/-- An execution that errs failed at the limit or at the rebate. -/
theorem executeUnsafe_error {e : StdError} (hp : s.cadence.Parses) (h : s.executeUnsafe deps env=.error (.err e)) :
    (∃ e, s.checkExecutions=.error (.err e)) ∨ s.checkExecutions=.ok () ∧ ¬∃ r, s.rebate deps env=.ok r := by
  rcases Except.bind_eq_error.mp h with h | ⟨_,hcheck,h⟩
  · exact .inl ⟨e,h⟩
  rcases Except.bind_eq_error.mp h with h | ⟨_,_,h⟩
  · refine .inr ⟨hcheck,?_⟩
    rw [h]
    rintro ⟨_,hr⟩
    cases hr
  rcases Except.bind_eq_error.mp h with h | ⟨_,_,h⟩
  · exact absurd h (errorless_advance hp e)
  · cases h

/-- A schedule between two visits, with the limit `m`. -/
structure Standing (m : ℕ) (s : Schedule) : Prop where
  next : s.next=none
  limit : s.maxExecutions=some m
  parses : s.cadence.Parses
  amounts : ∀ c ∈ s.executionRebate, c.amount<2^128
  below : s.executions.getD 0 ≤ m

theorem Standing.commit_eq (hs : s.Standing m) (hc : s.commit=.ok (.schedule s₂)) : s=s₂ := by
  obtain ⟨_,hsame⟩ | ⟨_,hnext,_⟩ := commit_eq_ok hc
  · exact (Condition.schedule.inj hsame).symm
  · rw [hs.next] at hnext
    cases hnext

/-- One if the branch is taken, and zero otherwise. -/
def taken (s : Schedule) (env : Env) : ℕ := if s.canExecute env=.ok true then 1 else 0

/-- A visit counts at most the branch it takes, and exactly that if and only if it is guarded. -/
theorem Entered.counted_iff (h : s.Entered deps env s₁) (hs : s.Standing m) (hc : s₁.commit=.ok (.schedule s₂)) :
    s₂.Standing m ∧ s₂.executions.getD 0 ≤ s.executions.getD 0+s₁.taken env ∧
      (s₂.executions.getD 0=s.executions.getD 0+s₁.taken env ↔ s.Guarded deps env) := by
  have hcan := @canExecute_iff _ s env m hs.limit
  cases h with
  | @failed e he =>
    obtain rfl := hs.commit_eq hc
    refine ⟨hs,by omega,?_⟩
    have htaken : s.executions.getD 0=s.executions.getD 0+s.taken env ↔ ¬s.canExecute env=.ok true := by
      rw [taken]
      split_ifs with hex <;> simp [hex]
    rw [htaken,hcan]
    -- the branch is taken all the same when the cadence is due and no execution was counted so far
    rcases executeUnsafe_error hs.parses he with ⟨e',hcheck⟩ | ⟨hcheck,hrebate⟩
    · have hle := checkExecutions_error hs.limit hcheck
      constructor
      · intro hnot hdue m' hm'
        obtain rfl := Option.some.inj (hs.limit.symm.trans hm')
        refine ⟨fun hnone hzero => hnot ⟨fun e' he' => ?_,hdue⟩,fun hlt => by omega⟩
        rw [hnone] at he'
        cases he'
      · rintro hg ⟨hbelow,hdue⟩
        obtain ⟨hzero,_⟩ := hg hdue m hs.limit
        cases hx : s.executions with
        | none =>
          rw [hx] at hle
          exact hzero hx (Nat.le_zero.mp hle)
        | some e' =>
          have := hbelow e' hx
          rw [hx] at hle
          exact absurd hle (not_le.mpr this)
    · have hlt := ((checkExecutions_ok_iff hs.limit).mp hcheck).2
      rw [rebate_ok_iff hs.amounts] at hrebate
      constructor
      · intro hnot hdue m' hm'
        refine absurd ⟨fun e' he' => ?_,hdue⟩ hnot
        rwa [he'] at hlt
      · rintro hg ⟨_,hdue⟩
        exact hrebate ((hg hdue m hs.limit).2 hlt)
  | @executed messages s' he =>
    obtain ⟨r,condition,s₁,hcheck,hr,hadvance,hsame,_⟩ := executeUnsafe_eq_ok he
    obtain rfl := Condition.schedule.inj hsame
    obtain ⟨_,hlt⟩ := (checkExecutions_ok_iff hs.limit).mp hcheck
    have hguarded : s.Guarded deps env := fun _ m' hm' => by
      obtain rfl := Option.some.inj (hs.limit.symm.trans hm')
      exact ⟨fun _ => by omega,fun _ => (rebate_ok_iff hs.amounts).mp ⟨r,hr⟩⟩
    rw [iff_true_right hguarded]
    rcases advance_eq_ok hadvance with ⟨hdue,current,hcrank,_,rfl⟩ | ⟨hdue,_,rfl⟩
    · have htaken : taken { s with next := some current } env=1 := if_pos (hcan.mpr ⟨fun e' he' => by rwa [he'] at hlt,hdue⟩)
      obtain ⟨hnone,_⟩ | ⟨next,hnext,hsame⟩ := commit_eq_ok hc
      · cases hnone
      obtain rfl := Option.some.inj hnext
      obtain rfl := Condition.schedule.inj hsame
      rw [htaken,Option.getD_some]
      exact ⟨⟨rfl,hs.limit,(Cadence.crank_moved hcrank).parses hs.parses,hs.amounts,Nat.succ_le_of_lt hlt⟩,le_rfl,rfl⟩
    · have htaken : taken s₁ env=0 := if_neg fun h => by
        have := (hcan.mp h).2
        rw [hdue] at this
        cases this
      obtain rfl := hs.commit_eq hc
      rw [htaken]
      exact ⟨hs,le_rfl,rfl⟩

end Schedule

end
end CalcRs
