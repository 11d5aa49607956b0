import CalcRs.Model.Schedule
import Mathlib.Data.Nat.ModEq

/-! How `crank` makes up for intervals that were missed: by one interval, or by aligning to the last one.
The comparison that separates the two leaves the boundary at two intervals to the wrong side. -/
namespace CalcRs

/-- The new `previous` is the last time of the phase of the old one. -/
structure CatchesUp (interval previous previous' now : ℕ) : Prop where
  later : previous<previous'
  reached : previous' ≤ now
  phase : previous' ≡ previous [MOD interval]
  next : now<previous'+interval

/-- Aligning catches up. -/
theorem CatchesUp.aligned {interval previous now : ℕ} (hpos : 0 < interval) (hdue : previous+interval ≤ now) :
    CatchesUp interval previous (now-(now-previous)%interval) now := by
  have hmod := Nat.mod_lt (now-previous) hpos
  have hle := Nat.mod_le (now-previous) interval
  have hsplit := Nat.div_add_mod (now-previous) interval
  have hsum : now-(now-previous)%interval=previous+interval*((now-previous)/interval) := by omega
  refine ⟨by omega,by omega,?_,by omega⟩
  rw [hsum]
  exact (Nat.modEq_iff_dvd' (Nat.le_add_right _ _)).mpr (by simp) |>.symm

/-- One interval catches up exactly when less than two have elapsed. -/
theorem catchesUp_one_iff {interval previous now : ℕ} (hpos : 0 < interval) (hdue : previous+interval ≤ now) :
    CatchesUp interval previous (previous+interval) now ↔ now<previous+2*interval := by
  constructor
  · intro h
    have := h.next
    omega
  · intro h
    exact ⟨Nat.lt_add_of_pos_right hpos,hdue,by simp [Nat.ModEq],by omega⟩

namespace Timestamp

theorem seconds_add (t : Timestamp) (d : ℕ) : (Timestamp.mk (t.nanos+d*10^9)).seconds=t.seconds+d := by
  simp only [seconds,nanosPerSecond]
  omega

theorem seconds_sub (t : Timestamp) (d : ℕ) : (Timestamp.mk (t.nanos-d*10^9)).seconds=t.seconds-d := by
  simp only [seconds,nanosPerSecond]
  omega

theorem mul_le_nanos {t : Timestamp} {d : ℕ} (h : d ≤ t.seconds) : d*10^9 ≤ t.nanos := by
  simp only [seconds,nanosPerSecond] at h
  omega

/-- At most two intervals have elapsed by the clock, and not two in whole seconds. -/
theorem seconds_lt {p now : Timestamp} {d : ℕ} (hlate : ¬p.nanos+d*10^9<now.nanos-d*10^9)
    (htwo : now.seconds=p.seconds+2*d → p.nanos+2*d*10^9<now.nanos) : now.seconds<p.seconds+2*d := by
  simp only [seconds,nanosPerSecond] at htwo ⊢
  omega

end Timestamp

namespace Cadence

variable [Crates]

/-- Neither the cadence nor the condition registered from it holds in this block. -/
structure Rests (cadence : Cadence) (env : Env) : Prop where
  notDue : cadence.isDue env≠.ok true
  notReached : ∀ condition, cadence.intoCondition env=.ok condition → condition.isReached env=false

/-- What `crank` does to due blocks. -/
theorem crank_blocks {interval p : ℕ} {env : Env} (hdue : p+interval ≤ env.block.height) (hpos : 0 < interval)
    (hheight : env.block.height<2^64) :
    crank (.blocks interval (some p)) env=.ok (.blocks interval (some
      (if p+interval<env.block.height-interval then env.block.height-(env.block.height-p)%interval else p+interval))) := by
  have hadd : U64.add p interval=.ok (p+interval) := fits_of_lt (by omega)
  have hsub : U64.sub env.block.height interval=.ok (env.block.height-interval) := if_pos (by omega)
  rw [crank,hadd,Except.ok_bind,hsub,Except.ok_bind]
  split_ifs with h
  · have h1 : U64.sub env.block.height p=.ok (env.block.height-p) := if_pos (by omega)
    have h2 : U64.mod (env.block.height-p) interval=.ok ((env.block.height-p)%interval) := if_neg (by omega)
    have h3 : U64.sub env.block.height ((env.block.height-p)%interval)=
        .ok (env.block.height-(env.block.height-p)%interval) :=
      if_pos ((Nat.mod_le _ _).trans (Nat.sub_le _ _))
    rw [h1,Except.ok_bind,h2,Except.ok_bind,h3]
    rfl
  · rfl

theorem isDue_blocks {interval p : ℕ} {env : Env} (h : isDue (.blocks interval (some p)) env=.ok true) :
    p+interval ≤ env.block.height := by
  obtain ⟨due,hdue,h⟩ := Except.bind_eq_ok.mp h
  obtain ⟨_,rfl⟩ := fits_eq_ok.mp hdue
  simpa using Except.ok.inj h

theorem rests_blocks {interval p : ℕ} {env : Env} (h : env.block.height<p+interval) :
    Rests (.blocks interval (some p)) env := by
  refine ⟨fun hdue => ?_,fun condition hc => ?_⟩
  · have := isDue_blocks hdue
    omega
  · obtain ⟨due,hdue,rfl⟩ := Except.map_eq_ok.mp hc
    obtain ⟨_,rfl⟩ := fits_eq_ok.mp hdue
    simpa [Condition.isReached] using h

/-- What `crank` does to a due time: it panics when one interval more is no timestamp. -/
theorem crank_time {duration : Duration} {p : Timestamp} {env : Env}
    (hdue : p.seconds+duration.secs ≤ env.block.time.seconds) (hpos : 0<duration.secs) (htime : env.block.time.nanos<2^64) :
    crank (.time duration (some p)) env=
      if p.nanos+duration.secs*10^9<2^64 then .ok (.time duration (some
        (if p.nanos+duration.secs*10^9<env.block.time.nanos-duration.secs*10^9 then
          ⟨env.block.time.nanos-(env.block.time.seconds-p.seconds)%duration.secs*10^9⟩
        else ⟨p.nanos+duration.secs*10^9⟩)))
      else .error .panic := by
  have hd := Timestamp.mul_le_nanos ((Nat.le_add_left _ _).trans hdue)
  have hmul : U64.mul duration.secs Timestamp.nanosPerSecond=.ok (duration.secs*10^9) :=
    fits_of_lt (lt_of_le_of_lt hd htime)
  have hminus : env.block.time.minusSeconds duration.secs=.ok ⟨env.block.time.nanos-duration.secs*10^9⟩ := by
    rw [Timestamp.minusSeconds,hmul,Except.ok_bind,U64.sub,if_pos hd]
    rfl
  by_cases hfits : p.nanos+duration.secs*10^9<2^64
  · have hplus : p.plusSeconds duration.secs=.ok ⟨p.nanos+duration.secs*10^9⟩ := by
      rw [Timestamp.plusSeconds,hmul,Except.ok_bind,U64.add,fits_of_lt hfits]
      rfl
    rw [if_pos hfits,crank,hplus,Except.ok_bind,hminus,Except.ok_bind]
    by_cases hlate : p.nanos+duration.secs*10^9<env.block.time.nanos-duration.secs*10^9
    · have hbefore : (⟨p.nanos+duration.secs*10^9⟩ : Timestamp)<⟨env.block.time.nanos-duration.secs*10^9⟩ := hlate
      have hle : (env.block.time.seconds-p.seconds)%duration.secs*10^9 ≤ env.block.time.nanos :=
        Timestamp.mul_le_nanos ((Nat.mod_le _ _).trans (Nat.sub_le _ _))
      have h1 : U64.sub env.block.time.seconds p.seconds=.ok (env.block.time.seconds-p.seconds) := if_pos (by omega)
      have h2 : U64.mod (env.block.time.seconds-p.seconds) duration.secs=
        .ok ((env.block.time.seconds-p.seconds)%duration.secs) := if_neg (by omega)
      have h3 : U64.mul ((env.block.time.seconds-p.seconds)%duration.secs) Timestamp.nanosPerSecond=
        .ok ((env.block.time.seconds-p.seconds)%duration.secs*10^9) := fits_of_lt (lt_of_le_of_lt hle htime)
      rw [if_pos hlate,if_pos hbefore,h1,Except.ok_bind,h2,Except.ok_bind,Timestamp.minusSeconds,h3,Except.ok_bind,
        U64.sub,if_pos hle]
      rfl
    · have hafter : ¬(⟨p.nanos+duration.secs*10^9⟩ : Timestamp)<⟨env.block.time.nanos-duration.secs*10^9⟩ := hlate
      rw [if_neg hlate,if_neg hafter]
      rfl
  · have hplus : p.plusSeconds duration.secs=.error .panic := by
      rw [Timestamp.plusSeconds,hmul,Except.ok_bind,U64.add,fits,if_neg hfits]
      rfl
    rw [if_neg hfits,crank,hplus]
    rfl

theorem isDue_time {duration : Duration} {p : Timestamp} {env : Env}
    (h : isDue (.time duration (some p)) env=.ok true) : p.seconds+duration.secs ≤ env.block.time.seconds := by
  obtain ⟨due,hdue,h⟩ := Except.bind_eq_ok.mp h
  obtain ⟨_,rfl⟩ := fits_eq_ok.mp hdue
  simpa using Except.ok.inj h

theorem rests_time {duration : Duration} {p : Timestamp} {env : Env}
    (h : env.block.time.seconds<p.seconds+duration.secs) : Rests (.time duration (some p)) env := by
  refine ⟨fun hdue => ?_,fun condition hc => ?_⟩
  · have := isDue_time hdue
    omega
  · obtain ⟨due,hdue,rfl⟩ := Except.map_eq_ok.mp hc
    obtain ⟨n,hn,hdue⟩ := Except.bind_eq_ok.mp hdue
    obtain ⟨m,hm,rfl⟩ := Except.map_eq_ok.mp hdue
    obtain ⟨_,rfl⟩ := fits_eq_ok.mp hn
    obtain ⟨_,rfl⟩ := fits_eq_ok.mp hm
    have hlt : ¬p.nanos+duration.secs*Timestamp.nanosPerSecond ≤ env.block.time.nanos := by
      simp only [Timestamp.seconds,Timestamp.nanosPerSecond] at h ⊢
      omega
    exact decide_eq_false hlt

/-- `crank` returns the cadence with a `previous` that has caught up, and does not fire again in this block. -/
def CranksBlocks (interval p : ℕ) (env : Env) : Prop :=
  ∃ p', crank (.blocks interval (some p)) env=.ok (.blocks interval (some p')) ∧
    CatchesUp interval p p' env.block.height ∧ Rests (.blocks interval (some p')) env

/-- The same for a time, in whole seconds. -/
def CranksTime (duration : Duration) (p : Timestamp) (env : Env) : Prop :=
  ∃ p', crank (.time duration (some p)) env=.ok (.time duration (some p')) ∧
    CatchesUp duration.secs p.seconds p'.seconds env.block.time.seconds ∧ Rests (.time duration (some p')) env

theorem cranksBlocks_iff {interval p : ℕ} {env : Env} (hdue : p+interval ≤ env.block.height) (hpos : 0 < interval)
    (hheight : env.block.height<2^64) : CranksBlocks interval p env ↔ env.block.height≠p+2*interval := by
  rw [CranksBlocks,crank_blocks hdue hpos hheight]
  by_cases hlate : p+interval<env.block.height-interval
  · rw [if_pos hlate]
    have hcatch := CatchesUp.aligned hpos hdue
    exact ⟨fun _ => by omega,fun _ => ⟨_,rfl,hcatch,rests_blocks hcatch.next⟩⟩
  · rw [if_neg hlate]
    constructor
    · rintro ⟨p',he,hcatch,_⟩
      obtain rfl : p+interval=p' := by simpa using he
      have := (catchesUp_one_iff hpos hdue).mp hcatch
      omega
    · intro hne
      exact ⟨_,rfl,(catchesUp_one_iff hpos hdue).mpr (by omega),rests_blocks (by omega)⟩

theorem cranksTime_iff {duration : Duration} {p : Timestamp} {env : Env}
    (hdue : p.seconds+duration.secs ≤ env.block.time.seconds) (hpos : 0<duration.secs) (htime : env.block.time.nanos<2^64) :
    CranksTime duration p env ↔ p.nanos+duration.secs*10^9<2^64 ∧
      (env.block.time.seconds=p.seconds+2*duration.secs → p.nanos+2*duration.secs*10^9<env.block.time.nanos) := by
  rw [CranksTime,crank_time hdue hpos htime]
  by_cases hfits : p.nanos+duration.secs*10^9<2^64
  · rw [if_pos hfits]
    by_cases hlate : p.nanos+duration.secs*10^9<env.block.time.nanos-duration.secs*10^9
    · rw [if_pos hlate]
      have hcatch := CatchesUp.aligned hpos hdue
      rw [← Timestamp.seconds_sub] at hcatch
      exact ⟨fun _ => ⟨hfits,fun _ => by rw [Nat.mul_assoc,Nat.two_mul]; exact Nat.add_assoc .. ▸ Nat.add_lt_of_lt_sub hlate⟩,
        fun _ => ⟨_,rfl,hcatch,rests_time hcatch.next⟩⟩
    · rw [if_neg hlate]
      have hone : CatchesUp duration.secs p.seconds (Timestamp.mk (p.nanos+duration.secs*10^9)).seconds
          env.block.time.seconds ↔ env.block.time.seconds<p.seconds+2*duration.secs := by
        rw [Timestamp.seconds_add]
        exact catchesUp_one_iff hpos hdue
      constructor
      · rintro ⟨p',he,hcatch,_⟩
        cases he
        exact ⟨hfits,fun htwo => absurd htwo (hone.mp hcatch).ne⟩
      · rintro ⟨_,htwo⟩
        have hlt := Timestamp.seconds_lt hlate htwo
        refine ⟨_,rfl,hone.mpr hlt,rests_time ?_⟩
        rw [Timestamp.seconds_add]
        omega
  · rw [if_neg hfits]
    constructor
    · rintro ⟨_,he,_⟩
      cases he
    · intro h
      exact absurd h.1 hfits

/-- A due cadence catches up when it is cranked, unless exactly two intervals have elapsed (or the next time
is no timestamp). -/
theorem crank_catches_up_iff :
    (∀ (interval p : ℕ) (env : Env), 0 < interval → env.block.height<2^64 → isDue (.blocks interval (some p)) env=.ok true →
      (CranksBlocks interval p env ↔ env.block.height≠p+2*interval)) ∧
    ∀ (duration : Duration) (p : Timestamp) (env : Env), 0<duration.secs → env.block.time.nanos<2^64 →
      isDue (.time duration (some p)) env=.ok true →
      (CranksTime duration p env ↔ p.nanos+duration.secs*10^9<2^64 ∧
        (env.block.time.seconds=p.seconds+2*duration.secs → p.nanos+2*duration.secs*10^9<env.block.time.nanos)) :=
  ⟨fun _ _ _ hpos hheight hdue => cranksBlocks_iff (isDue_blocks hdue) hpos hheight,
    fun _ _ _ hpos htime hdue => cranksTime_iff (isDue_time hdue) hpos htime⟩

end Cadence

namespace Cadence

attribute [local instance] Crates.plain

/-- Two intervals of ten blocks after block 100 the cadence is still due when it has been cranked. -/
theorem two_intervals_fire_twice : isDue (.blocks 10 (some 100)) ⟨⟨120,⟨0⟩⟩,"strategy"⟩=.ok true ∧
    crank (.blocks 10 (some 100)) ⟨⟨120,⟨0⟩⟩,"strategy"⟩=.ok (.blocks 10 (some 110)) ∧
    isDue (.blocks 10 (some 110)) ⟨⟨120,⟨0⟩⟩,"strategy"⟩=.ok true ∧ ¬CranksBlocks 10 100 ⟨⟨120,⟨0⟩⟩,"strategy"⟩ := by
  refine ⟨by decide,by decide,by decide,?_⟩
  rintro ⟨p',hcrank,_,hrests⟩
  obtain rfl : 110=p' := by simpa using (show Cadence.crank (.blocks 10 (some 100)) ⟨⟨120,⟨0⟩⟩,"strategy"⟩=
    .ok (.blocks 10 (some 110)) by decide).symm.trans hcrank
  exact hrests.notDue (by decide)

theorem crank_catches_up_iff_late :
    (CranksBlocks 10 100 ⟨⟨137,⟨0⟩⟩,"strategy"⟩ ↔ 137≠100+2*10) ∧
    (CranksTime ⟨60,0⟩ ⟨5*10^9⟩ ⟨⟨1,⟨125*10^9+1⟩⟩,"strategy"⟩ ↔ 5*10^9+60*10^9<2^64 ∧
      ((Timestamp.mk (125*10^9+1)).seconds=(Timestamp.mk (5*10^9)).seconds+2*60 → 5*10^9+2*60*10^9<125*10^9+1)) :=
  ⟨crank_catches_up_iff.1 10 100 ⟨⟨137,⟨0⟩⟩,"strategy"⟩ (by decide) (by decide) (by decide),
    crank_catches_up_iff.2 ⟨60,0⟩ ⟨5*10^9⟩ ⟨⟨1,⟨125*10^9+1⟩⟩,"strategy"⟩ (by decide) (by decide) (by decide)⟩

end Cadence
end CalcRs
