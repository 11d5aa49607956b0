import CalcRs.Conditions.Batches
import CalcRs.Foundation.Paging

/-! The query for triggers by height or time. An index also holds the triggers of the other kind, under the
largest number, and they take part in every range that reaches it. -/
namespace CalcRs

namespace ConditionFilter

/-- The height or the whole second of a condition of the filter's kind. -/
def position : ConditionFilter → Condition → Option ℕ
  | .blockHeight _ _,.blocksCompleted height => some height
  | .timestamp _ _,.timestampElapsed time => some time.seconds
  | _,_ => none

/-- Between `start` and `end`, where they are given. -/
def within : ConditionFilter → ℕ → Bool
  | .blockHeight start stop,n => start.all (· ≤ n) && stop.all (n ≤ ·)
  | .timestamp start stop,n => start.all (·.seconds ≤ n) && stop.all (n ≤ ·.seconds)

/-- The triggers that the query is for. -/
def wanted (filter : ConditionFilter) (t : Trigger) : Bool := (filter.position t.condition).any filter.within

/-- By height or second, then by id; a trigger of the other kind counts as one at the largest number. -/
def place (filter : ConditionFilter) (t : Trigger) : ℕ ×ₗ ℕ :=
  toLex ((filter.position t.condition).getD U64.MAX,t.id)

/-- The index that the query reads. -/
def index : ConditionFilter → Trigger → ℕ
  | .blockHeight _ _ => TriggerStore.blockHeight
  | .timestamp _ _ => TriggerStore.timestamp

theorem index_eq (filter : ConditionFilter) (t : Trigger) :
    filter.index t=(filter.position t.condition).getD U64.MAX := by
  obtain ⟨id,owner,condition,msg,contractAddress,executors,executionRebate,jitter⟩ := t
  cases filter <;> cases condition <;> rfl

end ConditionFilter

namespace TriggerStore

variable {store : Table ℕ Trigger} {filter : ConditionFilter} {limit : Option ℕ}

/-- What the query is for: the first wanted triggers in ascending order of height or second, and then of id. -/
def Answers (store : Table ℕ Trigger) (filter : ConditionFilter) (limit : Option ℕ) (answer : List Trigger) : Prop :=
  ∃ all : List Trigger, all.Perm (store.values.filter filter.wanted) ∧
    all.Pairwise (fun a b => filter.place a<filter.place b) ∧ answer=all.take (limit.getD 30)

/-- The entries of an index, in the order of their keys. -/
theorem range_spec (hk : Keyed store) (index : Trigger → ℕ) (min max : Option (ℕ ×ₗ ℕ)) :
    (range index store min max).Perm (store.values.filter fun t =>
        min.all (· ≤ toLex (index t,t.id)) ∧ max.all (toLex (index t,t.id) ≤ ·)) ∧
      (range index store min max).Pairwise fun a b => toLex (index a,a.id)<toLex (index b,b.id) := by
  have hid : ∀ e ∈ store.entries, e.1=e.2.id := fun e he => (hk e.1 e.2 (Table.get?_eq_some_iff.mpr he)).symm
  let key (e : ℕ × Trigger) : ℕ ×ₗ ℕ := toLex (index e.2,e.1)
  have hperm := List.perm_insertionSort (fun a b => key a ≤ key b) store.entries
  have hsorted : (store.entries.insertionSort fun a b => key a ≤ key b).Pairwise fun a b => key a<key b := by
    have hle := List.pairwise_insertionSort (fun a b => key a ≤ key b) store.entries
    have hne : (store.entries.insertionSort fun a b => key a ≤ key b).Pairwise fun a b => a.1≠b.1 :=
      (hperm.pairwise_iff fun h => h.symm).mpr (store.sorted.imp fun h => h.ne)
    refine (hle.and hne).imp fun {a b} h => lt_of_le_of_ne h.1 fun hkey => h.2 ?_
    exact congrArg (fun k => (ofLex k).2) hkey
  refine ⟨?_,?_⟩
  · refine ((hperm.filter _).map _).trans (.of_eq ?_)
    rw [Table.values,List.filter_map]
    refine congrArg _ (List.filter_congr fun e he => ?_)
    simp only [Function.comp_apply,hid e he]
  · refine List.pairwise_map.mpr ((hsorted.filter _).imp_of_mem fun {a b} ha hb h => ?_)
    have ha := hid a (hperm.subset (List.mem_of_mem_filter ha))
    have hb := hid b (hperm.subset (List.mem_of_mem_filter hb))
    rwa [← ha,← hb]

theorem all_lower {α : Type} (start : Option α) (f : α → ℕ) (n id : ℕ) :
    (start.map fun s => (toLex (f s,0) : ℕ ×ₗ ℕ)).all (· ≤ toLex (n,id))=start.all fun s => f s ≤ n := by
  cases start with
  | none => rfl
  | some s =>
    refine decide_eq_decide.mpr ?_
    rw [Prod.Lex.toLex_le_toLex]
    dsimp only
    omega

theorem all_upper {α : Type} (stop : Option α) (f : α → ℕ) (n : ℕ) {id : ℕ} (hid : id<2^64) :
    (stop.map fun e => (toLex (f e,U64.MAX) : ℕ ×ₗ ℕ)).all (toLex (n,id) ≤ ·)=stop.all fun e => n ≤ f e := by
  cases stop with
  | none => rfl
  | some e =>
    refine decide_eq_decide.mpr ?_
    rw [Prod.Lex.toLex_le_toLex,U64.MAX]
    dsimp only
    omega

/-- The range that the query reads. -/
def scanned (store : Table ℕ Trigger) : ConditionFilter → List Trigger
  | .blockHeight start stop => range blockHeight store
    (start.map fun s => toLex (s,0)) (stop.map fun e => toLex (e,U64.MAX))
  | .timestamp start stop => range timestamp store
    (start.map fun s => toLex (s.seconds,0)) (stop.map fun e => toLex (e.seconds,U64.MAX))

theorem filtered_eq : filtered store filter limit=(scanned store filter).take (limit.getD 30) := by
  cases filter <;> rfl

/-- The range holds the triggers whose key in the index is within the bounds, of whichever kind they are. -/
theorem scanned_spec (hk : Keyed store) (hid : ∀ t ∈ store.values, t.id<2^64) (filter : ConditionFilter) :
    (scanned store filter).Perm (store.values.filter fun t => filter.within (filter.index t)) ∧
      (scanned store filter).Pairwise fun a b => filter.place a<filter.place b := by
  have hplace : ∀ t, filter.place t=toLex (filter.index t,t.id) := fun t => by rw [ConditionFilter.place,filter.index_eq]
  simp only [hplace]
  cases filter with
  | timestamp start stop =>
    obtain ⟨hperm,hsorted⟩ := range_spec hk timestamp (start.map fun s => toLex (s.seconds,0))
      (stop.map fun e => toLex (e.seconds,U64.MAX))
    refine ⟨hperm.trans (.of_eq (List.filter_congr fun t ht => ?_)),hsorted⟩
    rw [all_lower,all_upper _ _ _ (hid t ht),Bool.decide_and,Bool.decide_eq_true,Bool.decide_eq_true]
    rfl
  | blockHeight start stop =>
    obtain ⟨hperm,hsorted⟩ := range_spec hk blockHeight (start.map fun s => toLex (s,0))
      (stop.map fun e => toLex (e,U64.MAX))
    refine ⟨hperm.trans (.of_eq (List.filter_congr fun t ht => ?_)),hsorted⟩
    rw [all_lower,all_upper _ _ _ (hid t ht),Bool.decide_and,Bool.decide_eq_true,Bool.decide_eq_true]
    rfl

/-- Of the triggers in the range, the query is for those of the filter's kind. -/
theorem wanted_eq {t : Trigger} (h : filter.within (filter.index t)) :
    filter.wanted t=(filter.position t.condition).isSome := by
  rw [filter.index_eq] at h
  unfold ConditionFilter.wanted
  cases hp : filter.position t.condition with
  | none => rfl
  | some n => simpa [hp] using h

theorem within_of_wanted {t : Trigger} (h : filter.wanted t) : filter.within (filter.index t) := by
  rw [filter.index_eq]
  unfold ConditionFilter.wanted at h
  cases hp : filter.position t.condition with
  | none => simp [hp] at h
  | some n => simpa [hp] using h

/-- The answer is right when no unwanted trigger is among the first of the range. -/
theorem answers_iff_take (hk : Keyed store) (hid : ∀ t ∈ store.values, t.id<2^64) :
    Answers store filter limit (filtered store filter limit) ↔
      ∀ t ∈ (scanned store filter).take (limit.getD 30), filter.wanted t=true := by
  obtain ⟨hperm,hsorted⟩ := scanned_spec hk hid filter
  have hall : ((scanned store filter).filter filter.wanted).Perm (store.values.filter filter.wanted) := by
    refine (hperm.filter _).trans (.of_eq ?_)
    rw [List.filter_filter]
    exact List.filter_congr fun t _ => by simpa using within_of_wanted
  rw [← Paging.take_filter_eq_take,filtered_eq]
  constructor
  · rintro ⟨all,hperm',hsorted',hanswer⟩
    rw [hanswer]
    refine congrArg _ ((hall.trans hperm'.symm).eq_of_pairwise (fun a b _ _ h h' => ?_) (hsorted.filter _) hsorted')
    exact absurd h' h.asymm
  · exact fun h => ⟨_,hall,hsorted.filter _,h.symm⟩

theorem Answers.wanted {answer : List Trigger} (h : Answers store filter limit answer) :
    ∀ t ∈ answer, filter.wanted t=true := by
  obtain ⟨all,hperm,_,rfl⟩ := h
  exact fun t ht => List.of_mem_filter (hperm.subset (List.mem_of_mem_take ht))

/-- The query answers as promised exactly when its bounds leave out the largest number, or no trigger of the other
kind is stored, or enough wanted triggers come before it. -/
theorem filtered_answers_iff [Crates] (hhash : ∀ bytes, Crates.hash bytes<2^64)
    (h : SchedulerContract.Reachable store) (filter : ConditionFilter) (limit : Option ℕ) :
    Answers store filter limit (filtered store filter limit) ↔
      (filter.within U64.MAX → ∀ t ∈ store.values, filter.position t.condition=none →
        limit.getD 30 ≤ store.values.countP fun w => filter.wanted w && decide (filter.place w<filter.place t)) := by
  have hk := h.stored.keyed
  have hid : ∀ t ∈ store.values, t.id<2^64 := fun t ht => h.id_lt hhash (hk.get?_of_mem ht)
  obtain ⟨hperm,hsorted⟩ := scanned_spec hk hid filter
  have hcount : ∀ t, (scanned store filter).countP (fun w => filter.wanted w && decide (filter.place w<filter.place t))=
      store.values.countP fun w => filter.wanted w && decide (filter.place w<filter.place t) := fun t => by
    rw [hperm.countP_eq,List.countP_filter]
    refine List.countP_congr fun w _ => ?_
    simp only [Bool.and_eq_true]
    exact ⟨fun h => h.1,fun h => ⟨h,within_of_wanted h.1⟩⟩
  have hmem : ∀ t, t ∈ scanned store filter ↔ t ∈ store.values ∧ filter.within (filter.index t)=true := fun t => by
    rw [hperm.mem_iff,List.mem_filter]
  rw [answers_iff_take hk hid,Paging.forall_take_iff (fun a b h => h.asymm) hsorted]
  simp only [hcount]
  constructor
  · intro hlimit hmax t ht hnone
    have hwithin : filter.within (filter.index t)=true := by rwa [filter.index_eq,hnone]
    exact hlimit t ((hmem t).mpr ⟨ht,hwithin⟩) (by rw [wanted_eq hwithin,hnone]; rfl)
  · intro hlimit t ht hunwanted
    obtain ⟨ht,hwithin⟩ := (hmem t).mp ht
    have hnone : filter.position t.condition=none := by
      rw [wanted_eq hwithin] at hunwanted
      exact Option.isSome_eq_false_iff.mp hunwanted |> Option.isNone_iff_eq_none.mp
    rw [filter.index_eq,hnone] at hwithin
    exact hlimit hwithin t ht hnone

section

/-- Third-party code whose hashes are numbers of 64 bits. -/
@[reducible] def hashed : Crates := { Crates.plain with hash := fun bytes => bytes.length%2^64 }

attribute [local instance] hashed

/-- A trigger of alice that waits for a time. -/
def delayed : CreateTriggerMsg := ⟨.timestampElapsed ⟨5000000000⟩,asBytes "later","clock",["keeper"],none⟩

def delayedTrigger : Trigger := ⟨24,"alice",.timestampElapsed ⟨5000000000⟩,asBytes "later","clock",["keeper"],[],none⟩

/-- A trigger of each kind. -/
def mixed : Table ℕ Trigger := (Table.empty.insert 23 SchedulerContract.reachedTrigger).insert 24 delayedTrigger

theorem mixed_reachable : SchedulerContract.Reachable mixed := by
  have hreached : SchedulerContract.execute Deps.silent (Schedule.atBlock 1) ⟨"alice",[⟨5,"rune"⟩]⟩ Table.empty
      (.create SchedulerContract.reached)=.ok (Table.empty.insert 23 SchedulerContract.reachedTrigger,[]) := by
    decide +kernel
  have hdelayed : SchedulerContract.execute Deps.silent (Schedule.atBlock 1) ⟨"alice",[]⟩
      (Table.empty.insert 23 SchedulerContract.reachedTrigger) (.create delayed)=.ok (mixed,[]) := by decide +kernel
  exact .call (.call .instantiate hreached) hdelayed

/-- With an upper bound the query returns what it is for. -/
theorem filtered_answers_iff_bounded : Answers mixed (.blockHeight none (some 10)) none
    (filtered mixed (.blockHeight none (some 10)) none) :=
  (filtered_answers_iff (fun _ => Nat.mod_lt _ (by decide)) mixed_reachable (.blockHeight none (some 10)) none).mpr
    fun h => absurd h (by decide +kernel)

/-- Without one, a query by height returns a trigger that waits for a time. -/
theorem other_kind_returned : SchedulerContract.Reachable mixed ∧
    ¬Answers mixed (.blockHeight none none) none (filtered mixed (.blockHeight none none) none) := by
  refine ⟨mixed_reachable,fun h => ?_⟩
  have hreturned : delayedTrigger ∈ filtered mixed (.blockHeight none none) none := by decide +kernel
  exact absurd (h.wanted delayedTrigger hreturned) (by decide +kernel)

end

end TriggerStore
end CalcRs
