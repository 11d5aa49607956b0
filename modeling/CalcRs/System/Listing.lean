import CalcRs.Model.Manager
import CalcRs.Foundation.Digits
import CalcRs.Foundation.Paging

/-! The registry, page by page. The cursor is the time of the last strategy of a page, so what else was updated at
that time is passed over. -/
namespace CalcRs.ManagerContract

variable {storage : ManagerStorage} {owner : Option Addr} {status : Option StrategyStatus} {limit : Option ℕ}

/-- What pages are for: every strategy of the filter once, the latest first, until a page is empty. -/
def Lists (storage : ManagerStorage) (owner : Option Addr) (status : Option StrategyStatus) (limit : Option ℕ) : Prop :=
  ∃ listed, Paging.Walk (fun startAfter => strategies storage owner status startAfter limit) Strategy.updatedAt none listed ∧
    listed.Perm (partition storage owner status) ∧ listed.Pairwise fun a b => b.updatedAt ≤ a.updatedAt

theorem updatedAtCursor_toList {u : ℕ} (hu : u<10^30) (contractAddress : Option Addr) :
    (updatedAtCursor u contractAddress).toList=Digits.fixed 30 u ++ '_' :: (contractAddress.getD "").toList := by
  have hdigits : (toString u).toList=Nat.toDigits 10 u := Nat.toList_repr
  rw [updatedAtCursor,hdigits,Digits.padded_eq hu]
  simp

/-- The address is compared after the time, and a cursor has none. -/
theorem indexKey_lt_iff {s : Strategy} {u : ℕ} (hs : s.updatedAt<10^30) (hu : u<10^30) :
    indexKey s<updatedAtCursor u none ↔ s.updatedAt<u := by
  rw [String.lt_iff_toList_lt,indexKey,updatedAtCursor_toList hs,updatedAtCursor_toList hu,
    Digits.append_lt_append_iff (by simp),Digits.fixed_lt_iff hs hu]
  simp

theorem updatedAt_le {s s' : Strategy} (hs : s.updatedAt<10^30) (hs' : s'.updatedAt<10^30)
    (h : indexKey s' ≤ indexKey s) : s'.updatedAt ≤ s.updatedAt := by
  by_contra hlt
  have hself := mt (indexKey_lt_iff hs' hs').mp (lt_irrefl _)
  exact absurd (h.trans_lt ((indexKey_lt_iff hs hs').mpr (not_le.mp hlt))) hself

/-- An index in descending order. -/
def descending (storage : ManagerStorage) (owner : Option Addr) (status : Option StrategyStatus) : List Strategy :=
  (partition storage owner status).insertionSort fun a b => indexKey b ≤ indexKey a

theorem descending_perm : (descending storage owner status).Perm (partition storage owner status) :=
  List.perm_insertionSort _ _

section

variable (hu : ∀ a s, storage.strategies.get? a=some s → s.updatedAt<2^64)
include hu

theorem updatedAt_lt {s : Strategy} (hs : s ∈ descending storage owner status) : s.updatedAt<10^30 := by
  obtain ⟨a,ha⟩ := Table.mem_values.mp (List.mem_of_mem_filter (descending_perm.subset hs))
  exact (hu a s ha).trans (by decide)

theorem descending_updatedAt : (descending storage owner status).Pairwise fun a b => b.updatedAt ≤ a.updatedAt := by
  refine (List.pairwise_insertionSort (fun a b => indexKey b ≤ indexKey a) _).imp_of_mem fun {a b} ha hb h => ?_
  exact updatedAt_le (updatedAt_lt hu ha) (updatedAt_lt hu hb) h

/-- A page after the time of some strategy. -/
theorem strategies_eq {startAfter : Option ℕ}
    (h : ∀ u ∈ startAfter, ∃ s ∈ descending storage owner status, s.updatedAt=u) :
    strategies storage owner status startAfter limit=
      (Paging.below Strategy.updatedAt (descending storage owner status) startAfter).take (limit.getD 30) := by
  have hbelow : ((descending storage owner status).filter fun s => startAfter.all fun u => indexKey s<updatedAtCursor u none)=
      Paging.below Strategy.updatedAt (descending storage owner status) startAfter := by
    refine List.filter_congr fun s hs => ?_
    cases startAfter with
    | none => rw [Option.all_none,Option.all_none]
    | some u =>
      obtain ⟨s',hs',rfl⟩ := h u rfl
      rw [Option.all_some,Option.all_some]
      exact decide_eq_decide.mpr (indexKey_lt_iff (updatedAt_lt hu hs) (updatedAt_lt hu hs'))
  rw [← hbelow]
  rfl

/-- The pages end, the latest strategies come first, and nothing comes twice. -/
theorem strategies_end (hl : 1 ≤ limit.getD 30) : ∃ listed,
    Paging.Walk (fun startAfter => strategies storage owner status startAfter limit) Strategy.updatedAt none listed ∧
      listed.Sublist (descending storage owner status) ∧ (listed=descending storage owner status ↔
        Paging.Unsplit Strategy.updatedAt (limit.getD 30) (partition storage owner status)) := by
  obtain ⟨listed,hwalk,hsub,hall⟩ := Paging.exists_walk hl (descending_updatedAt hu)
    (fun startAfter h => strategies_eq hu h) none (fun _ h => by cases h)
  rw [Paging.below_none] at hsub hall
  exact ⟨listed,hwalk,hsub,hall.trans (Paging.Unsplit.perm descending_perm)⟩

/-- Every strategy of the filter is listed once exactly when those updated at the same time are on the same page. -/
theorem strategies_listed_iff (hl : 1 ≤ limit.getD 30) : Lists storage owner status limit ↔
    Paging.Unsplit Strategy.updatedAt (limit.getD 30) (partition storage owner status) := by
  obtain ⟨listed,hwalk,hsub,hall⟩ := @strategies_end storage owner status limit hu hl
  rw [← hall]
  constructor
  · rintro ⟨listed',hwalk',hperm,_⟩
    obtain rfl := hwalk.unique hwalk'
    exact hsub.eq_of_length (hperm.trans descending_perm.symm).length_eq
  · rintro rfl
    exact ⟨_,hwalk,descending_perm,descending_updatedAt hu⟩

end

section

attribute [local instance] Crates.plain

def savings (id : ℕ) (owner contractAddress : Addr) : Strategy := ⟨id,none,owner,contractAddress,1,1,"savings",.active⟩

/-- Alice and bob have opened a strategy each, in the same block. -/
def twins : ManagerStorage := ⟨⟨"fees",1⟩,2,(Table.empty.insert "manager/21" (savings 1 "alice" "manager/21")).insert
  "manager/19" (savings 2 "bob" "manager/19")⟩

def opens (owner : Addr) (storage : ManagerStorage) : Outcome (ManagerStorage × ManagerResponse) :=
  execute Deps.silent ⟨⟨1,⟨10^9⟩⟩,"manager"⟩ ⟨owner,[]⟩ storage (.instantiate none none "savings" [] [])

theorem twins_updatedAt : ∀ a s, twins.strategies.get? a=some s → s.updatedAt<2^64 := by
  intro a s hs
  have hall : ∀ s ∈ twins.strategies.values, s.updatedAt<2^64 := by decide +kernel
  exact hall s (Table.mem_values.mpr ⟨a,hs⟩)

/-- Both fit on a page of two. -/
theorem strategies_listed_iff_twins : Lists twins none none (some 2) :=
  (strategies_listed_iff twins_updatedAt (by decide)).mpr (by unfold Paging.Unsplit; decide +kernel)

/-- On pages of one, the second strategy of the block is passed over. -/
theorem strategy_passed_over : ((opens "alice" ⟨⟨"fees",1⟩,0,Table.empty⟩).bind fun r => opens "bob" r.1).map Prod.fst=.ok twins ∧
    ¬Lists twins none none (some 1) := by
  refine ⟨by decide +kernel,?_⟩
  rintro ⟨listed,hwalk,hperm,_⟩
  have hfirst : strategies twins none none none (some 1)=[savings 1 "alice" "manager/21"] := by decide +kernel
  have hsecond : strategies twins none none (some 1) (some 1)=[] := by decide +kernel
  have hwalk' := @Paging.Walk.next _ _ (fun startAfter => strategies twins none none startAfter (some 1))
    Strategy.updatedAt none _ _ (congrArg List.getLast? hfirst) (.stop hsecond)
  obtain rfl := hwalk.unique hwalk'
  rw [hfirst] at hperm
  exact absurd hperm.length_eq (by decide +kernel)

end

end CalcRs.ManagerContract
