import Mathlib.Order.Basic
import Mathlib.Data.List.Sort
import Mathlib.Algebra.BigOperators.Group.List.Basic
import Mathlib.Algebra.Ring.Nat

/-! Finite maps with their entries in ascending key order, as an ordered key-value store or a
tree map enumerates them. -/
namespace CalcRs

/-- Entries in strictly ascending key order: every key occurs at most once. -/
structure Table (κ ν : Type*) [LinearOrder κ] where
  entries : List (κ × ν)
  sorted : entries.Pairwise (fun a b => a.1<b.1)

namespace Table

variable {κ ν : Type*} [LinearOrder κ]

@[ext] theorem ext_entries {s t : Table κ ν} (h : s.entries=t.entries) : s=t := by
  cases s; cases t; cases h; rfl

instance [DecidableEq ν] : DecidableEq (Table κ ν) := fun s t =>
  decidable_of_iff (s.entries=t.entries) ⟨ext_entries,fun h => h ▸ rfl⟩

def empty : Table κ ν := ⟨[],List.Pairwise.nil⟩

def isEmpty (t : Table κ ν) : Bool := t.entries.isEmpty

def get? (t : Table κ ν) (k : κ) : Option ν := (t.entries.find? (fun e => e.1=k)).map Prod.snd

def keys (t : Table κ ν) : List κ := t.entries.map Prod.fst

def values (t : Table κ ν) : List ν := t.entries.map Prod.snd

/-- The entries other than that of `k`. -/
def erase (t : Table κ ν) (k : κ) : Table κ ν where
  entries := t.entries.filter (fun e => e.1≠k)
  sorted := t.sorted.filter _

theorem insert_sorted (t : Table κ ν) (k : κ) (v : ν) :
    (t.entries.filter (fun e => e.1<k) ++ (k,v) :: t.entries.filter (fun e => k<e.1)).Pairwise
      (fun a b => a.1<b.1) := by
  apply List.pairwise_append.mpr
  refine ⟨t.sorted.filter _,List.pairwise_cons.mpr ⟨?_,t.sorted.filter _⟩,?_⟩
  · intro e he
    simpa using (List.mem_filter.mp he).2
  · intro a ha b hb
    have hak : a.1<k := by simpa using (List.mem_filter.mp ha).2
    rcases List.mem_cons.mp hb with rfl | hb
    · exact hak
    · exact hak.trans (by simpa using (List.mem_filter.mp hb).2)

/-- The entries with that of `k` added or replaced. -/
def insert (t : Table κ ν) (k : κ) (v : ν) : Table κ ν where
  entries := t.entries.filter (fun e => e.1<k) ++ (k,v) :: t.entries.filter (fun e => k<e.1)
  sorted := t.insert_sorted k v

theorem mem_insert {t : Table κ ν} {k : κ} {v : ν} {e : κ × ν} :
    e ∈ (t.insert k v).entries ↔ e=(k,v) ∨ (e.1≠k ∧ e ∈ t.entries) := by
  simp only [insert,List.mem_append,List.mem_filter,List.mem_cons,decide_eq_true_eq]
  constructor
  · rintro (⟨h,hk⟩ | h | ⟨h,hk⟩)
    · exact .inr ⟨hk.ne,h⟩
    · exact .inl h
    · exact .inr ⟨hk.ne',h⟩
  · rintro (h | ⟨hk,h⟩)
    · exact .inr (.inl h)
    · rcases lt_or_gt_of_ne hk with hlt | hlt
      · exact .inl ⟨h,hlt⟩
      · exact .inr (.inr ⟨h,hlt⟩)

theorem mem_erase {t : Table κ ν} {k : κ} {e : κ × ν} :
    e ∈ (t.erase k).entries ↔ e.1≠k ∧ e ∈ t.entries := by
  simp [erase,and_comm]

theorem keys_nodup (t : Table κ ν) : t.keys.Nodup :=
  List.pairwise_map.mpr (t.sorted.imp fun h => h.ne)

theorem entries_nodup (t : Table κ ν) : t.entries.Nodup := List.Nodup.of_map _ t.keys_nodup

theorem key_unique {t : Table κ ν} {a b : κ × ν} (ha : a ∈ t.entries) (hb : b ∈ t.entries)
    (h : a.1=b.1) : a=b := List.inj_on_of_nodup_map t.keys_nodup ha hb h

theorem get?_eq_some_iff {t : Table κ ν} {k : κ} {v : ν} :
    t.get? k=some v ↔ (k,v) ∈ t.entries := by
  constructor
  · intro h
    obtain ⟨e,he,rfl⟩ := Option.map_eq_some_iff.mp h
    have hk : e.1=k := by simpa using List.find?_some he
    exact hk ▸ List.mem_of_find?_eq_some he
  · intro h
    cases hf : t.entries.find? (fun e => e.1=k) with
    | none => simpa using List.find?_eq_none.mp hf (k,v) h
    | some e =>
      have hk : e.1=k := by simpa using List.find?_some hf
      have he := key_unique (List.mem_of_find?_eq_some hf) h hk
      simp [get?,hf,he]

theorem get?_eq_none_iff {t : Table κ ν} {k : κ} : t.get? k=none ↔ ∀ v, (k,v) ∉ t.entries := by
  simp only [Option.eq_none_iff_forall_ne_some,ne_eq,get?_eq_some_iff]

@[simp] theorem get?_empty (k : κ) : (empty : Table κ ν).get? k=none := rfl

@[simp] theorem get?_insert_self (t : Table κ ν) (k : κ) (v : ν) : (t.insert k v).get? k=some v :=
  get?_eq_some_iff.mpr (mem_insert.mpr (.inl rfl))

theorem get?_insert_of_ne (t : Table κ ν) {k k' : κ} (v : ν) (h : k'≠k) :
    (t.insert k v).get? k'=t.get? k' := by
  apply Option.ext
  intro w
  rw [get?_eq_some_iff,get?_eq_some_iff,mem_insert]
  simp [h]

@[simp] theorem get?_erase_self (t : Table κ ν) (k : κ) : (t.erase k).get? k=none :=
  get?_eq_none_iff.mpr fun _ h => (mem_erase.mp h).1 rfl

theorem get?_erase_of_ne (t : Table κ ν) {k k' : κ} (h : k'≠k) :
    (t.erase k).get? k'=t.get? k' := by
  apply Option.ext
  intro w
  rw [get?_eq_some_iff,get?_eq_some_iff,mem_erase]
  simp [h]

theorem get?_insert (t : Table κ ν) (k k' : κ) (v : ν) :
    (t.insert k v).get? k'=if k'=k then some v else t.get? k' := by
  split_ifs with h
  · rw [h,get?_insert_self]
  · exact get?_insert_of_ne t v h

theorem get?_erase (t : Table κ ν) (k k' : κ) :
    (t.erase k).get? k'=if k'=k then none else t.get? k' := by
  split_ifs with h
  · rw [h,get?_erase_self]
  · exact get?_erase_of_ne t h

/-- Tables are determined by what they answer. -/
theorem ext_get? {s t : Table κ ν} (h : ∀ k, s.get? k=t.get? k) : s=t := by
  apply ext_entries
  have hp : s.entries.Perm t.entries := by
    apply (List.perm_ext_iff_of_nodup s.entries_nodup t.entries_nodup).mpr
    rintro ⟨k,v⟩
    rw [← get?_eq_some_iff,← get?_eq_some_iff,h k]
  exact hp.eq_of_pairwise (fun a b _ _ hab hba => absurd hab hba.asymm) s.sorted t.sorted

/-- A list as a map from its positions. -/
def ofList (xs : List ν) : Table ℕ ν where
  entries := xs.zipIdx.map fun e => (e.2,e.1)
  sorted := List.pairwise_iff_getElem.mpr fun i j hi hj hij => by simpa using hij

theorem get?_ofList (xs : List ν) (k : ℕ) : (ofList xs).get? k=xs[k]? := by
  ext v
  rw [get?_eq_some_iff,ofList,List.mem_map]
  constructor
  · rintro ⟨⟨w,j⟩,h,he⟩
    cases he
    simpa using List.mk_mem_zipIdx_iff_getElem?.mp h
  · intro h
    exact ⟨(v,k),List.mk_mem_zipIdx_iff_getElem?.mpr (by simpa using h),rfl⟩

theorem values_ofList (xs : List ν) : (ofList xs).values=xs := by
  rw [values,ofList,List.map_map]
  exact List.zipIdx_map_fst 0 xs

theorem mem_values {t : Table κ ν} {v : ν} : v ∈ t.values ↔ ∃ k, t.get? k=some v := by
  simp only [values,List.mem_map,get?_eq_some_iff]
  constructor
  · rintro ⟨⟨k,_⟩,h,rfl⟩; exact ⟨k,h⟩
  · rintro ⟨k,h⟩; exact ⟨(k,v),h,rfl⟩

/-- Keys without a gap are the positions of the values. -/
theorem values_of_keys {t : Table ℕ ν} {count : ℕ} (h : ∀ k, (t.get? k).isSome ↔ k<count) :
    t.values.length=count ∧ ∀ k, t.get? k=t.values[k]? := by
  let xs := List.ofFn fun i : Fin count => (t.get? i).get ((h i).mpr i.isLt)
  have hxs : ∀ k, t.get? k=xs[k]? := fun k => by
    by_cases hk : k<count
    · rw [List.getElem?_ofFn,dif_pos hk,Option.some_get]
    · rw [List.getElem?_ofFn,dif_neg hk]
      exact Option.not_isSome_iff_eq_none.mp fun hs => hk ((h k).mp hs)
  have ht : t=ofList xs := ext_get? fun k => by rw [hxs k,get?_ofList]
  have hv : t.values=xs := by rw [ht,values_ofList]
  exact ⟨by rw [hv,List.length_ofFn],fun k => by rw [hv,hxs k]⟩

theorem isEmpty_iff {t : Table κ ν} : t.isEmpty=true ↔ ∀ k, t.get? k=none := by
  rw [isEmpty,List.isEmpty_iff]
  constructor
  · intro h k
    exact get?_eq_none_iff.mpr (by simp [h])
  · intro h
    refine List.eq_nil_iff_forall_not_mem.mpr ?_
    rintro ⟨k,v⟩ hm
    exact get?_eq_none_iff.mp (h k) v hm

/-- Inserting adds one entry to those of the other keys. -/
theorem insert_perm (t : Table κ ν) (k : κ) (v : ν) :
    (t.insert k v).entries.Perm ((k,v) :: (t.erase k).entries) := by
  apply (List.perm_ext_iff_of_nodup (t.insert k v).entries_nodup ?_).mpr
  · intro e
    rw [mem_insert,List.mem_cons,mem_erase]
  · exact List.nodup_cons.mpr ⟨fun h => (mem_erase.mp h).1 rfl,(t.erase k).entries_nodup⟩

theorem values_insert_perm {t : Table κ ν} {k : κ} (h : t.get? k=none) (v : ν) :
    (t.insert k v).values.Perm (v :: t.values) := by
  have := (t.insert_perm k v).map Prod.snd
  rwa [show t.erase k=t from ext_get? fun k' => by rw [get?_erase]; split_ifs with hk <;> simp [hk,h]] at this

theorem erase_of_get?_none {t : Table κ ν} {k : κ} (h : t.get? k=none) : t.erase k=t := by
  apply ext_get?
  intro k'
  rw [get?_erase]
  split_ifs with hk
  · rw [hk,h]
  · rfl

/-- The sum of a measure over all stored values. -/
def total (t : Table κ ν) (f : ν → ℕ) : ℕ := (t.values.map f).sum

theorem total_insert (t : Table κ ν) (k : κ) (v : ν) (f : ν → ℕ) :
    (t.insert k v).total f=f v+(t.erase k).total f := by
  simpa [total,values,List.map_map,Function.comp_def] using ((t.insert_perm k v).map (fun e => f e.2)).sum_eq

@[simp] theorem total_empty (f : ν → ℕ) : (empty : Table κ ν).total f=0 := rfl

end Table
end CalcRs
