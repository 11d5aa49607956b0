import Mathlib.Algebra.BigOperators.Group.List.Basic
import Mathlib.Algebra.BigOperators.Intervals
import Mathlib.Algebra.Order.BigOperators.Group.List
import Mathlib.Data.List.Pairwise
import Mathlib.Data.List.Forall2

/-! Lists: sums over parts of them, and entries that are found by a key. -/
namespace CalcRs

/-- Entries with distinct keys: one of them has its key. -/
theorem filter_key_eq {α κ : Type} [DecidableEq κ] {key : α → κ} {xs : List α} (h : (xs.map key).Nodup) {x : α}
    (hx : x ∈ xs) : xs.filter (fun y => key y=key x)=[x] := by
  induction xs with
  | nil => simp at hx
  | cons y ys ih =>
    obtain ⟨hy,hn⟩ := List.nodup_cons.mp h
    rcases List.mem_cons.mp hx with rfl | hx
    · have hnone : ys.filter (fun y => key y=key x)=[] := by
        rw [List.filter_eq_nil_iff]
        intro z hz he
        exact hy (of_decide_eq_true he ▸ List.mem_map_of_mem hz)
      rw [List.filter_cons_of_pos (by simp),hnone]
    · have hne : key y≠key x := fun he => hy (he ▸ List.mem_map_of_mem hx)
      rw [List.filter_cons_of_neg (by simpa using hne),ih hn hx]

theorem forall₂_mem_right {α β : Type*} {R : α → β → Prop} {xs : List α} {ys : List β} (h : List.Forall₂ R xs ys)
    {y : β} (hy : y ∈ ys) : ∃ x ∈ xs, R x y := by
  induction h with
  | nil => cases hy
  | @cons a b xs ys hab _ ih =>
    rcases List.mem_cons.mp hy with rfl | hy
    · exact ⟨a,List.mem_cons_self,hab⟩
    · obtain ⟨x,hx,hr⟩ := ih hy
      exact ⟨x,List.mem_cons_of_mem _ hx,hr⟩

/-- Two parts that end where an entry of another kind begins. -/
theorem append_cons_inj_of_all {α : Type*} {p : α → Bool} {xs ys as bs : List α} {a b : α} (hx : ∀ x ∈ xs, p x)
    (hy : ∀ y ∈ ys, p y) (ha : ¬p a) (hb : ¬p b) : xs ++ a :: as=ys ++ b :: bs ↔ xs=ys ∧ a :: as=b :: bs := by
  constructor
  · intro h
    have hparts := congrArg (List.takeWhile p) h
    rw [List.takeWhile_append_of_pos hx,List.takeWhile_append_of_pos hy,List.takeWhile_cons_of_neg ha,
      List.takeWhile_cons_of_neg hb,List.append_nil,List.append_nil] at hparts
    subst hparts
    exact ⟨rfl,List.append_cancel_left h⟩
  · rintro ⟨rfl,h⟩
    rw [h]

/-! ### Sums -/

theorem sum_div_le (xs : List ℕ) (n : ℕ) : (xs.map (· /n)).sum≤xs.sum/n := by
  induction xs with
  | nil => simp
  | cons x xs ih =>
    rw [List.map_cons,List.sum_cons,List.sum_cons]
    exact (Nat.add_le_add_left ih _).trans Nat.div_add_div_le_add_div

theorem sum_map_ite_eq {α : Type} (xs : List α) (p : α → Prop) [DecidablePred p] (f : α → ℕ) :
    (xs.map fun x => if p x then f x else 0).sum=((xs.filter fun x => p x).map f).sum := by
  rw [List.sum_map_ite,List.sum_map_zero,Nat.add_zero]

theorem sum_map_eq_sum_range {α : Type*} (xs : List α) (f : α → ℕ) :
    (xs.map f).sum=∑ u ∈ Finset.range xs.length,((xs[u]?.map f).getD 0) := by
  induction xs with
  | nil => simp
  | cons x xs ih =>
    rw [List.map_cons,List.sum_cons,List.length_cons,Finset.sum_range_succ',ih]
    simp [Nat.add_comm]

theorem min_sum_le (b : ℕ) (ns : List ℕ) : min b ns.sum ≤ (ns.map (min b)).sum := by
  induction ns with
  | nil => simp
  | cons n ns ih =>
    rw [List.map_cons,List.sum_cons,List.sum_cons]
    omega

theorem sum_min_of_le {b : ℕ} {ns : List ℕ} (h : ns.sum ≤ b) : (ns.map (min b)).sum=ns.sum := by
  induction ns with
  | nil => rfl
  | cons n ns ih =>
    rw [List.sum_cons] at h
    rw [List.map_cons,List.sum_cons,List.sum_cons,ih (by omega),Nat.min_eq_right (by omega)]

/-- Zeros add nothing. -/
theorem sum_map_filter_pos {f : ℕ → ℕ} (hf : f 0=0) (ns : List ℕ) :
    ((ns.filter fun n => 0 < n).map f).sum=(ns.map f).sum := by
  induction ns with
  | nil => rfl
  | cons n ns ih =>
    by_cases hn : 0<n
    · rw [List.filter_cons_of_pos (by simpa using hn),List.map_cons,List.map_cons,List.sum_cons,List.sum_cons,ih]
    · obtain rfl : n=0 := by omega
      rw [List.filter_cons_of_neg (by simp),List.map_cons,List.sum_cons,ih,hf,Nat.zero_add]

/-- Clamping each number loses nothing exactly when no two positive ones together pass the bound. -/
theorem sum_min_eq_iff (b : ℕ) (ns : List ℕ) : (ns.map (min b)).sum=min b ns.sum ↔
    b=0 ∨ ns.sum ≤ b ∨ (ns.filter fun n => 0 < n).length ≤ 1 := by
  have hsum : ns.sum=(ns.filter fun n => 0 < n).sum := by
    simpa using (@sum_map_filter_pos id rfl ns).symm
  have hmem : ∀ n ∈ ns.filter fun n => 0 < n, 0<n := fun n hn => by simpa using (List.mem_filter.mp hn).2
  rw [← @sum_map_filter_pos (min b) (Nat.min_zero b) ns,hsum]
  generalize ns.filter (fun n => 0 < n)=ms at hmem
  rcases ms with _ | ⟨x,_ | ⟨y,rest⟩⟩
  · simp
  · simp
  · have hx := hmem x (by simp)
    have hy := hmem y (by simp)
    have hrest := min_sum_le b rest
    constructor
    · intro he
      by_contra hne
      simp only [List.map_cons,List.sum_cons,List.length_cons] at he hne
      omega
    · rintro (rfl | hle | hlen)
      · have hzero : (min 0 : ℕ → ℕ)=fun _ => 0 := funext Nat.zero_min
        simp [hzero]
      · rw [sum_min_of_le hle,Nat.min_eq_right hle]
      · simp at hlen

/-- Totals are in no larger proportion than the parts in which the proportion is largest. -/
theorem exists_sum_map_le_mul {α : Type*} {f g w : α → ℕ} {xs : List α} (h0 : xs≠[]) (h : ∀ x ∈ xs, f x ≤ w x*g x) :
    ∃ x ∈ xs, (xs.map f).sum ≤ w x*(xs.map g).sum := by
  induction xs with
  | nil => exact absurd rfl h0
  | cons x xs ih =>
    have hx := h x List.mem_cons_self
    simp only [List.map_cons,List.sum_cons,Nat.mul_add]
    by_cases hnil : xs=[]
    · exact ⟨x,List.mem_cons_self,by simpa [hnil] using hx⟩
    obtain ⟨y,hy,hsum⟩ := ih hnil fun z hz => h z (List.mem_cons_of_mem _ hz)
    rcases Nat.le_total (w x) (w y) with hle | hle
    · exact ⟨y,List.mem_cons_of_mem _ hy,Nat.add_le_add (hx.trans (Nat.mul_le_mul_right _ hle)) hsum⟩
    · exact ⟨x,List.mem_cons_self,Nat.add_le_add hx (hsum.trans (Nat.mul_le_mul_right _ hle))⟩

theorem sum_map_take_succ {α : Type*} {xs : List α} {n : ℕ} (h : n<xs.length) (f : α → ℕ) :
    ((xs.take (n+1)).map f).sum=((xs.take n).map f).sum+f xs[n] := by
  rw [List.take_succ_eq_append_getElem h,List.map_append,List.sum_append,List.map_singleton,List.sum_singleton]

/-! ### Representatives -/

section

variable {ι α : Type} {R : α → α → Prop} [DecidableRel R]

/-- All elements add up to what the representatives do if and only if those left out count for nothing. -/
theorem sums_pwFilter_iff (hR : ∀ x y z, R x z → R x y ∨ R y z) (f : ι → α → ℕ) (xs : List α) :
    (∀ i, (xs.map (f i)).sum=((xs.pwFilter R).map (f i)).sum) ↔
      xs.Pairwise fun a b => ¬R a b → ∀ i, f i a=0 := by
  induction xs with
  | nil => simp
  | cons x xs ih =>
    rw [List.pairwise_cons,← ih]
    have hle : ∀ i, ((xs.pwFilter R).map (f i)).sum ≤ (xs.map (f i)).sum := fun i =>
      List.Sublist.sum_le_sum ((List.pwFilter_sublist xs).map _) fun _ _ => Nat.zero_le _
    have hmem := List.forall_mem_pwFilter (R := R) (fun {x y z} => hR x y z) x xs
    by_cases hx : ∀ b ∈ xs.pwFilter R, R x b
    · rw [List.pwFilter_cons_of_pos hx]
      simp only [List.map_cons,List.sum_cons,Nat.add_left_cancel_iff]
      constructor
      · exact fun h => ⟨fun b hb hnot => absurd (hmem.mp hx b hb) hnot,h⟩
      · exact fun h => h.2
    · rw [List.pwFilter_cons_of_neg hx]
      simp only [List.map_cons,List.sum_cons]
      constructor
      · intro h
        have hzero : ∀ i, f i x=0 ∧ (xs.map (f i)).sum=((xs.pwFilter R).map (f i)).sum := fun i => by
          have := h i
          have := hle i
          omega
        exact ⟨fun _ _ _ i => (hzero i).1,fun i => (hzero i).2⟩
      · rintro ⟨hzero,h⟩ i
        have hdrop : ∃ b ∈ xs, ¬R x b := by
          by_contra hall
          exact hx (hmem.mpr fun b hb => by_contra fun hnot => hall ⟨b,hb,hnot⟩)
        obtain ⟨b,hb,hnot⟩ := hdrop
        rw [hzero b hb hnot i,Nat.zero_add,h i]

end

end CalcRs
