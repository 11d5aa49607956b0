import Mathlib.Data.String.Basic
import Mathlib.Data.Nat.Basic
import Mathlib.Tactic.Common

/-! Numbers padded with zeros to a fixed width. As strings they are ordered as the numbers are. -/
namespace CalcRs.Digits

/-- Strings of the same length decide before what follows them. -/
theorem append_lt_append_iff {α : Type*} [LinearOrder α] {as bs xs ys : List α} (h : as.length=bs.length) :
    as ++ xs<bs ++ ys ↔ as<bs ∨ as=bs ∧ xs<ys := by
  induction as generalizing bs with
  | nil =>
    obtain rfl := List.length_eq_zero_iff.mp h.symm
    simp
  | cons a as ih =>
    cases bs with
    | nil => cases h
    | cons b bs =>
      rw [List.cons_append,List.cons_append,List.cons_lt_cons_iff,List.cons_lt_cons_iff,ih (Nat.succ.inj h),
        List.cons_eq_cons]
      tauto

/-- The last `w` digits of a number. -/
def fixed : ℕ → ℕ → List Char
  | 0,_ => []
  | w+1,n => fixed w (n/10) ++ [Nat.digitChar (n%10)]

@[simp] theorem length_fixed (w n : ℕ) : (fixed w n).length=w := by
  induction w generalizing n with
  | zero => rfl
  | succ w ih => rw [fixed,List.length_append,ih,List.length_singleton]

theorem fixed_zero (w : ℕ) : fixed w 0=List.replicate w '0' := by
  induction w with
  | zero => rfl
  | succ w ih =>
    rw [fixed,Nat.zero_div,ih,List.replicate_succ']
    rfl

theorem digitChar_lt_iff {a b : ℕ} (ha : a<10) (hb : b<10) : Nat.digitChar a<Nat.digitChar b ↔ a<b := by
  have h : ∀ a b : Fin 10, Nat.digitChar a<Nat.digitChar b ↔ a<b := by decide
  exact h ⟨a,ha⟩ ⟨b,hb⟩

theorem fixed_inj {w a b : ℕ} (ha : a<10^w) (hb : b<10^w) (h : fixed w a=fixed w b) : a=b := by
  induction w generalizing a b with
  | zero => omega
  | succ w ih =>
    obtain ⟨hfront,hlast⟩ := List.append_inj' h rfl
    have hquot : a/10=b/10 := ih (by omega) (by omega) hfront
    have hdigit : a%10=b%10 := by
      have ha := @digitChar_lt_iff (a%10) (b%10) (Nat.mod_lt _ (by omega)) (Nat.mod_lt _ (by omega))
      have hb := @digitChar_lt_iff (b%10) (a%10) (Nat.mod_lt _ (by omega)) (Nat.mod_lt _ (by omega))
      rw [List.singleton_inj.mp hlast] at ha hb
      simp only [lt_irrefl,false_iff] at ha hb
      omega
    omega

theorem fixed_lt_iff {w a b : ℕ} (ha : a<10^w) (hb : b<10^w) : fixed w a<fixed w b ↔ a<b := by
  induction w generalizing a b with
  | zero =>
    rw [pow_zero,Nat.lt_one_iff] at ha hb
    simp [ha,hb]
  | succ w ih =>
    have ha' : a/10<10^w := by omega
    have hb' : b/10<10^w := by omega
    have hfront : fixed w (a/10)=fixed w (b/10) ↔ a/10=b/10 := ⟨fixed_inj ha' hb',fun h => h ▸ rfl⟩
    rw [fixed,fixed,append_lt_append_iff (by simp),ih ha' hb',hfront,List.cons_lt_cons_iff,
      digitChar_lt_iff (Nat.mod_lt _ (by omega)) (Nat.mod_lt _ (by omega))]
    simp only [lt_irrefl,and_false,or_false]
    omega

/-- A number that fits the width, padded to it. -/
theorem padded_eq {w n : ℕ} (hn : n<10^(w+1)) :
    List.replicate (w+1-(Nat.toDigits 10 n).length) '0' ++ Nat.toDigits 10 n=fixed (w+1) n := by
  induction w generalizing n with
  | zero =>
    rw [Nat.toDigits_of_lt_base (by omega),fixed,Nat.mod_eq_of_lt (by omega)]
    rfl
  | succ w ih =>
    rcases Nat.lt_or_ge n 10 with hsmall | hlarge
    · rw [Nat.toDigits_of_lt_base hsmall,fixed,Nat.div_eq_of_lt hsmall,fixed_zero,Nat.mod_eq_of_lt hsmall]
      rfl
    · rw [Nat.toDigits_of_base_le (by decide) hlarge,List.length_append,List.length_singleton,Nat.add_sub_add_right,
        ← List.append_assoc,ih (by omega)]
      rfl

end CalcRs.Digits
