import Mathlib.Data.List.Induction
import Mathlib.Data.Nat.Notation

/-! A value that follows an input, but only when the input has left it behind: how close it stays, where it comes from,
and how much its moves cost. -/
namespace CalcRs.Hysteresis

variable {α : Type*} {leaves : α → α → Bool}

/-- The value held after one more input. -/
def follow (leaves : α → α → Bool) (held input : α) : α := if leaves held input then input else held

def final (leaves : α → α → Bool) (held : α) (inputs : List α) : α := inputs.foldl (follow leaves) held

@[simp] theorem final_append (held input : α) (inputs : List α) :
    final leaves held (inputs ++ [input])=follow leaves (final leaves held inputs) input := by
  rw [final,List.foldl_append]
  rfl

/-- The input does not leave behind the value that it led to. -/
theorem follow_near (hself : ∀ x, leaves x x=false) (held input : α) : leaves (follow leaves held input) input=false := by
  unfold follow
  split_ifs with h
  · exact hself input
  · exact Bool.eq_false_iff.mpr h

/-- Where the first input is what is held at first. -/
theorem final_near (hself : ∀ x, leaves x x=false) {input first : α} {inputs rest : List α}
    (hsplit : inputs ++ [input]=first :: rest) : leaves (final leaves first rest) input=false := by
  cases inputs with
  | nil =>
    obtain ⟨rfl,rfl⟩ := List.cons.inj hsplit
    exact hself input
  | cons _ inputs =>
    obtain ⟨rfl,hrest⟩ := List.cons.inj hsplit
    rw [← hrest,List.append_eq,final_append]
    exact follow_near hself _ _

/-- The value held is one of the inputs, and none since then has left it behind. -/
theorem final_anchored (held : α) (inputs : List α) : ∃ older since,
    held :: inputs=older ++ final leaves held inputs :: since ∧ ∀ x ∈ since, leaves (final leaves held inputs) x=false := by
  induction inputs using List.reverseRecOn with
  | nil => exact ⟨[],[],rfl,by simp⟩
  | append_singleton inputs input ih =>
    obtain ⟨older,since,hsplit,hnear⟩ := ih
    by_cases h : leaves (final leaves held inputs) input=true
    · have hmoved : follow leaves (final leaves held inputs) input=input := if_pos h
      rw [final_append,hmoved]
      exact ⟨held :: inputs,[],rfl,by simp⟩
    · have hkept : follow leaves (final leaves held inputs) input=final leaves held inputs := if_neg h
      rw [final_append,hkept]
      refine ⟨older,since ++ [input],?_,fun x hx => ?_⟩
      · rw [← List.cons_append,hsplit,List.append_assoc,List.cons_append]
      · rcases List.mem_append.mp hx with hx | hx
        · exact hnear x hx
        · exact List.mem_singleton.mp hx ▸ Bool.eq_false_iff.mpr h

/-- Each move costs what was allowed at the value that was given up, and one. -/
def spent (leaves : α → α → Bool) (slack : α → ℕ) : α → List α → ℕ
  | _,[] => 0
  | held,input :: inputs =>
    (if leaves held input then slack held+1 else 0)+spent leaves slack (follow leaves held input) inputs

/-- How far the inputs go altogether. -/
def variation (distance : α → α → ℕ) : α → List α → ℕ
  | _,[] => 0
  | x,x' :: xs => distance x x'+variation distance x' xs

/-- The moves cost no more than the inputs vary: what has been held is given up only when the input is far from it. -/
theorem spent_le {distance : α → α → ℕ} {slack : α → ℕ} (hfar : ∀ y x, leaves y x=true → slack y<distance y x)
    (hself : ∀ x, distance x x=0) (htriangle : ∀ x y z, distance x z ≤ distance x y+distance y z) (held x : α)
    (xs : List α) : spent leaves slack held xs ≤ distance held x+variation distance x xs := by
  induction xs generalizing held x with
  | nil => exact Nat.zero_le _
  | cons x' xs ih =>
    have hto := htriangle held x x'
    rw [spent,variation,follow]
    split_ifs with h
    · have hnext := ih x' x'
      have hmove := hfar held x' h
      rw [hself x'] at hnext
      omega
    · have hnext := ih held x'
      omega

end CalcRs.Hysteresis
