import Mathlib.Data.List.Basic
import Mathlib.Tactic.Common

/-! One pass over candidates that keeps the best offer so far. Only a better one replaces it, so the first of
the best is chosen. -/
namespace CalcRs.Best

variable {α β : Type} (offer : α → Option β) (value : β → ℕ)

/-- The loop over the candidates that are left, with the best offer so far and its value. -/
def pick : List α → Option β → ℕ → Option β
  | [],best,_ => best
  | x :: xs,best,top =>
    match offer x with
    | some q => if top<value q then pick xs (some q) (value q) else pick xs best top
    | none => pick xs best top

/-- The candidate at `j` makes the best offer, and no candidate before it makes as good a one. -/
structure Wins (top : ℕ) (xs : List α) (j : ℕ) (q : β) : Prop where
  made : ∃ x, xs[j]?=some x ∧ offer x=some q
  above : top<value q
  largest : ∀ (i : ℕ) x q', xs[i]?=some x → offer x=some q' → value q' ≤ value q
  first : ∀ (i : ℕ) x q', i < j → xs[i]?=some x → offer x=some q' → value q'<value q

variable {offer value} {xs : List α} {x : α} {q q' : β} {j j' top top' : ℕ}

theorem Wins.unique (h : Wins offer value top xs j q) (h' : Wins offer value top' xs j' q') : j=j' ∧ q=q' := by
  obtain ⟨x,hx,hq⟩ := h.made
  obtain ⟨x',hx',hq'⟩ := h'.made
  rcases Nat.lt_trichotomy j j' with hlt | rfl | hlt
  · have := h'.first j x q hlt hx hq
    exact absurd (h.largest j' x' q' hx' hq') (by omega)
  · obtain rfl := Option.some.inj (hx.symm.trans hx')
    exact ⟨rfl,Option.some.inj (hq.symm.trans hq')⟩
  · have := h.first j' x' q' hlt hx' hq'
    exact absurd (h'.largest j x q hx hq) (by omega)

/-- A candidate in front that offers less changes the position only. -/
theorem Wins.cons (h : Wins offer value top xs j q) (hx : ∀ q', offer x=some q' → value q'<value q) :
    Wins offer value top (x :: xs) (j+1) q := by
  refine ⟨h.made,h.above,fun i y q' hy hq => ?_,fun i y q' hi hy hq => ?_⟩
  · cases i with
    | zero => exact Nat.le_of_lt (hx q' (Option.some.inj hy ▸ hq))
    | succ i => exact h.largest i y q' hy hq
  · cases i with
    | zero => exact hx q' (Option.some.inj hy ▸ hq)
    | succ i => exact h.first i y q' (by omega) hy hq

/-- What the loop returns: the best offer above the bound, or what it was given if there is none. -/
theorem pick_spec (xs : List α) (best : Option β) (top : ℕ) :
    (∃ j q, Wins offer value top xs j q ∧ pick offer value xs best top=some q) ∨
      (∀ x ∈ xs, ∀ q, offer x=some q → value q ≤ top) ∧ pick offer value xs best top=best := by
  induction xs generalizing best top with
  | nil => exact .inr ⟨by simp,rfl⟩
  | cons x xs ih =>
    rw [pick]
    cases hq : offer x with
    | none =>
      rcases ih best top with ⟨j,q,hw,hp⟩ | ⟨hall,hp⟩
      · exact .inl ⟨j+1,q,hw.cons (by simp [hq]),hp⟩
      · refine .inr ⟨fun y hy q' hq' => ?_,hp⟩
        rcases List.mem_cons.mp hy with rfl | hy
        · simp [hq] at hq'
        · exact hall y hy q' hq'
    | some q =>
      simp only
      split_ifs with htop
      · rcases ih (some q) (value q) with ⟨j,q',hw,hp⟩ | ⟨hall,hp⟩
        · have hless : ∀ q'', offer x=some q'' → value q''<value q' := fun q'' h => by
            rw [← Option.some.inj (hq.symm.trans h)]
            exact hw.above
          have hwins := hw.cons hless
          exact .inl ⟨j+1,q',⟨hwins.made,Nat.lt_trans htop hw.above,hwins.largest,hwins.first⟩,hp⟩
        · refine .inl ⟨0,q,⟨⟨x,rfl,hq⟩,htop,fun i y q' hy hq' => ?_,by simp⟩,hp⟩
          cases i with
          | zero =>
            obtain rfl := Option.some.inj hy
            exact Nat.le_of_eq (congrArg value (Option.some.inj (hq'.symm.trans hq)))
          | succ i => exact hall y (List.mem_of_getElem? hy) q' hq'
      · rcases ih best top with ⟨j,q',hw,hp⟩ | ⟨hall,hp⟩
        · refine .inl ⟨j+1,q',hw.cons fun q'' h => ?_,hp⟩
          have := hw.above
          rw [← Option.some.inj (hq.symm.trans h)]
          omega
        · refine .inr ⟨fun y hy q' hq' => ?_,hp⟩
          rcases List.mem_cons.mp hy with rfl | hy
          · rw [← Option.some.inj (hq.symm.trans hq')]
            omega
          · exact hall y hy q' hq'

theorem pick_eq_some : pick offer value xs none top=some q ↔ ∃ j, Wins offer value top xs j q := by
  constructor
  · intro h
    rcases pick_spec xs none top with ⟨j,q',hw,hp⟩ | ⟨_,hp⟩
    · rw [hp] at h
      exact ⟨j,Option.some.inj h ▸ hw⟩
    · rw [hp] at h
      cases h
  · rintro ⟨j,hw⟩
    rcases pick_spec xs none top with ⟨j',q',hw',hp⟩ | ⟨hall,_⟩
    · rw [hp,(hw'.unique hw).2]
    · obtain ⟨x,hx,hq⟩ := hw.made
      have hbound := hall x (List.mem_of_getElem? hx) q hq
      exact absurd hw.above (by omega)

end CalcRs.Best
