import CalcRs.Foundation.Dispatch
import Mathlib.Algebra.Order.BigOperators.Group.List
import Mathlib.Algebra.Order.Ring.Nat

/-! Runs whose deliveries are paid for. The worth of a pending message covers what its delivery costs and the
worth of what it emits; then no run costs more than what is pending when it begins. -/
namespace CalcRs.Dispatch

variable {W P : Type}

/-- The configurations of a run and what its deliveries cost so far. Those that are undone were paid for, too. -/
inductive Spent (M : Machine W P) (C : Conduct W P) (cost : W → P → W → List P → ℕ → Prop) (c₀ : Config W P) :
    ℕ → Config W P → Prop
  | start : Spent M C cost c₀ 0 c₀
  | call {w w' s : W} {q p : P} {ps out : List P} {fs : List (Frame W P)} {n k : ℕ} :
      Spent M C cost c₀ n ⟨w,⟨s,q,p :: ps⟩ :: fs⟩ → C.calls w p (ps ++ pending fs) → M.delivers w p w' out →
      cost w p w' out k → Spent M C cost c₀ (n+k) ⟨w',⟨w,p,out⟩ :: ⟨s,q,ps⟩ :: fs⟩
  -- a step that delivers nothing opens no frame
  | pass {c c' : Config W P} {n : ℕ} : Spent M C cost c₀ n c → Step M C c c' → c'.frames.length ≤ c.frames.length →
      Spent M C cost c₀ n c'

/-- What every pending message is worth, given the world and all that is pending. -/
structure Affords (M : Machine W P) (C : Conduct W P) (cost : W → P → W → List P → ℕ → Prop)
    (I : W → List P → Prop) (worth : W → List P → P → ℕ) : Prop where
  keeps : Keeps M C I
  pays : ∀ {w w' p ps out k}, I w (p :: ps) → C.calls w p ps → M.delivers w p w' out → cost w p w' out k →
    k+(out.map (worth w' (out ++ ps))).sum ≤ worth w (p :: ps) p
  falls : ∀ {w w' p ps out}, I w (p :: ps) → C.calls w p ps → M.delivers w p w' out →
    ∀ q, worth w' (out ++ ps) q ≤ worth w (p :: ps) q
  replies : ∀ w ps {p ok out}, M.replies p ok out →
    (∀ q, worth w (out ++ ps) q ≤ worth w ps q) ∧ ∀ q ∈ out, worth w (out ++ ps) q=0
  drops : ∀ w p ps q, worth w ps q ≤ worth w (p :: ps) q

/-- What is pending is worth, each message as of the moment when its frame was left. -/
def stake (worth : W → List P → P → ℕ) : W → List P → List (Frame W P) → ℕ
  | _,_,[] => 0
  | w,ps,f :: fs => (f.pending.map (worth w ps)).sum+stake worth f.saved (f.packet :: pending fs) fs

/-- Nothing has gained worth since. -/
def Fallen (worth : W → List P → P → ℕ) : W → List P → List (Frame W P) → Prop
  | _,_,[] => True
  | w,ps,f :: fs => (∀ q, worth w ps q ≤ worth f.saved (f.packet :: pending fs) q) ∧
      Fallen worth f.saved (f.packet :: pending fs) fs

/-- What was spent and what is pending stay within the budget. -/
structure Within (worth : W → List P → P → ℕ) (budget spent : ℕ) (c : Config W P) : Prop where
  sum : spent+stake worth c.world (pending c.frames) c.frames ≤ budget
  fallen : Fallen worth c.world (pending c.frames) c.frames

variable {M : Machine W P} {C : Conduct W P} {cost : W → P → W → List P → ℕ → Prop} {I : W → List P → Prop}
  {worth : W → List P → P → ℕ} {budget n : ℕ}

theorem sum_worth_le {w w' : W} {qs qs' : List P} (h : ∀ q, worth w' qs' q ≤ worth w qs q) (ps : List P) :
    (ps.map (worth w' qs')).sum ≤ (ps.map (worth w qs)).sum := List.sum_le_sum fun q _ => h q

theorem sum_worth_eq_zero {w : W} {qs ps : List P} (h : ∀ q ∈ ps, worth w qs q=0) : (ps.map (worth w qs)).sum=0 := by
  apply List.sum_eq_zero
  intro k hk
  obtain ⟨q,hq,rfl⟩ := List.mem_map.mp hk
  exact h q hq

/-- A failure that is caught further out gives up what was pending further in. -/
theorem stake_append {w s s' : W} {qs ps ps' : List P} {p q : P} (gs fs : List (Frame W P)) :
    stake worth s (p :: (ps' ++ pending fs)) (⟨s',q,ps'⟩ :: fs) ≤
      stake worth w qs (gs ++ ⟨s,p,ps⟩ :: ⟨s',q,ps'⟩ :: fs) := by
  induction gs generalizing w qs with
  | nil => exact Nat.le_add_left _ _
  | cons g gs ih => exact ih.trans (Nat.le_add_left _ _)

theorem Fallen.of_append {w s : W} {qs ps : List P} {p : P} {gs fs : List (Frame W P)}
    (h : Fallen worth w qs (gs ++ ⟨s,p,ps⟩ :: fs)) : Fallen worth s (p :: pending fs) fs := by
  induction gs generalizing w qs with
  | nil => exact h.2
  | cons g gs ih => exact ih h.2

/-- A message that fails is given up, and the reply is worth nothing. -/
theorem Within.refuse (h : Affords M C cost I worth) {w s : W} {p q : P} {ps out : List P} {fs : List (Frame W P)}
    (hsum : n+stake worth w (p :: (ps ++ pending fs)) (⟨s,q,ps⟩ :: fs) ≤ budget)
    (hfall : Fallen worth w (p :: (ps ++ pending fs)) (⟨s,q,ps⟩ :: fs)) (hr : M.replies p false out) :
    Within worth budget n ⟨w,⟨s,q,out ++ ps⟩ :: fs⟩ := by
  have hless : ∀ q, worth w (out ++ (ps ++ pending fs)) q ≤ worth w (p :: (ps ++ pending fs)) q := fun q =>
    ((h.replies w _ hr).1 q).trans (h.drops w p _ q)
  have hout := sum_worth_eq_zero (h.replies w (ps ++ pending fs) hr).2
  have hps := sum_worth_le hless ps
  refine ⟨?_,?_,hfall.2⟩
  · simp only [pending,stake,List.append_assoc,List.map_append,List.sum_append] at hsum ⊢
    omega
  · intro q
    simp only [pending,List.append_assoc]
    exact (hless q).trans (hfall.1 q)

theorem Within.pass (h : Affords M C cost I worth) {c c' : Config W P} (hw : Within worth budget n c)
    (hs : Step M C c c') (hlen : c'.frames.length ≤ c.frames.length) : Within worth budget n c' := by
  cases hs with
  | call _ _ =>
    simp only [List.length_cons] at hlen
    omega
  | @finish w s s' p q ps out fs hr =>
    obtain ⟨hsum,hfall⟩ := hw
    obtain ⟨hless,hzero⟩ := h.replies w (ps ++ pending fs) hr
    have hout := sum_worth_eq_zero hzero
    have hps := sum_worth_le (fun q => (hless q).trans (hfall.1 q)) ps
    refine ⟨?_,fun q => ?_,hfall.2.2⟩
    · simp only [pending,stake,List.nil_append,List.map_nil,List.sum_nil,List.append_assoc,List.map_append,
        List.sum_append] at hsum hps ⊢
      omega
    · simp only [pending,List.append_assoc]
      exact ((hless q).trans (hfall.1 q)).trans (hfall.2.1 q)
  | @refuse w s p q ps out fs _ _ hr =>
    refine Within.refuse h (le_trans ?_ hw.sum) hw.fallen hr
    simp only [pending,stake,List.cons_append,List.map_cons,List.sum_cons]
    omega
  | @abort w s s' p q ps ps' out gs fs _ _ hr =>
    refine Within.refuse h (le_trans ?_ hw.sum) hw.fallen.of_append hr
    have hdrop : stake worth s (p :: (ps' ++ pending fs)) (⟨s',q,ps'⟩ :: fs) ≤
        stake worth w (pending (gs ++ ⟨s,p,ps⟩ :: ⟨s',q,ps'⟩ :: fs)) (gs ++ ⟨s,p,ps⟩ :: ⟨s',q,ps'⟩ :: fs) :=
      stake_append gs fs
    exact Nat.add_le_add_left hdrop n

theorem Within.call (h : Affords M C cost I worth) {w w' s : W} {q p : P} {ps out : List P} {fs : List (Frame W P)}
    {k : ℕ} (hi : I w (p :: (ps ++ pending fs))) (hw : Within worth budget n ⟨w,⟨s,q,p :: ps⟩ :: fs⟩)
    (hc : C.calls w p (ps ++ pending fs)) (hd : M.delivers w p w' out) (hk : cost w p w' out k) :
    Within worth budget (n+k) ⟨w',⟨w,p,out⟩ :: ⟨s,q,ps⟩ :: fs⟩ := by
  have hpays := h.pays hi hc hd hk
  refine ⟨?_,h.falls hi hc hd,hw.fallen⟩
  have hsum := hw.sum
  simp only [pending,stake,List.cons_append,List.map_cons,List.sum_cons] at hsum ⊢
  omega

/-- Where every delivery has a cost, so has every run. -/
theorem Spent.of_steps {cost : W → P → W → List P → ℕ → Prop}
    (htotal : ∀ {w p w' out}, M.delivers w p w' out → ∃ k, cost w p w' out k) {c₀ c : Config W P}
    (h : Steps M C c₀ c) : ∃ n, Spent M C cost c₀ n c := by
  induction h with
  | refl => exact ⟨0,.start⟩
  | tail _ hstep ih =>
    obtain ⟨n,hn⟩ := ih
    cases hstep with
    | call hc hd =>
      obtain ⟨k,hk⟩ := htotal hd
      exact ⟨n+k,.call hn hc hd hk⟩
    | finish hr => exact ⟨n,.pass hn (.finish hr) (Nat.le_succ _)⟩
    | refuse hcatch hf hr => exact ⟨n,.pass hn (.refuse hcatch hf hr) le_rfl⟩
    | abort hcatch hf hr =>
      refine ⟨n,.pass hn (.abort hcatch hf hr) ?_⟩
      simp only [List.length_append,List.length_cons]
      omega

/-- A run never costs more than what was pending when it began. -/
theorem Spent.within (h : Affords M C cost I worth) {c₀ c : Config W P} (h₀ : Holds I c₀)
    (hf : Fallen worth c₀.world (pending c₀.frames) c₀.frames) (hs : Spent M C cost c₀ n c) :
    Holds I c ∧ Within worth (stake worth c₀.world (pending c₀.frames) c₀.frames) n c := by
  induction hs with
  | start => exact ⟨h₀,(Nat.zero_add _).le,hf⟩
  | call _ hc hd hk ih => exact ⟨ih.1.step h.keeps (.call hc hd),ih.2.call h ih.1.now hc hd hk⟩
  | pass _ hstep hlen ih => exact ⟨ih.1.step h.keeps hstep,ih.2.pass h hstep hlen⟩

end CalcRs.Dispatch
