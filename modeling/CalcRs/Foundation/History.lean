import CalcRs.Foundation.Dispatch
import Mathlib.Algebra.BigOperators.Group.List.Basic
import Mathlib.Algebra.Ring.Nat
import Mathlib.Data.List.Perm.Basic

/-! The deliveries of a run that took effect, in their order. A message whose failure nobody catches is
delivered exactly once after it was sent, or is still pending. -/
namespace CalcRs.Dispatch

variable {W P β : Type}

/-- The deliveries so far, each with what it emitted. -/
abbrev History (P : Type) := List (P × List P)

namespace History

/-- One more delivery. -/
def enter (history : History P) (_ : W) (p : P) (_ : W) (out : List P) : History P := history ++ [(p,out)]

def delivered (history : History P) : List P := history.map Prod.fst

def sent (history : History P) : List P := history.flatMap Prod.snd

@[simp] theorem delivered_append (history : History P) (p : P) (out : List P) :
    delivered (history ++ [(p,out)])=history.delivered ++ [p] := by simp [delivered]

@[simp] theorem sent_append (history : History P) (p : P) (out : List P) :
    sent (history ++ [(p,out)])=history.sent ++ out := by simp [sent]

/-- What is read off everything that was sent is read off the deliveries one by one. -/
theorem sent_filterMap {history : History P} {f : P → Option β} {g : P × List P → List β}
    (h : ∀ e ∈ history, e.2.filterMap f=g e) : history.sent.filterMap f=history.flatMap g := by
  induction history with
  | nil => rfl
  | cons e history ih =>
    rw [sent,List.flatMap_cons,List.filterMap_append,List.flatMap_cons,h e List.mem_cons_self]
    exact congrArg _ (ih fun e' he => h e' (List.mem_cons_of_mem _ he))

/-- Entries of which each is read in one of two ways. -/
theorem filterMap_split {γ : Type} {f g h : γ → Option β} {xs : List γ}
    (hs : ∀ x, (f x).toList.Perm ((g x).toList ++ (h x).toList)) :
    (xs.filterMap f).Perm (xs.filterMap g ++ xs.filterMap h) := by
  rw [List.filterMap_eq_flatMap_toList,List.filterMap_eq_flatMap_toList g,List.filterMap_eq_flatMap_toList h]
  exact (List.Perm.flatMap_left _ fun x _ => hs x).trans (List.flatMap_append_perm xs _ _).symm

end History

/-- The parties, with the history of their deliveries. -/
abbrev Machine.logging (M : Machine W P) : Machine (W × History P) P := M.recording History.enter

variable {M : Machine W P} {C : Conduct W P} {J : W → List P → Prop} {f : P → Option β} {w₀ : W}
  {c : Config (W × History P) P}

/-- The messages that are read begin no transaction, come with no reply, and nobody catches their failure. -/
structure Firm (M : Machine W P) (f : P → Option β) : Prop where
  begins : ∀ {w p}, M.begins w p → f p=none
  replies : ∀ {p ok out}, M.replies p ok out → out.filterMap f=[]
  catches : ∀ {p}, M.catches p → f p=none

theorem Firm.bind {γ : Type} (hf : Firm M f) (g : β → Option γ) : Firm M fun p => (f p).bind g where
  begins h := by rw [hf.begins h,Option.bind_none]
  replies h := by
    rw [← List.filterMap_filterMap,hf.replies h]
    rfl
  catches h := by rw [hf.catches h,Option.bind_none]

/-- What was sent was delivered or is pending. -/
def Conserved (f : P → Option β) (w : W × History P) (ps : List P) : Prop :=
  (w.2.sent.filterMap f).Perm (w.2.delivered.filterMap f ++ ps.filterMap f)

theorem Firm.keeps (hf : Firm M f) : Keeps M.logging C.recording (Conserved f) where
  call := by
    rintro ⟨w,history⟩ ⟨w',history'⟩ p ps out h _ ⟨_,hrecord⟩
    obtain rfl : history'=history ++ [(p,out)] := hrecord
    have hcons : (p :: ps).filterMap f=[p].filterMap f ++ ps.filterMap f := List.filterMap_append (l := [p])
    simp only [Conserved,History.sent_append,History.delivered_append,List.filterMap_append] at h ⊢
    rw [hcons] at h
    refine (h.append_right _).trans ?_
    rw [List.append_assoc,List.append_assoc,List.append_assoc]
    exact (List.perm_append_comm.append_left _).append_left _
  reply := by
    intro w p ok ps out h hr
    rw [Conserved,List.filterMap_append,hf.replies hr,List.nil_append]
    exact h
  drop := by
    intro w p ps h hc _
    rw [Conserved,List.filterMap_cons,hf.catches hc] at h
    exact h

/-- Whatever was sent so far was delivered once, or is pending. -/
theorem Reachable.conserved (hf : Firm M f) (h : Reachable M.logging C.recording (w₀,[]) c) :
    (c.world.2.sent.filterMap f).Perm (c.world.2.delivered.filterMap f ++ (pending c.frames).filterMap f) := by
  have hbegin : ∀ {w p}, Conserved f w [] → M.logging.begins w p → Conserved f w [p] := fun {w p} hw hb => by
    rw [Conserved,List.filterMap_cons,hf.begins hb]
    exact hw
  have hstart : Conserved f (w₀,([] : History P)) [] := List.Perm.nil
  exact (h.holds hf.keeps hbegin hstart).1.now

/-- Between transactions nothing is pending. -/
theorem Reachable.settled (hf : Firm M f) {w : W} {history : History P}
    (h : Reachable M.logging C.recording (w₀,[]) ⟨(w,history),[]⟩) :
    (history.sent.filterMap f).Perm (history.delivered.filterMap f) := by
  have := h.conserved hf
  rwa [pending,List.filterMap_nil,List.append_nil] at this

/-- A law about the world holds in runs with a history, and held at each delivery of the history. -/
theorem Keeps.logged (hk : Keeps M C J) : Keeps M.logging C.recording fun w ps =>
    J w.1 ps ∧ ∀ e ∈ w.2, ∃ w w' rest, J w (e.1 :: rest) ∧ M.delivers w e.1 w' e.2 where
  call := by
    rintro ⟨w,history⟩ ⟨w',history'⟩ p ps out ⟨hj,hall⟩ hc ⟨hd,hrecord⟩
    obtain rfl : history'=history ++ [(p,out)] := hrecord
    refine ⟨hk.call hj hc hd,fun e he => ?_⟩
    rcases List.mem_append.mp he with he | he
    · exact hall e he
    · obtain rfl := List.mem_singleton.mp he
      exact ⟨w,w',ps,hj,hd⟩
  reply h hr := ⟨hk.reply h.1 hr,h.2⟩
  drop h hc hf := ⟨hk.drop h.1 hc hf,h.2⟩

theorem Reachable.logged (hk : Keeps M C J) (hbegin : ∀ {w p}, J w [] → M.begins w p → J w [p]) (h₀ : J w₀ [])
    (h : Reachable M.logging C.recording (w₀,[]) c) : J c.world.1 (pending c.frames) ∧
      ∀ e ∈ c.world.2, ∃ w w' rest, J w (e.1 :: rest) ∧ M.delivers w e.1 w' e.2 :=
  (h.holds hk.logged (fun hw hb => ⟨hbegin hw.1 hb,hw.2⟩) ⟨h₀,by simp⟩).1.now

/-- What the history tells are deliveries. -/
theorem Reachable.deliveries (h : Reachable M.logging C.recording (w₀,[]) c) :
    ∀ e ∈ c.world.2, ∃ w w', M.delivers w e.1 w' e.2 := fun e he => by
  have htrivial : Keeps M C fun _ _ => True := ⟨fun _ _ _ => trivial,fun _ _ => trivial,fun _ _ _ => trivial⟩
  obtain ⟨w,w',_,_,hd⟩ := (h.logged htrivial (fun _ _ => trivial) trivial).2 e he
  exact ⟨w,w',hd⟩

/-! ### Replaying a history -/

/-- Each entry is permitted after the entries before it. -/
def History.Every (permits : History P → P × List P → Prop) (history : History P) : Prop :=
  ∀ before e later, history=before ++ e :: later → permits before e

theorem History.every_append {permits : History P → P × List P → Prop} {history : History P} {e : P × List P}
    (h : history.Every permits) (he : permits history e) : History.Every permits (history ++ [e]) := by
  intro before e' later hsplit
  rcases List.eq_nil_or_concat later with rfl | ⟨later,x,rfl⟩
  · obtain ⟨rfl,hlast⟩ := List.append_inj' hsplit rfl
    exact (List.cons.inj hlast).1 ▸ he
  · rw [List.concat_eq_append,← List.cons_append,← List.append_assoc] at hsplit
    exact h before e' later (List.append_inj' hsplit rfl).1

variable {S : Type} {view : W → S} {next : S → P × List P → S} {permits : S → P × List P → Prop}

/-- What every delivery advances is the replay of the history, and every delivery was permitted where the replay was then. -/
theorem Reachable.replays (hk : Keeps M C J) (hbegin : ∀ {w p}, J w [] → M.begins w p → J w [p]) (h₀ : J w₀ [])
    (hnext : ∀ {w p ps w' out}, J w (p :: ps) → M.delivers w p w' out →
      view w'=next (view w) (p,out) ∧ permits (view w) (p,out))
    (h : Reachable M.logging C.recording (w₀,[]) c) : view c.world.1=c.world.2.foldl next (view w₀) ∧
      c.world.2.Every fun before e => permits (before.foldl next (view w₀)) e := by
  have hkeeps : Keeps M.logging C.recording fun w ps => J w.1 ps ∧ view w.1=w.2.foldl next (view w₀) ∧
      w.2.Every fun before e => permits (before.foldl next (view w₀)) e :=
    { call := by
        rintro ⟨w,history⟩ ⟨w',history'⟩ p ps out ⟨hj,hview,hevery⟩ hc ⟨hd,hrecord⟩
        obtain rfl : history'=history ++ [(p,out)] := hrecord
        obtain ⟨hstep,hpermits⟩ := hnext hj hd
        have hview : view w=history.foldl next (view w₀) := hview
        rw [hview] at hstep hpermits
        refine ⟨hk.call hj hc hd,?_,History.every_append hevery hpermits⟩
        rw [List.foldl_append]
        exact hstep
      reply := fun h hr => ⟨hk.reply h.1 hr,h.2⟩
      drop := fun h hc hf => ⟨hk.drop h.1 hc hf,h.2⟩ }
  exact (h.holds hkeeps (fun hw hb => ⟨hbegin hw.1 hb,hw.2⟩) ⟨h₀,rfl,fun _ _ _ he => by simp at he⟩).1.now.2

/-! ### Sums over a history -/

/-- An amount that every delivery raises and lowers by what can be read off it is its first value and the sum of what was
won, less the sum of what was lost. -/
theorem Reachable.tallied (gain : W → ℕ) (won lost : P × List P → ℕ) (hk : Keeps M C J)
    (hbegin : ∀ {w p}, J w [] → M.begins w p → J w [p]) (h₀ : J w₀ [])
    (hgain : ∀ {w p ps w' out}, J w (p :: ps) → M.delivers w p w' out → gain w'+lost (p,out)=gain w+won (p,out))
    (h : Reachable M.logging C.recording (w₀,[]) c) :
    gain c.world.1+(c.world.2.map lost).sum=gain w₀+(c.world.2.map won).sum := by
  have hkeeps : Keeps M.logging C.recording fun w ps =>
      J w.1 ps ∧ gain w.1+(w.2.map lost).sum=gain w₀+(w.2.map won).sum :=
    { call := by
        rintro ⟨w,history⟩ ⟨w',history'⟩ p ps out ⟨hj,htally⟩ hc ⟨hd,hrecord⟩
        obtain rfl : history'=history ++ [(p,out)] := hrecord
        have hstep : gain w'+lost (p,out)=gain w+won (p,out) := hgain hj hd
        have htally : gain w+(history.map lost).sum=gain w₀+(history.map won).sum := htally
        refine ⟨hk.call hj hc hd,?_⟩
        change gain w'+((history ++ [(p,out)]).map lost).sum=gain w₀+((history ++ [(p,out)]).map won).sum
        rw [List.map_append,List.map_append,List.sum_append,List.sum_append,List.map_singleton,List.map_singleton,
          List.sum_singleton,List.sum_singleton]
        omega
      reply := fun h hr => ⟨hk.reply h.1 hr,h.2⟩
      drop := fun h hc hf => ⟨hk.drop h.1 hc hf,h.2⟩ }
  exact (h.holds hkeeps (fun hw hb => ⟨hbegin hw.1 hb,hw.2⟩) ⟨h₀,rfl⟩).1.now.2

end CalcRs.Dispatch
