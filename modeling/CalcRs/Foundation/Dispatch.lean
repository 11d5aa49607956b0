import Mathlib.Data.List.Basic
import Mathlib.Logic.Relation
import Mathlib.Tactic.Common

/-! Depth-first delivery of messages. What a delivery emits is delivered before the messages that follow
it. A failure undoes everything since the delivery of the message that failed, and whatever was emitted
with it; the emitter of that message catches it, or fails in turn. -/
namespace CalcRs.Dispatch

variable {W P G : Type}

/-- The parties: which messages start a transaction, what a delivery does to the world and emits, whose
failure is caught, and what the emitter sends when it is told the outcome. -/
structure Machine (W P : Type) where
  begins : W → P → Prop
  delivers : W → P → W → List P → Prop
  catches : P → Prop
  replies : P → Bool → List P → Prop

/-- A message under delivery: the world before it, and what was emitted by it and is still to be delivered. -/
structure Frame (W P : Type) where
  saved : W
  packet : P
  pending : List P

/-- The world and the messages under delivery, the innermost first; none between transactions. -/
structure Config (W P : Type) where
  world : W
  frames : List (Frame W P)

/-- The messages still to be delivered, in their order. -/
def pending : List (Frame W P) → List P
  | [] => []
  | f :: fs => f.pending ++ pending fs

/-- Which deliveries and which caught failures take place, given the world before the message. -/
structure Conduct (W P : Type) where
  calls : W → P → List P → Prop
  fails : W → P → Prop

/-- Anything may happen. -/
def Conduct.any : Conduct W P := ⟨fun _ _ _ => True,fun _ _ => True⟩

/-- One step inside a transaction. -/
inductive Step (M : Machine W P) (C : Conduct W P) : Config W P → Config W P → Prop
  | call {w w' s : W} {q p : P} {ps out : List P} {fs : List (Frame W P)} : C.calls w p (ps ++ pending fs) →
      M.delivers w p w' out → Step M C ⟨w,⟨s,q,p :: ps⟩ :: fs⟩ ⟨w',⟨w,p,out⟩ :: ⟨s,q,ps⟩ :: fs⟩
  | finish {w s s' : W} {p q : P} {ps out : List P} {fs : List (Frame W P)} : M.replies p true out →
      Step M C ⟨w,⟨s,p,[]⟩ :: ⟨s',q,ps⟩ :: fs⟩ ⟨w,⟨s',q,out ++ ps⟩ :: fs⟩
  | refuse {w s : W} {p q : P} {ps out : List P} {fs : List (Frame W P)} : M.catches p → C.fails w p →
      M.replies p false out → Step M C ⟨w,⟨s,q,p :: ps⟩ :: fs⟩ ⟨w,⟨s,q,out ++ ps⟩ :: fs⟩
  -- the failure passed through `gs`, where it was not caught or the emitter failed when it was told
  | abort {w s s' : W} {p q : P} {ps ps' out : List P} {gs fs : List (Frame W P)} : M.catches p → C.fails s p →
      M.replies p false out → Step M C ⟨w,gs ++ ⟨s,p,ps⟩ :: ⟨s',q,ps'⟩ :: fs⟩ ⟨s,⟨s',q,out ++ ps'⟩ :: fs⟩

/-- The steps of one transaction from a configuration on. -/
abbrev Steps (M : Machine W P) (C : Conduct W P) : Config W P → Config W P → Prop :=
  Relation.ReflTransGen (Step M C)

/-- Transactions one after the other: each is committed, or reverted as a whole. -/
inductive Reachable (M : Machine W P) (C : Conduct W P) (w₀ : W) : Config W P → Prop
  | start : Reachable M C w₀ ⟨w₀,[]⟩
  | begin {w w' : W} {p : P} {out : List P} : Reachable M C w₀ ⟨w,[]⟩ → M.begins w p → C.calls w p [] →
      M.delivers w p w' out → Reachable M C w₀ ⟨w',[⟨w,p,out⟩]⟩
  | step {c c' : Config W P} : Reachable M C w₀ c → Step M C c c' → Reachable M C w₀ c'
  | commit {w s : W} {p : P} : Reachable M C w₀ ⟨w,[⟨s,p,[]⟩]⟩ → Reachable M C w₀ ⟨w,[]⟩
  | revert {w s : W} {p : P} {ps : List P} {gs : List (Frame W P)} :
      Reachable M C w₀ ⟨w,gs ++ [⟨s,p,ps⟩]⟩ → Reachable M C w₀ ⟨s,[]⟩

/-- What a law about the world and the pending messages has to keep. -/
structure Keeps (M : Machine W P) (C : Conduct W P) (I : W → List P → Prop) : Prop where
  call : ∀ {w w' p ps out}, I w (p :: ps) → C.calls w p ps → M.delivers w p w' out → I w' (out ++ ps)
  reply : ∀ {w p ok ps out}, I w ps → M.replies p ok out → I w (out ++ ps)
  drop : ∀ {w p ps}, I w (p :: ps) → M.catches p → C.fails w p → I w ps

/-- Each saved world obeys the law together with the messages that were pending then. -/
def Saved (I : W → List P → Prop) : List (Frame W P) → Prop
  | [] => True
  | f :: fs => I f.saved (f.packet :: pending fs) ∧ Saved I fs

/-- The law holds now and at every point to which a failure may lead back. -/
structure Holds (I : W → List P → Prop) (c : Config W P) : Prop where
  now : I c.world (pending c.frames)
  saved : Saved I c.frames

variable {M : Machine W P} {C : Conduct W P} {I : W → List P → Prop}

theorem Saved.of_append {gs fs : List (Frame W P)} (h : Saved I (gs ++ fs)) : Saved I fs := by
  induction gs with
  | nil => exact h
  | cons g gs ih => exact ih h.2

theorem Holds.step (hk : Keeps M C I) {c c' : Config W P} (h : Holds I c) (hs : Step M C c c') : Holds I c' := by
  cases hs with
  | call hc hd => exact ⟨hk.call h.now hc hd,h.now,h.saved.1,h.saved.2⟩
  | @finish w s s' p q ps out fs hr =>
    refine ⟨?_,h.saved.2⟩
    have := hk.reply h.now hr
    simpa [pending] using this
  | @refuse w s p q ps out fs hcatch hf hr =>
    refine ⟨?_,h.saved⟩
    have := hk.reply (hk.drop h.now hcatch hf) hr
    simpa [pending] using this
  | @abort w s s' p q ps ps' out gs fs hcatch hf hr =>
    have hsaved := h.saved.of_append
    refine ⟨?_,hsaved.2⟩
    have := hk.reply (hk.drop hsaved.1 hcatch hf) hr
    simpa [pending] using this

/-- A law that every step keeps holds throughout a transaction. -/
theorem Holds.steps (hk : Keeps M C I) {c c' : Config W P} (h : Holds I c) (hs : Steps M C c c') : Holds I c' := by
  induction hs with
  | refl => exact h
  | tail _ hstep ih => exact ih.step hk hstep

/-- The world to which a transaction is reverted is not touched by its steps. -/
theorem Step.base {c c' : Config W P} (hs : Step M C c c') :
    c'.frames.getLast?.map Frame.saved=c.frames.getLast?.map Frame.saved := by
  cases hs with
  | @call _ _ _ _ _ _ _ fs => cases fs <;> simp [List.getLast?_cons_cons]
  | @finish _ _ _ _ _ _ _ fs => cases fs <;> simp [List.getLast?_cons_cons]
  | @refuse _ _ _ _ _ _ fs => cases fs <;> simp [List.getLast?_cons_cons]
  | @abort _ _ _ _ _ _ _ _ gs fs =>
    rw [List.getLast?_append_of_ne_nil gs (List.cons_ne_nil _ _)]
    cases fs <;> simp [List.getLast?_cons_cons]

/-- A law that also holds between transactions, and when one begins, holds in every reachable configuration. -/
theorem Reachable.holds {w₀ : W} (hk : Keeps M C I) (hbegin : ∀ {w p}, I w [] → M.begins w p → I w [p])
    (h₀ : I w₀ []) {c : Config W P} (h : Reachable M C w₀ c) :
    Holds I c ∧ ∀ w ∈ c.frames.getLast?.map Frame.saved, I w [] := by
  induction h with
  | start => exact ⟨⟨h₀,trivial⟩,by simp⟩
  | begin _ hb hc hd ih =>
    have hp := hbegin ih.1.now hb
    refine ⟨⟨by simpa [pending] using hk.call hp hc hd,hp,trivial⟩,?_⟩
    simpa [pending] using ih.1.now
  | step _ hs ih => exact ⟨ih.1.step hk hs,hs.base ▸ ih.2⟩
  | commit _ ih => exact ⟨⟨ih.1.now,trivial⟩,by simp⟩
  | @revert w s p ps gs _ ih => exact ⟨⟨ih.2 s (by simp),trivial⟩,by simp⟩

/-- What is reached from a point between transactions is reached from where that point was. -/
theorem Reachable.after {w₀ w : W} (h : Reachable M C w₀ ⟨w,[]⟩) {c : Config W P} (h' : Reachable M C w c) :
    Reachable M C w₀ c := by
  induction h' with
  | start => exact h
  | begin _ hb hc hd ih => exact .begin ih hb hc hd
  | step _ hs ih => exact .step ih hs
  | commit _ ih => exact .commit ih
  | revert _ ih => exact .revert ih

/-- A transaction that begins with this message comes to its end, and nothing is left to deliver. -/
def Commits (M : Machine W P) (C : Conduct W P) (w : W) (p : P) (w' : W) : Prop :=
  M.begins w p ∧ C.calls w p [] ∧ ∃ w₁ out, M.delivers w p w₁ out ∧ Steps M C ⟨w₁,[⟨w,p,out⟩]⟩ ⟨w',[⟨w,p,[]⟩]⟩

/-- The deliveries that take place in the runs. -/
inductive Delivery (M : Machine W P) (C : Conduct W P) (w₀ w : W) (p : P) (w' : W) (out : List P) : Prop
  | first : Reachable M C w₀ ⟨w,[]⟩ → M.begins w p → C.calls w p [] → M.delivers w p w' out →
      Delivery M C w₀ w p w' out
  | next {s : W} {q : P} {ps : List P} {fs : List (Frame W P)} : Reachable M C w₀ ⟨w,⟨s,q,p :: ps⟩ :: fs⟩ →
      C.calls w p (ps ++ pending fs) → M.delivers w p w' out → Delivery M C w₀ w p w' out

/-- The law holds when a message is about to be delivered. -/
theorem Delivery.holds {w₀ w w' : W} {p : P} {out : List P} (hk : Keeps M C I)
    (hbegin : ∀ {w p}, I w [] → M.begins w p → I w [p]) (h₀ : I w₀ []) (h : Delivery M C w₀ w p w' out) :
    ∃ ps, I w (p :: ps) ∧ M.delivers w p w' out := by
  cases h with
  | first hr hb _ hd => exact ⟨[],hbegin (hr.holds hk hbegin h₀).1.now hb,hd⟩
  | next hr _ hd => exact ⟨_,(hr.holds hk hbegin h₀).1.now,hd⟩

/-- It holds when a message is about to be delivered that may be. -/
theorem Delivery.conducted {w₀ w w' : W} {p : P} {out : List P} (hk : Keeps M C I)
    (hbegin : ∀ {w p}, I w [] → M.begins w p → I w [p]) (h₀ : I w₀ []) (h : Delivery M C w₀ w p w' out) :
    ∃ ps, I w (p :: ps) ∧ C.calls w p ps ∧ M.delivers w p w' out := by
  cases h with
  | first hr hb hc hd => exact ⟨[],hbegin (hr.holds hk hbegin h₀).1.now hb,hc,hd⟩
  | next hr hc hd => exact ⟨_,(hr.holds hk hbegin h₀).1.now,hc,hd⟩

/-! ### Runs with a record -/

/-- The same parties, with a record of the deliveries that is undone with them. -/
def Machine.recording (M : Machine W P) (record : G → W → P → W → List P → G) : Machine (W × G) P where
  begins w p := M.begins w.1 p
  delivers w p w' out := M.delivers w.1 p w'.1 out ∧ w'.2=record w.2 w.1 p w'.1 out
  catches := M.catches
  replies := M.replies

/-- The conduct does not depend on the record. -/
def Conduct.recording (C : Conduct W P) : Conduct (W × G) P := ⟨fun w p ps => C.calls w.1 p ps,fun w p => C.fails w.1 p⟩

/-- The configuration with a record that begins now: the worlds before have none. -/
def Config.record (c : Config W P) (g : G) : Config (W × Option G) P :=
  ⟨(c.world,some g),c.frames.map fun f => ⟨(f.saved,none),f.packet,f.pending⟩⟩

theorem Config.pending_record (c : Config W P) (g : G) : pending (c.record g).frames=pending c.frames := by
  obtain ⟨w,frames⟩ := c
  simp only [Config.record]
  induction frames with
  | nil => rfl
  | cons f fs ih => rw [List.map_cons,pending,pending,ih]

/-- A law about what is recorded from now on says nothing of the worlds before. -/
theorem Holds.record {J : W → G → List P → Prop} {c : Config W P} {g : G} (h : J c.world g (pending c.frames)) :
    Holds (fun w ps => ∀ g, w.2=some g → J w.1 g ps) (c.record g) := by
  refine ⟨fun g' hg => ?_,?_⟩
  · rw [c.pending_record g]
    exact Option.some.inj hg ▸ h
  · obtain ⟨w,frames⟩ := c
    clear h
    simp only [Config.record]
    induction frames with
    | nil => trivial
    | cons f fs ih => exact ⟨fun g hg => by simp at hg,ih⟩

/-! ### Rehearsals -/

/-- One way to go on: what a message does, if it does not fail, and what is let through. -/
structure Player (W P : Type) where
  deliver : W → P → Option (W × List P)
  allows : W → P → List P → Bool
  caught : W → P → Bool

namespace Player

/-- The next step; what fails is refused at once, and nobody replies. -/
def advance (π : Player W P) : Config W P → Option (Config W P)
  | ⟨_,[]⟩ => none
  | ⟨_,[⟨_,_,[]⟩]⟩ => none
  | ⟨w,⟨_,_,[]⟩ :: f :: fs⟩ => some ⟨w,f :: fs⟩
  | ⟨w,⟨s,q,p :: ps⟩ :: fs⟩ =>
    match π.deliver w p with
    | some (w',out) => if π.allows w p (ps ++ pending fs) then some ⟨w',⟨w,p,out⟩ :: ⟨s,q,ps⟩ :: fs⟩ else none
    | none => if π.caught w p then some ⟨w,⟨s,q,ps⟩ :: fs⟩ else none

def play (π : Player W P) : ℕ → Config W P → Option (Config W P)
  | 0,c => some c
  | n+1,c => (π.advance c).bind (π.play n)

/-- What the player does may happen. -/
structure Sound (π : Player W P) (M : Machine W P) (C : Conduct W P) : Prop where
  deliver : ∀ {w p w' out}, π.deliver w p=some (w',out) → M.delivers w p w' out
  allows : ∀ {w p ps}, π.allows w p ps=true → C.calls w p ps
  caught : ∀ {w p}, π.caught w p=true → M.catches p ∧ C.fails w p
  silent : ∀ p ok, M.replies p ok []

variable {π : Player W P}

theorem Sound.advance (hπ : π.Sound M C) {c c' : Config W P} (h : π.advance c=some c') : Step M C c c' := by
  match c with
  | ⟨_,[]⟩ => cases h
  | ⟨_,[⟨_,_,[]⟩]⟩ => cases h
  | ⟨w,⟨_,_,[]⟩ :: f :: fs⟩ =>
    obtain rfl := Option.some.inj h
    exact .finish (hπ.silent _ _)
  | ⟨w,⟨s,q,p :: ps⟩ :: fs⟩ =>
    rw [Player.advance] at h
    cases hd : π.deliver w p with
    | some r =>
      simp only [hd] at h
      split_ifs at h with ha
      obtain rfl := Option.some.inj h
      exact .call (hπ.allows ha) (hπ.deliver hd)
    | none =>
      simp only [hd] at h
      split_ifs at h with hc
      obtain rfl := Option.some.inj h
      obtain ⟨hcatch,hfail⟩ := hπ.caught hc
      exact .refuse hcatch hfail (hπ.silent _ _)

theorem Sound.play (hπ : π.Sound M C) {n : ℕ} {c c' : Config W P} (h : π.play n c=some c') : Steps M C c c' := by
  induction n generalizing c with
  | zero => exact Option.some.inj h ▸ .refl
  | succ n ih =>
    obtain ⟨c₁,h₁,h⟩ := Option.bind_eq_some_iff.mp h
    exact (ih h).head (hπ.advance h₁)

/-- The delivery that begins a transaction. -/
def start (π : Player W P) (w : W) (p : P) : Option (Config W P) :=
  (π.deliver w p).bind fun r => if π.allows w p [] then some ⟨r.1,[⟨w,p,r.2⟩]⟩ else none

/-- The next delivery, with its message and what it emits. -/
def next (π : Player W P) (c : Config W P) : Option (P × W × List P) :=
  match c.frames with
  | ⟨_,_,p :: ps⟩ :: fs =>
    (π.deliver c.world p).bind fun r => if π.allows c.world p (ps ++ pending fs) then some (p,r) else none
  | _ => none

/-- A transaction of `n` steps after the first delivery. -/
def transact (π : Player W P) (n : ℕ) (w : W) (p : P) : Option W := (π.start w p).bind fun c => (π.play n c).bind fun
  | ⟨w',[⟨_,_,[]⟩]⟩ => some w'
  | _ => none

theorem Sound.reaches (hπ : π.Sound M C) {w₀ : W} {n : ℕ} {c c' : Config W P} (hr : Reachable M C w₀ c)
    (h : π.play n c=some c') : Reachable M C w₀ c' := by
  have hsteps := hπ.play h
  clear h
  induction hsteps with
  | refl => exact hr
  | tail _ hs ih => exact ih.step hs

theorem Sound.start (hπ : π.Sound M C) {w₀ w : W} {p : P} {c : Config W P} (hr : Reachable M C w₀ ⟨w,[]⟩)
    (hb : M.begins w p) (h : π.start w p=some c) : Reachable M C w₀ c := by
  obtain ⟨⟨w',out⟩,hd,h⟩ := Option.bind_eq_some_iff.mp h
  split_ifs at h with ha
  obtain rfl := Option.some.inj h
  exact .begin hr hb (hπ.allows ha) (hπ.deliver hd)

theorem Sound.next (hπ : π.Sound M C) {w₀ w' : W} {p : P} {out : List P} {c : Config W P} (hr : Reachable M C w₀ c)
    (h : π.next c=some (p,w',out)) : Delivery M C w₀ c.world p w' out := by
  obtain ⟨w,frames⟩ := c
  unfold Player.next at h
  split at h
  · obtain ⟨⟨w₁,out₁⟩,hd,h⟩ := Option.bind_eq_some_iff.mp h
    split_ifs at h with ha
    cases h
    rename_i hf
    obtain rfl := hf
    exact .next hr (hπ.allows ha) (hπ.deliver hd)
  · cases h

theorem Sound.transact (hπ : π.Sound M C) {w₀ w w' : W} {p : P} {n : ℕ} (hr : Reachable M C w₀ ⟨w,[]⟩)
    (hb : M.begins w p) (h : π.transact n w p=some w') : Reachable M C w₀ ⟨w',[]⟩ := by
  obtain ⟨c,hc,h⟩ := Option.bind_eq_some_iff.mp h
  obtain ⟨c',hp,h⟩ := Option.bind_eq_some_iff.mp h
  have hr' := hπ.reaches (hπ.start hr hb hc) hp
  split at h
  · cases h
    exact hr'.commit
  · cases h

/-- The player, keeping the record. -/
def recording (π : Player W P) (record : G → W → P → W → List P → G) : Player (W × G) P where
  deliver w p := (π.deliver w.1 p).map fun r => ((r.1,record w.2 w.1 p r.1 r.2),r.2)
  allows w p ps := π.allows w.1 p ps
  caught w p := π.caught w.1 p

theorem Sound.recording (hπ : π.Sound M C) (record : G → W → P → W → List P → G) :
    (π.recording record).Sound (M.recording record) C.recording where
  deliver := by
    rintro ⟨w,g⟩ p ⟨w',g'⟩ out h
    obtain ⟨r,hd,he⟩ := Option.map_eq_some_iff.mp h
    cases he
    exact ⟨hπ.deliver hd,rfl⟩
  allows h := hπ.allows h
  caught h := hπ.caught h
  silent := hπ.silent

end Player
end CalcRs.Dispatch
