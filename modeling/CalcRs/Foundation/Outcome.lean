import Mathlib.Logic.Basic
import Mathlib.Tactic.Common

/-! Calls that return a value, return an error, or abort. An error is a value its caller may
inspect and recover from; a panic and running out of gas are seen by no code of the caller. -/
namespace CalcRs

/-- Why a call has no value to return. -/
inductive Fault (ε : Type) where
  | err (e : ε)
  | panic
  | outOfGas
  deriving DecidableEq, Repr

/-- The caller never gets control back from this fault. -/
def Fault.IsAbort {ε : Type} : Fault ε → Prop
  | .err _ => False
  | .panic => True
  | .outOfGas => True

namespace Except

variable {ε α β γ : Type}

@[simp] theorem ok_bind (a : α) (f : α → Except ε β) : (Except.ok a >>= f)=f a := rfl

@[simp] theorem error_bind (e : ε) (f : α → Except ε β) :
    ((Except.error e : Except ε α) >>= f)=Except.error e := rfl

@[simp] theorem map_ok (f : α → β) (a : α) : (f <$> (Except.ok a : Except ε α))=Except.ok (f a) := rfl

@[simp] theorem pure_eq_ok (a : α) : (pure a : Except ε α)=Except.ok a := rfl

/-- A sequence of two calls returns exactly when both do. -/
theorem bind_eq_ok {x : Except ε α} {f : α → Except ε β} {b : β} :
    (x >>= f)=Except.ok b ↔ ∃ a, x=Except.ok a ∧ f a=Except.ok b := by
  cases x with
  | error e => simp
  | ok a => simp

theorem bind_eq_error {x : Except ε α} {f : α → Except ε β} {e : ε} :
    (x >>= f)=Except.error e ↔ x=Except.error e ∨ ∃ a, x=Except.ok a ∧ f a=Except.error e := by
  cases x with
  | error e' => simp
  | ok a => simp

theorem toOption_eq_some {x : Except ε α} {a : α} : x.toOption=some a ↔ x=.ok a := by
  cases x <;> simp [Except.toOption]

theorem isOk_iff {x : Except ε α} : x.isOk ↔ ∃ a, x=.ok a := by
  cases x <;> simp [Except.isOk,Except.toBool]

theorem map_eq_ok {x : Except ε α} {f : α → β} {b : β} :
    (f <$> x)=Except.ok b ↔ ∃ a, x=Except.ok a ∧ f a=b := by
  cases x with
  | error e => simp [Functor.map,Except.map]
  | ok a => simp [Functor.map,Except.map]

theorem bind_bind (x : Except ε α) (f : α → Except ε β) (g : β → Except ε γ) :
    ((x >>= f) >>= g)=x >>= fun a => f a >>= g := by cases x <;> rfl

theorem ite_bind (p : Prop) [Decidable p] (x y : Except ε α) (f : α → Except ε β) :
    (if p then x else y) >>= f=if p then x >>= f else y >>= f := by split_ifs <;> rfl

theorem map_bind (f : β → γ) (x : Except ε α) (g : α → Except ε β) :
    f <$> (x >>= g)=x >>= fun a => f <$> g a := by cases x <;> rfl

theorem map_ite (f : α → β) (p : Prop) [Decidable p] (x y : Except ε α) :
    f <$> (if p then x else y)=if p then f <$> x else f <$> y := by split_ifs <;> rfl

@[simp] theorem ite_error_eq_ok {p : Prop} [Decidable p] {e : ε} {x : Except ε α} {a : α} :
    (if p then Except.error e else x)=Except.ok a ↔ ¬p ∧ x=Except.ok a := by
  by_cases h : p <;> simp [h]

/-- A call that returns keeps an invariant of its loop state over the whole loop. -/
theorem foldlM_invariant (P : β → Prop) (f : β → α → Except ε β)
    (hf : ∀ b a b', P b → f b a=Except.ok b' → P b') (xs : List α) (b b' : β) (hb : P b)
    (h : xs.foldlM f b=Except.ok b') : P b' := by
  induction xs generalizing b with
  | nil =>
    rw [List.foldlM_nil,pure_eq_ok] at h
    exact Except.ok.inj h ▸ hb
  | cons x xs ih =>
    rw [List.foldlM_cons] at h
    obtain ⟨b₁,h₁,h₂⟩ := bind_eq_ok.mp h
    exact ih b₁ (hf b x b₁ hb h₁) h₂

/-- A loop whose calls return the values of `g` returns them all. -/
theorem mapM_ok {f : α → Except ε β} {g : α → β} {xs : List α} {ys : List β}
    (hf : ∀ a b, f a=.ok b → b=g a) (h : xs.mapM f=.ok ys) : ys=xs.map g := by
  induction xs generalizing ys with
  | nil =>
    cases h
    rfl
  | cons x xs ih =>
    rw [List.mapM_cons] at h
    obtain ⟨y,hy,h⟩ := Except.bind_eq_ok.mp h
    obtain ⟨ys',hys,h⟩ := Except.bind_eq_ok.mp h
    obtain rfl := Except.ok.inj h
    rw [List.map_cons,hf x y hy,ih hys]

theorem mapM_total {f : α → Except ε β} {xs : List α} (hf : ∀ a ∈ xs, ∃ b, f a=.ok b) :
    ∃ ys, xs.mapM f=.ok ys := by
  induction xs with
  | nil => exact ⟨[],rfl⟩
  | cons x xs ih =>
    obtain ⟨y,hy⟩ := hf x (by simp)
    obtain ⟨ys,hys⟩ := ih fun a ha => hf a (by simp [ha])
    exact ⟨y :: ys,by rw [List.mapM_cons,hy,Except.ok_bind,hys]; rfl⟩

end Except

namespace Fault

variable {ε α : Type}

/-- Rust's `match result`: the error becomes a value, an abort stays one. -/
def attempt : Except (Fault ε) α → Except (Fault ε) (Except ε α)
  | .ok a => .ok (.ok a)
  | .error (.err e) => .ok (.error e)
  | .error .panic => .error .panic
  | .error .outOfGas => .error .outOfGas

/-- `Result::ok`. -/
def okay (x : Except (Fault ε) α) : Except (Fault ε) (Option α) := do
  match ← attempt x with
  | .ok a => return some a
  | .error _ => return none

/-- `Result::unwrap_or`. -/
def unwrapOr (x : Except (Fault ε) α) (default : α) : Except (Fault ε) α := do
  match ← attempt x with
  | .ok a => return a
  | .error _ => return default

/-- `Result::is_ok`. -/
def isOkay (x : Except (Fault ε) α) : Except (Fault ε) Bool := do
  match ← attempt x with
  | .ok _ => return true
  | .error _ => return false

/-- A computation that panics where it has no value. -/
def orPanic : Option α → Except (Fault ε) α
  | some a => .ok a
  | none => .error .panic

@[simp] theorem attempt_ok (a : α) : attempt (.ok a : Except (Fault ε) α)=.ok (.ok a) := rfl
@[simp] theorem attempt_err (e : ε) :
    attempt (.error (.err e) : Except (Fault ε) α)=.ok (.error e) := rfl
@[simp] theorem okay_ok (a : α) : okay (.ok a : Except (Fault ε) α)=.ok (some a) := rfl
@[simp] theorem okay_err (e : ε) : okay (.error (.err e) : Except (Fault ε) α)=.ok none := rfl
@[simp] theorem unwrapOr_ok (a b : α) : unwrapOr (.ok a : Except (Fault ε) α) b=.ok a := rfl
@[simp] theorem unwrapOr_err (e : ε) (b : α) : unwrapOr (.error (.err e)) b=.ok b := rfl

theorem attempt_eq_ok_ok {x : Except (Fault ε) α} {a : α} :
    attempt x=.ok (.ok a) ↔ x=.ok a := by
  rcases x with (_ | _ | _) | b <;> simp [attempt]

theorem attempt_eq_ok_error {x : Except (Fault ε) α} {e : ε} :
    attempt x=.ok (.error e) ↔ x=.error (.err e) := by
  rcases x with (_ | _ | _) | b <;> simp [attempt]

theorem okay_eq_some {x : Except (Fault ε) α} {a : α} : okay x=.ok (some a) ↔ x=.ok a := by
  rcases x with (_ | _ | _) | b <;> simp [okay,attempt]

/-! ### Calls that give control back -/

/-- The call ends in a value or in an error that its caller sees. -/
def Settles (x : Except (Fault ε) α) : Prop := ∀ f, x=.error f → ¬f.IsAbort

variable {β : Type}

@[simp] theorem settles_ok (a : α) : Settles (.ok a : Except (Fault ε) α) := fun _ h => by cases h
@[simp] theorem settles_pure (a : α) : Settles (pure a : Except (Fault ε) α) := settles_ok a
@[simp] theorem settles_err (e : ε) : Settles (.error (.err e) : Except (Fault ε) α) := fun _ h => by
  cases h
  exact id
@[simp] theorem settles_panic : ¬Settles (.error .panic : Except (Fault ε) α) := fun h => h _ rfl trivial

/-- A sequence settles when both calls do; the second one counts if the first returns. -/
theorem settles_bind {x : Except (Fault ε) α} {f : α → Except (Fault ε) β} :
    Settles (x >>= f) ↔ Settles x ∧ ∀ a, x=.ok a → Settles (f a) := by
  cases x with
  | error e => simp [Settles]
  | ok a => simp

theorem settles_map {x : Except (Fault ε) α} {f : α → β} : Settles (f <$> x) ↔ Settles x := by
  cases x <;> simp [Settles,Functor.map,Except.map]

@[simp] theorem settles_orPanic {x : Option α} : Settles (orPanic x : Except (Fault ε) α) ↔ x≠none := by
  cases x <;> simp [orPanic]

theorem settles_iff_attempt {x : Except (Fault ε) α} : Settles x ↔ ∃ r, attempt x=.ok r := by
  rcases x with (e | _ | _) | a
  · simp [attempt]
  · simp [attempt]
  · simp [attempt,Settles,IsAbort]
  · simp [attempt]

theorem settles_iff_okay {x : Except (Fault ε) α} : Settles x ↔ ∃ o, okay x=.ok o := by
  rcases x with (e | _ | _) | a
  · simp
  · simp [okay,attempt]
  · simp [okay,attempt,Settles,IsAbort]
  · simp

theorem settles_attempt {x : Except (Fault ε) α} : Settles (attempt x) ↔ Settles x := by
  rcases x with (e | _ | _) | a <;> simp [attempt,Settles,IsAbort]

/-! ### Calls that differ in their errors only -/

/-- The calls return the same, and one settles if the other does. -/
structure Alike (x y : Except (Fault ε) α) : Prop where
  returns : ∀ a, x=.ok a ↔ y=.ok a
  settles : Settles x ↔ Settles y

namespace Alike

variable {x y z : Except (Fault ε) α}

theorem of_eq (h : x=y) : Alike x y := h ▸ ⟨fun _ => Iff.rfl,Iff.rfl⟩

theorem refl (x : Except (Fault ε) α) : Alike x x := of_eq rfl

theorem trans (h : Alike x y) (h' : Alike y z) : Alike x z :=
  ⟨fun a => (h.returns a).trans (h'.returns a),h.settles.trans h'.settles⟩

theorem toOption_eq (h : Alike x y) : x.toOption=y.toOption := by
  refine Option.ext fun a => ?_
  rw [Except.toOption_eq_some,Except.toOption_eq_some]
  exact h.returns a

theorem err (e e' : ε) : Alike (.error (.err e) : Except (Fault ε) α) (.error (.err e')) :=
  ⟨fun _ => by simp,by simp⟩

/-- Sequences are alike when their first calls are, and the second ones on what is returned. -/
theorem bind {f g : α → Except (Fault ε) β} (h : Alike x y) (hf : ∀ a, y=.ok a → Alike (f a) (g a)) :
    Alike (x >>= f) (y >>= g) := by
  refine ⟨fun b => ?_,?_⟩
  · rw [Except.bind_eq_ok,Except.bind_eq_ok]
    refine exists_congr fun a => ?_
    rw [h.returns a]
    exact and_congr_right fun ha => (hf a ha).returns b
  · rw [settles_bind,settles_bind,h.settles]
    refine and_congr_right fun _ => forall_congr' fun a => ?_
    rw [h.returns a]
    exact imp_congr_right fun ha => (hf a ha).settles

end Alike

/-! ### Calls without an error of their own -/

/-- The call returns a value or aborts. -/
def Errorless (x : Except (Fault ε) α) : Prop := ∀ e, x≠.error (.err e)

@[simp] theorem errorless_ok (a : α) : Errorless (.ok a : Except (Fault ε) α) := fun _ h => by cases h
@[simp] theorem errorless_panic : Errorless (.error .panic : Except (Fault ε) α) := fun _ h => by cases h

/-- A call without an error of its own settles when it returns. -/
theorem Errorless.settles_iff {x : Except (Fault ε) α} (h : Errorless x) : Settles x ↔ ∃ a, x=.ok a := by
  rcases x with (e | _ | _) | a
  · exact absurd rfl (h e)
  · simp
  · simp [Settles,IsAbort]
  · simp

theorem errorless_map {x : Except (Fault ε) α} {f : α → β} : Errorless (f <$> x) ↔ Errorless x := by
  cases x <;> simp [Errorless,Functor.map,Except.map]

theorem errorless_bind {x : Except (Fault ε) α} {f : α → Except (Fault ε) β} (hx : Errorless x)
    (hf : ∀ a, x=.ok a → Errorless (f a)) : Errorless (x >>= f) := by
  intro e h
  rcases Except.bind_eq_error.mp h with h | ⟨a,ha,h⟩
  · exact hx e h
  · exact hf a ha e h

/-- A sequence whose first call can only return one value. -/
theorem settles_bind_of {x : Except (Fault ε) α} {f : α → Except (Fault ε) β} {a : α} {P : Prop} (hx : Errorless x)
    (hsettles : Settles x ↔ P) (ha : ∀ b, x=.ok b → b=a) : Settles (x >>= f) ↔ P ∧ Settles (f a) := by
  rw [settles_bind,hsettles]
  refine and_congr_right fun hp => ?_
  obtain ⟨b,hb⟩ := hx.settles_iff.mp (hsettles.mpr hp)
  obtain rfl := ha b hb
  exact ⟨fun h => h b hb,fun h c hc => ha c hc ▸ h⟩

end Fault
end CalcRs
