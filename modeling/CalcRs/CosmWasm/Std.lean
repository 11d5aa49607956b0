import CalcRs.Foundation.Outcome
import Mathlib.Algebra.Order.Field.Rat
import Mathlib.Tactic.Linarith
import Mathlib.Tactic.Positivity
import Mathlib.Tactic.FieldSimp
import Mathlib.Tactic.Ring

/-! Results and fixed-width numbers of contract code. Plain operators abort on overflow, underflow
and division by zero; `checked` operations return an error instead. -/
namespace CalcRs

/-- `StdError`, together with `ContractError::Unauthorized`. -/
inductive StdError where
  | genericErr (msg : String)
  | notFound (kind : String)
  | overflow (operation : String)
  | unauthorized
  deriving DecidableEq, Repr

/-- A call of contract code. -/
abbrev Outcome (α : Type) := Except (Fault StdError) α

/-- What a query answers its caller: a query never aborts the contract that asks. -/
abbrev StdResult (α : Type) := Except StdError α

/-- The `?` after a query. -/
def query {α : Type} : StdResult α → Outcome α
  | .ok a => .ok a
  | .error e => .error (.err e)

@[simp] theorem query_ok {α : Type} (a : α) : query (.ok a)=.ok a := rfl
@[simp] theorem query_error {α : Type} (e : StdError) :
    query (.error e : StdResult α)=.error (.err e) := rfl

theorem query_eq_ok {α : Type} {x : StdResult α} {a : α} : query x=.ok a ↔ x=.ok a := by
  cases x <;> simp

/-- `Err(StdError::generic_err(msg))`. -/
def genericErr {α : Type} (msg : String) : Outcome α := .error (.err (.genericErr msg))

/-- The `?` after `map_err` into a generic error. -/
def mapErr {ε α : Type} (msg : ε → String) : Except ε α → Outcome α
  | .ok a => .ok a
  | .error e => genericErr (msg e)

theorem mapErr_eq_ok {ε α : Type} {msg : ε → String} {x : Except ε α} {a : α} : mapErr msg x=.ok a ↔ x=.ok a := by
  cases x <;> simp [mapErr,genericErr]

/-- A value of a `2^bits` type, or an overflow panic. -/
def fits (bits n : ℕ) : Outcome ℕ := if n<2^bits then .ok n else .error .panic

theorem fits_eq_ok {bits n m : ℕ} : fits bits n=.ok m ↔ n<2^bits ∧ n=m := by
  unfold fits
  split_ifs with h <;> simp [h]

theorem fits_of_lt {bits n : ℕ} (h : n<2^bits) : fits bits n=.ok n := fits_eq_ok.mpr ⟨h,rfl⟩

/-- `u8` addition. -/
def U8.add (a b : ℕ) : Outcome ℕ := fits 8 (a+b)

namespace U64

def MAX : ℕ := 2^64-1

def add (a b : ℕ) : Outcome ℕ := fits 64 (a+b)
def mul (a b : ℕ) : Outcome ℕ := fits 64 (a*b)
def sub (a b : ℕ) : Outcome ℕ := if b≤a then .ok (a-b) else .error .panic
def mod (a b : ℕ) : Outcome ℕ := if b=0 then .error .panic else .ok (a%b)

/-- `as i64`: the upper half of the range is read as negative. -/
def asI64 (a : ℕ) : ℤ := if a<2^63 then a else (a : ℤ)-2^64

end U64

/-- `i64 as u64`. -/
def asU64 (a : ℤ) : ℕ := (a%2^64).toNat

/-- `Decimal`: a `Uint128` number of units of `10^-18`. -/
structure Decimal where
  atomics : ℕ
  deriving DecidableEq, Repr

namespace Decimal

def fractional : ℕ := 10^18

def zero : Decimal := ⟨0⟩
def one : Decimal := ⟨fractional⟩
def percent (x : ℕ) : Decimal := ⟨x*10^16⟩
def bps (x : ℕ) : Decimal := ⟨x*10^14⟩

/-- `Decimal::from_ratio`. -/
def fromRatio (numerator denominator : ℕ) : Outcome Decimal :=
  if denominator=0 then .error .panic
  else Decimal.mk <$> fits 128 (numerator*fractional/denominator)

def add (a b : Decimal) : Outcome Decimal := Decimal.mk <$> fits 128 (a.atomics+b.atomics)
def mul (a b : Decimal) : Outcome Decimal := Decimal.mk <$> fits 128 (a.atomics*b.atomics/fractional)
def div (a b : Decimal) : Outcome Decimal := fromRatio a.atomics b.atomics

def absDiff (a b : Decimal) : Decimal := ⟨(a.atomics-b.atomics)+(b.atomics-a.atomics)⟩

def saturatingAdd (a b : Decimal) : Decimal := ⟨min (a.atomics+b.atomics) (2^128-1)⟩
def saturatingSub (a b : Decimal) : Decimal := ⟨a.atomics-b.atomics⟩
def saturatingMul (a b : Decimal) : Decimal := ⟨min (a.atomics*b.atomics/fractional) (2^128-1)⟩

/-- `Decimal::checked_sub`. -/
def checkedSub (a b : Decimal) : Outcome Decimal :=
  if b.atomics≤a.atomics then .ok ⟨a.atomics-b.atomics⟩ else .error (.err (.overflow "Sub"))

/-- `Decimal::checked_div`. -/
def checkedDiv (a b : Decimal) : Outcome Decimal :=
  if b.atomics=0 then .error (.err (.overflow "DivideByZero"))
  else if a.atomics*fractional/b.atomics<2^128 then .ok ⟨a.atomics*fractional/b.atomics⟩
  else .error (.err (.overflow "CheckedFromRatio"))

instance : LT Decimal := ⟨fun a b => a.atomics<b.atomics⟩
instance : LE Decimal := ⟨fun a b => a.atomics≤b.atomics⟩
instance (a b : Decimal) : Decidable (a<b) := inferInstanceAs (Decidable (a.atomics<b.atomics))
instance (a b : Decimal) : Decidable (a≤b) := inferInstanceAs (Decidable (a.atomics≤b.atomics))

theorem fromRatio_eq_ok {n d : ℕ} {r : Decimal} :
    fromRatio n d=.ok r ↔ d≠0 ∧ n*fractional/d<2^128 ∧ r=⟨n*fractional/d⟩ := by
  unfold fromRatio
  split_ifs with h
  · simp [h]
  · simp only [Except.map_eq_ok,fits_eq_ok,h,ne_eq,not_false_eq_true,true_and]
    constructor
    · rintro ⟨_,⟨hf,rfl⟩,rfl⟩; exact ⟨hf,rfl⟩
    · rintro ⟨hf,rfl⟩; exact ⟨_,⟨hf,rfl⟩,rfl⟩

theorem ratio_le_one {n d : ℕ} (h : n ≤ d) : n*fractional/d ≤ fractional :=
  Nat.div_le_of_le_mul (Nat.mul_le_mul_right _ h)

theorem scale_le (n : ℕ) {r : ℕ} (h : r ≤ fractional) : n*r/fractional ≤ n := by
  apply Nat.div_le_of_le_mul
  rw [Nat.mul_comm fractional]
  exact Nat.mul_le_mul_left n h

theorem scaleCeil_le (n : ℕ) {r : ℕ} (h : r ≤ fractional) : (n*r+(fractional-1))/fractional ≤ n := by
  have hpos : 0<fractional := by decide
  have hle : n*r ≤ n*fractional := Nat.mul_le_mul_left n h
  apply Nat.le_of_lt_succ
  rw [Nat.div_lt_iff_lt_mul hpos,Nat.succ_mul]
  omega

/-- Scaling by a ratio, with both roundings down, loses less than one unit and one unit of the ratio. -/
theorem lt_scaled (n part : ℕ) {total : ℕ} (ht : 0<total) :
    n*part*fractional<((n*(part*fractional/total)/fractional+1)*fractional+n)*total := by
  have hpos : 0<fractional := by decide
  have h1 : n*(part*fractional/total)<(n*(part*fractional/total)/fractional+1)*fractional := by
    rw [Nat.mul_comm (_+1)]
    exact Nat.lt_mul_div_succ _ hpos
  have h2 : part*fractional ≤ (part*fractional/total+1)*total := by
    rw [Nat.mul_comm (_+1)]
    exact (Nat.lt_mul_div_succ _ ht).le
  calc n*part*fractional=n*(part*fractional) := by ring
    _ ≤ n*((part*fractional/total+1)*total) := Nat.mul_le_mul_left _ h2
    _=(n*(part*fractional/total)+n)*total := by ring
    _<((n*(part*fractional/total)/fractional+1)*fractional+n)*total :=
      Nat.mul_lt_mul_of_pos_right (Nat.add_lt_add_right h1 n) ht

theorem scaled_mul_le (n part total : ℕ) : n*(part*fractional/total)/fractional*total ≤ n*part := by
  have h1 : n*(part*fractional/total)/fractional*fractional ≤ n*(part*fractional/total) := Nat.div_mul_le_self _ _
  have h2 : part*fractional/total*total ≤ part*fractional := Nat.div_mul_le_self _ _
  have hpos : 0<fractional := by decide
  refine Nat.le_of_mul_le_mul_right ?_ hpos
  calc n*(part*fractional/total)/fractional*total*fractional
      =n*(part*fractional/total)/fractional*fractional*total := by ring
    _ ≤ n*(part*fractional/total)*total := Nat.mul_le_mul_right _ h1
    _=n*(part*fractional/total*total) := by ring
    _ ≤ n*(part*fractional) := Nat.mul_le_mul_left _ h2
    _=n*part*fractional := by ring

/-- An amount that covers the scaled one, against the exact quotient. -/
theorem sub_lt_of_scaled_le {n part total amount : ℕ} (ht : 0<total)
    (h : n*(part*fractional/total)/fractional ≤ amount) : (n : ℚ)*part/total-1-n/10^18<amount := by
  have hlt : n*part*fractional<((amount+1)*fractional+n)*total := by
    refine (lt_scaled n part ht).trans_le (Nat.mul_le_mul_right _ (Nat.add_le_add_right ?_ _))
    exact Nat.mul_le_mul_right _ (Nat.add_le_add_right h 1)
  have hlt' : (n : ℚ)*part*10^18<((amount+1)*10^18+n)*total := by exact_mod_cast hlt
  have htq : (0 : ℚ)<total := by exact_mod_cast ht
  have hdiv : (n : ℚ)*part/total<amount+1+n/10^18 := by
    rw [div_lt_iff₀ htq]
    linarith
  linarith

end Decimal

namespace Uint128

/-- The operators `+` and `+=`. -/
def add (a b : ℕ) : Outcome ℕ := fits 128 (a+b)

def checkedAdd (a b : ℕ) : Outcome ℕ :=
  if a+b<2^128 then .ok (a+b) else .error (.err (.overflow "Add"))

def checkedSub (a b : ℕ) : Outcome ℕ :=
  if b≤a then .ok (a-b) else .error (.err (.overflow "Sub"))

theorem checkedAdd_eq_ok {a b n : ℕ} : checkedAdd a b=.ok n ↔ a+b<2^128 ∧ a+b=n := by
  unfold checkedAdd
  split_ifs with h
  · simp only [Except.ok.injEq,h,true_and]
  · simp only [h,false_and]

theorem checkedSub_eq_ok {a b n : ℕ} : checkedSub a b=.ok n ↔ b≤a ∧ a-b=n := by
  unfold checkedSub
  split_ifs with h <;> simp [h]

/-- `Uint128::mul_floor`. -/
def mulFloor (a : ℕ) (d : Decimal) : Outcome ℕ := fits 128 (a*d.atomics/Decimal.fractional)

/-- `Uint128::mul_ceil`. -/
def mulCeil (a : ℕ) (d : Decimal) : Outcome ℕ :=
  fits 128 ((a*d.atomics+(Decimal.fractional-1))/Decimal.fractional)

/-- `Uint128::div_ceil`. -/
def divCeil (a : ℕ) (d : Decimal) : Outcome ℕ :=
  if d.atomics=0 then .error .panic
  else fits 128 ((a*Decimal.fractional+(d.atomics-1))/d.atomics)

/-- Summing with `+` returns the sum, provided it fits. -/
def sum (xs : List ℕ) : Outcome ℕ := xs.foldlM add 0

theorem foldlM_add_eq_ok (xs : List ℕ) (a n : ℕ) (h : xs.foldlM add a=.ok n) : n=a+xs.sum := by
  induction xs generalizing a with
  | nil => simpa using h.symm
  | cons x xs ih =>
    rw [List.foldlM_cons] at h
    obtain ⟨b,hb,h⟩ := Except.bind_eq_ok.mp h
    obtain ⟨_,rfl⟩ := fits_eq_ok.mp hb
    rw [ih _ h,List.sum_cons,Nat.add_assoc]

theorem sum_eq_ok {xs : List ℕ} {n : ℕ} (h : sum xs=.ok n) : n=xs.sum := by
  simpa using foldlM_add_eq_ok xs 0 n h

theorem foldlM_add_of_lt {xs : List ℕ} {a : ℕ} (h : a+xs.sum<2^128) : xs.foldlM add a=.ok (a+xs.sum) := by
  induction xs generalizing a with
  | nil => rfl
  | cons x xs ih =>
    rw [List.sum_cons,← Nat.add_assoc] at h ⊢
    rw [List.foldlM_cons,add,fits_of_lt (by omega),Except.ok_bind]
    exact ih h

theorem sum_of_lt {xs : List ℕ} (h : xs.sum<2^128) : sum xs=.ok xs.sum := by
  have := @foldlM_add_of_lt xs 0 (by omega)
  rwa [Nat.zero_add] at this

end Uint128

/-! ### Which operations settle -/

section

open Fault

@[simp] theorem settles_query {α : Type} (x : StdResult α) : Settles (query x) := by
  cases x <;> simp

@[simp] theorem settles_genericErr {α : Type} (msg : String) : Settles (genericErr msg : Outcome α) := settles_err _

@[simp] theorem settles_mapErr {ε α : Type} {msg : ε → String} (x : Except ε α) : Settles (mapErr msg x) := by
  cases x <;> simp [mapErr]

theorem alike_mapErr {ε α : Type} {msg msg' : ε → String} {x y : Except ε α} (h : x=y) :
    Alike (mapErr msg x) (mapErr msg' y) := by
  subst h
  cases x with
  | error e => exact .err _ _
  | ok a => exact .refl _

@[simp] theorem settles_fits {bits n : ℕ} : Settles (fits bits n) ↔ n<2^bits := by
  unfold fits
  split_ifs with h <;> simp [h]

@[simp] theorem settles_fromRatio {n d : ℕ} :
    Settles (Decimal.fromRatio n d) ↔ d≠0 ∧ n*Decimal.fractional/d<2^128 := by
  unfold Decimal.fromRatio
  split_ifs with h
  · simp [h]
  · simp [settles_map,h]

/-- A number that has to fit, and what is done with it. -/
theorem settles_fits_bind {α : Type} {bits n : ℕ} {f : ℕ → Outcome α} :
    Settles (fits bits n >>= f) ↔ n<2^bits ∧ Settles (f n) := by
  unfold fits
  split_ifs with h <;> simp [h]

/-- A checked sum that does not fit is an error, and nothing follows it. -/
theorem settles_checkedAdd_bind {α : Type} {a b : ℕ} {f : ℕ → Outcome α} :
    Settles (Uint128.checkedAdd a b >>= f) ↔ (a+b<2^128 → Settles (f (a+b))) := by
  unfold Uint128.checkedAdd
  split_ifs with h
  · exact (imp_iff_right h).symm
  · exact iff_of_true (settles_err _) fun h' => absurd h' h

theorem settles_decimal_bind {α : Type} {n : ℕ} {f : Decimal → Outcome α} :
    Settles (Decimal.mk <$> fits 128 n >>= f) ↔ n<2^128 ∧ Settles (f ⟨n⟩) := by
  have hbind : (Decimal.mk <$> fits 128 n >>= f)=fits 128 n >>= fun n => f ⟨n⟩ := by cases fits 128 n <;> rfl
  rw [hbind,settles_fits_bind]

theorem settles_fromRatio_bind {α : Type} {n d : ℕ} {f : Decimal → Outcome α} :
    Settles (Decimal.fromRatio n d >>= f) ↔
      (d≠0 ∧ n*Decimal.fractional/d<2^128) ∧ Settles (f ⟨n*Decimal.fractional/d⟩) := by
  unfold Decimal.fromRatio
  split_ifs with h0
  · exact iff_of_false (fun h => h _ rfl trivial) fun h => h.1.1 h0
  · rw [settles_decimal_bind,and_iff_right (show d≠0 from h0)]

@[simp] theorem settles_div {a b : Decimal} :
    Settles (a.div b) ↔ b.atomics≠0 ∧ a.atomics*Decimal.fractional/b.atomics<2^128 := settles_fromRatio

@[simp] theorem settles_add {a b : Decimal} : Settles (a.add b) ↔ a.atomics+b.atomics<2^128 :=
  settles_map.trans settles_fits

@[simp] theorem settles_mul {a b : Decimal} : Settles (a.mul b) ↔ a.atomics*b.atomics/Decimal.fractional<2^128 :=
  settles_map.trans settles_fits

@[simp] theorem settles_mulFloor {a : ℕ} {d : Decimal} :
    Settles (Uint128.mulFloor a d) ↔ a*d.atomics/Decimal.fractional<2^128 := settles_fits

@[simp] theorem settles_mulCeil {a : ℕ} {d : Decimal} :
    Settles (Uint128.mulCeil a d) ↔ (a*d.atomics+(Decimal.fractional-1))/Decimal.fractional<2^128 := settles_fits

@[simp] theorem settles_divCeil {a : ℕ} {d : Decimal} : Settles (Uint128.divCeil a d) ↔
    d.atomics≠0 ∧ (a*Decimal.fractional+(d.atomics-1))/d.atomics<2^128 := by
  unfold Uint128.divCeil
  split_ifs with h <;> simp [h]

@[simp] theorem settles_checkedAdd {a b : ℕ} : Settles (Uint128.checkedAdd a b) := by
  unfold Uint128.checkedAdd
  split_ifs <;> simp

end

/-- `Timestamp`: nanoseconds since the epoch in a `u64`. -/
structure Timestamp where
  nanos : ℕ
  deriving DecidableEq, Repr

namespace Timestamp

def nanosPerSecond : ℕ := 10^9

def seconds (t : Timestamp) : ℕ := t.nanos/nanosPerSecond

def fromSeconds (s : ℕ) : Outcome Timestamp := Timestamp.mk <$> U64.mul s nanosPerSecond

def plusSeconds (t : Timestamp) (s : ℕ) : Outcome Timestamp := do
  let n ← U64.mul s nanosPerSecond
  Timestamp.mk <$> U64.add t.nanos n

def minusSeconds (t : Timestamp) (s : ℕ) : Outcome Timestamp := do
  let n ← U64.mul s nanosPerSecond
  Timestamp.mk <$> U64.sub t.nanos n

instance : LT Timestamp := ⟨fun a b => a.nanos<b.nanos⟩
instance : LE Timestamp := ⟨fun a b => a.nanos≤b.nanos⟩
instance (a b : Timestamp) : Decidable (a<b) := inferInstanceAs (Decidable (a.nanos<b.nanos))
instance (a b : Timestamp) : Decidable (a≤b) := inferInstanceAs (Decidable (a.nanos≤b.nanos))

end Timestamp

section

open Fault

theorem errorless_fits {bits n : ℕ} : Errorless (fits bits n) := by
  unfold fits
  split_ifs <;> simp

theorem U64.errorless_sub (a b : ℕ) : Errorless (U64.sub a b) := by
  unfold U64.sub
  split_ifs <;> simp

theorem U64.errorless_mod (a b : ℕ) : Errorless (U64.mod a b) := by
  unfold U64.mod
  split_ifs <;> simp

namespace Timestamp

theorem errorless_fromSeconds (s : ℕ) : Errorless (fromSeconds s) := errorless_map.mpr errorless_fits

theorem errorless_plusSeconds (t : Timestamp) (s : ℕ) : Errorless (t.plusSeconds s) :=
  errorless_bind errorless_fits fun _ _ => errorless_map.mpr errorless_fits

theorem errorless_minusSeconds (t : Timestamp) (s : ℕ) : Errorless (t.minusSeconds s) :=
  errorless_bind errorless_fits fun _ _ => errorless_map.mpr (U64.errorless_sub _ _)

end Timestamp

end

/-- `std::time::Duration`. -/
structure Duration where
  secs : ℕ
  nanos : ℕ
  deriving DecidableEq, Repr

end CalcRs
