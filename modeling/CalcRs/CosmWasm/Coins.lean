import CalcRs.CosmWasm.Std
import CalcRs.Foundation.Table
import Mathlib.Data.String.Basic

/-! Coins and `Coins`, the ordered collection of nonzero coins with distinct denoms. -/
namespace CalcRs

abbrev Addr := String
abbrev Denom := String
abbrev Binary := List UInt8

def asBytes (s : String) : Binary := s.toUTF8.toList

structure Coin where
  amount : ℕ
  denom : Denom
  deriving DecidableEq, Repr

/-- The amount of one denom in a list of coins. -/
def amountIn (d : Denom) (coins : List Coin) : ℕ :=
  (coins.map fun c => if c.denom=d then c.amount else 0).sum

@[simp] theorem amountIn_nil (d : Denom) : amountIn d []=0 := rfl

@[simp] theorem amountIn_cons (d : Denom) (c : Coin) (cs : List Coin) :
    amountIn d (c :: cs)=(if c.denom=d then c.amount else 0)+amountIn d cs := by simp [amountIn]

@[simp] theorem amountIn_append (d : Denom) (xs ys : List Coin) :
    amountIn d (xs ++ ys)=amountIn d xs+amountIn d ys := by simp [amountIn]

theorem amountIn_eq_zero {d : Denom} {cs : List Coin} (h : d ∉ cs.map Coin.denom) : amountIn d cs=0 := by
  induction cs with
  | nil => rfl
  | cons c cs ih =>
    simp only [List.map_cons,List.mem_cons,not_or] at h
    rw [amountIn_cons,if_neg (Ne.symm h.1),ih h.2]

/-- `Coins`: a `BTreeMap` from denoms to amounts without zero amounts. -/
structure Coins where
  table : Table Denom ℕ
  positive : ∀ e ∈ table.entries, 0<e.2

namespace Coins

@[ext] theorem ext_table {a b : Coins} (h : a.table=b.table) : a=b := by
  cases a; cases b; cases h; rfl

instance : DecidableEq Coins := fun a b => decidable_of_iff (a.table=b.table) ⟨ext_table,fun h => h ▸ rfl⟩

/-- `Coins::default()`. -/
def empty : Coins := ⟨Table.empty,by simp [Table.empty]⟩

/-- `Coins::amount_of`. -/
def amountOf (c : Coins) (d : Denom) : ℕ := (c.table.get? d).getD 0

def isEmpty (c : Coins) : Bool := c.table.isEmpty

/-- The collection with the amount of one denom replaced. -/
def put (c : Coins) (d : Denom) (n : ℕ) : Coins :=
  if h : n=0 then ⟨c.table.erase d,fun e he => c.positive e (Table.mem_erase.mp he).2⟩
  else ⟨c.table.insert d n,fun e he => by
    rcases Table.mem_insert.mp he with rfl | ⟨_,he⟩
    · exact Nat.pos_of_ne_zero h
    · exact c.positive e he⟩

/-- `Coins::add`. -/
def add (c : Coins) (coin : Coin) : Outcome Coins :=
  if coin.amount=0 then .ok c
  else match c.table.get? coin.denom with
    | none => .ok (c.put coin.denom coin.amount)
    | some existing => do
      let total ← Uint128.checkedAdd existing coin.amount
      return c.put coin.denom total

/-- `Coins::sub`. -/
def sub (c : Coins) (coin : Coin) : Outcome Coins :=
  match c.table.get? coin.denom with
  | some existing => do
    let rest ← Uint128.checkedSub existing coin.amount
    return c.put coin.denom rest
  | none => if coin.amount=0 then .ok c else .error (.err (.overflow "Sub"))

/-- `to_vec`, `into_vec` and iteration: ascending by denom. -/
def toVec (c : Coins) : List Coin := c.table.entries.map fun e => ⟨e.2,e.1⟩

/-- Adding several coins one after the other. -/
def addAll (c : Coins) (coins : List Coin) : Outcome Coins := coins.foldlM add c

/-- `Coins::try_from(Vec<Coin>)`: zero coins are skipped, a repeated denom is an error. -/
def tryFrom (coins : List Coin) : Outcome Coins :=
  coins.foldlM (fun m coin =>
    if coin.amount=0 then .ok m
    else if (m.table.get? coin.denom).isSome then genericErr "Duplicate denom"
    else .ok (m.put coin.denom coin.amount)) empty

@[simp] theorem amountOf_empty (d : Denom) : empty.amountOf d=0 := rfl

theorem get?_pos {c : Coins} {d : Denom} {n : ℕ} (h : c.table.get? d=some n) : 0<n :=
  c.positive (d,n) (Table.get?_eq_some_iff.mp h)

theorem amountOf_put (c : Coins) (d d' : Denom) (n : ℕ) :
    (c.put d n).amountOf d'=if d'=d then n else c.amountOf d' := by
  unfold put amountOf
  split_ifs with hn hd hd
  · simp [hd,hn]
  · simp [Table.get?_erase,hd]
  · simp [hd]
  · simp [Table.get?_insert,hd]

/-- Collections are determined by their amounts. -/
theorem ext_amountOf {a b : Coins} (h : ∀ d, a.amountOf d=b.amountOf d) : a=b := by
  apply ext_table
  apply Table.ext_get?
  intro d
  have hd := h d
  unfold amountOf at hd
  cases ha : a.table.get? d with
  | none =>
    cases hb : b.table.get? d with
    | none => rfl
    | some n =>
      have hp := get?_pos hb
      simp [ha,hb] at hd
      omega
  | some m =>
    have hp := get?_pos ha
    cases hb : b.table.get? d with
    | none => simp [ha,hb] at hd; omega
    | some n => simpa [ha,hb] using hd

theorem put_amountOf_zero (c : Coins) (d : Denom) (h : c.amountOf d=0) : c.put d 0=c := by
  apply ext_amountOf
  intro d'
  rw [amountOf_put]
  split_ifs with hd
  · rw [hd,h]
  · rfl

theorem get?_eq_of_amountOf (c : Coins) (d : Denom) :
    c.table.get? d=if c.amountOf d=0 then none else some (c.amountOf d) := by
  unfold amountOf
  cases h : c.table.get? d with
  | none => simp
  | some n =>
    have := get?_pos h
    simp only [Option.getD_some]
    rw [if_neg (by omega)]

/-- Adding a coin that fits raises the amount of its denom. -/
theorem add_of_lt (c : Coins) (coin : Coin) (h : c.amountOf coin.denom+coin.amount<2^128) :
    c.add coin=.ok (c.put coin.denom (c.amountOf coin.denom+coin.amount)) := by
  unfold add
  split_ifs with h0
  · congr 1
    apply ext_amountOf
    intro d
    rw [amountOf_put]
    split_ifs with hd
    · rw [hd,h0,Nat.add_zero]
    · rfl
  · cases hg : c.table.get? coin.denom with
    | none => simp [amountOf,hg]
    | some n =>
      have hn : c.amountOf coin.denom=n := by simp [amountOf,hg]
      have ha := Uint128.checkedAdd_eq_ok.mpr ⟨hn ▸ h,rfl⟩
      simp only [ha,hn,Except.ok_bind,Except.pure_eq_ok]

theorem add_amountOf {c c' : Coins} {coin : Coin} (h : c.add coin=.ok c') (d : Denom) :
    c'.amountOf d=c.amountOf d+if coin.denom=d then coin.amount else 0 := by
  unfold add at h
  split_ifs at h with h0
  · obtain rfl := Except.ok.inj h
    simp [h0]
  · cases hg : c.table.get? coin.denom with
    | none =>
      rw [hg] at h
      obtain rfl := Except.ok.inj h
      have h1 : c.amountOf coin.denom=0 := by simp [amountOf,hg]
      rw [amountOf_put]
      by_cases hd : d=coin.denom
      · simp [hd,h1]
      · simp [hd,Ne.symm hd]
    | some n =>
      rw [hg] at h
      obtain ⟨m,hm,h⟩ := Except.bind_eq_ok.mp h
      obtain rfl := Except.ok.inj h
      have h1 : c.amountOf coin.denom=n := by simp [amountOf,hg]
      have h2 := (Uint128.checkedAdd_eq_ok.mp hm).2
      rw [amountOf_put]
      by_cases hd : d=coin.denom
      · simp [hd,h1,h2]
      · simp [hd,Ne.symm hd]

theorem addAll_amountOf {coins : List Coin} {c c' : Coins} (h : c.addAll coins=.ok c') (d : Denom) :
    c'.amountOf d=c.amountOf d+amountIn d coins := by
  induction coins generalizing c with
  | nil =>
    obtain rfl := Except.ok.inj h
    rfl
  | cons x xs ih =>
    rw [addAll,List.foldlM_cons] at h
    obtain ⟨c₁,h₁,h₂⟩ := Except.bind_eq_ok.mp h
    rw [ih h₂,add_amountOf h₁,amountIn_cons,Nat.add_assoc]

/-- What is added uses up the room that is left below `2^128`. -/
theorem add_room {c c' : Coins} {coin : Coin} (h : c.add coin=.ok c') (hne : coin.amount≠0) :
    2^128-c'.amountOf coin.denom<2^128-c.amountOf coin.denom := by
  have hsum := add_amountOf h coin.denom
  rw [if_pos rfl] at hsum
  have hlt : c.amountOf coin.denom<2^128 := by
    unfold add at h
    rw [if_neg hne] at h
    cases hg : c.table.get? coin.denom with
    | none => simp [amountOf,hg]
    | some n =>
      rw [hg] at h
      obtain ⟨_,hm,_⟩ := Except.bind_eq_ok.mp h
      have hfits := (Uint128.checkedAdd_eq_ok.mp hm).1
      have hn : c.amountOf coin.denom=n := by simp [amountOf,hg]
      omega
  omega

theorem addAll_room {coins : List Coin} {c c' : Coins} (h : c.addAll coins=.ok c') {d : Denom}
    (hne : amountIn d coins≠0) : 2^128-c'.amountOf d<2^128-c.amountOf d := by
  induction coins generalizing c with
  | nil => exact absurd rfl hne
  | cons x xs ih =>
    rw [addAll,List.foldlM_cons] at h
    obtain ⟨c₁,h₁,h₂⟩ := Except.bind_eq_ok.mp h
    have hfirst := add_amountOf h₁ d
    have hrest := addAll_amountOf h₂ d
    by_cases hx : x.denom=d ∧ x.amount≠0
    · obtain ⟨rfl,hx⟩ := hx
      have := add_room h₁ hx
      omega
    · have hzero : (if x.denom=d then x.amount else 0)=0 := by
        split_ifs with hd
        · exact not_not.mp fun h0 => hx ⟨hd,h0⟩
        · rfl
      rw [amountIn_cons,hzero,Nat.zero_add] at hne
      have := ih h₂ hne
      omega

/-- Taking out an amount that is there lowers the amount of its denom. -/
theorem sub_of_le (c : Coins) (coin : Coin) (h : coin.amount≤c.amountOf coin.denom) :
    c.sub coin=.ok (c.put coin.denom (c.amountOf coin.denom-coin.amount)) := by
  unfold sub
  cases hg : c.table.get? coin.denom with
  | none =>
    have h0 : c.amountOf coin.denom=0 := by simp [amountOf,hg]
    have h1 : coin.amount=0 := by omega
    simp [h1,h0,put_amountOf_zero]
  | some n =>
    have hn : c.amountOf coin.denom=n := by simp [amountOf,hg]
    have hs := Uint128.checkedSub_eq_ok.mpr ⟨hn ▸ h,rfl⟩
    simp only [hs,hn,Except.ok_bind,Except.pure_eq_ok]

theorem mem_toVec {c : Coins} {coin : Coin} :
    coin ∈ c.toVec ↔ c.amountOf coin.denom=coin.amount ∧ 0<coin.amount := by
  have hm : coin ∈ c.toVec ↔ c.table.get? coin.denom=some coin.amount := by
    rw [Table.get?_eq_some_iff,toVec,List.mem_map]
    constructor
    · rintro ⟨e,he,rfl⟩; exact he
    · intro h; exact ⟨_,h,rfl⟩
  rw [hm,get?_eq_of_amountOf]
  constructor
  · intro h
    split_ifs at h with h0
    have := Option.some.inj h
    omega
  · rintro ⟨h,hp⟩
    rw [if_neg (by omega),h]

theorem toVec_denoms_nodup (c : Coins) : (c.toVec.map Coin.denom).Nodup := by
  have h := c.table.keys_nodup
  simpa [toVec,Table.keys,List.map_map,Function.comp_def] using h

/-- A sum over the entries of one denom is a value of its amount. -/
theorem sum_toVec (c : Coins) (d : Denom) {g : ℕ → ℕ} (hg : g 0=0) :
    (c.toVec.map fun coin => if coin.denom=d then g coin.amount else 0).sum=g (c.amountOf d) := by
  have hkey : ∀ es : List (Denom × ℕ), (es.map Prod.fst).Nodup →
      ((es.map fun e => Coin.mk e.2 e.1).map fun coin => if coin.denom=d then g coin.amount else 0).sum=
        g (((es.find? (fun e => e.1=d)).map Prod.snd).getD 0) := by
    intro es hes
    induction es with
    | nil => exact hg.symm
    | cons e es ih =>
      rw [List.map_cons,List.nodup_cons] at hes
      rw [List.map_cons,List.map_cons,List.sum_cons,ih hes.2,List.find?_cons]
      by_cases he : e.1=d
      · have hnone : es.find? (fun e => e.1=d)=none := by
          apply List.find?_eq_none.mpr
          intro e' he' hd
          exact hes.1 (List.mem_map.mpr ⟨e',he',(by simpa using hd : e'.1=d).trans he.symm⟩)
        simp [he,hnone,hg]
      · simp [he]
  exact hkey _ c.table.keys_nodup

theorem amountIn_toVec (c : Coins) (d : Denom) : amountIn d c.toVec=c.amountOf d := @sum_toVec c d id rfl

/-- An accepted list has the same amounts as the collection made from it. -/
theorem tryFrom_amountOf {coins : List Coin} {c : Coins} (h : tryFrom coins=.ok c) (d : Denom) :
    c.amountOf d=amountIn d coins := by
  have hfold : ∀ (coins : List Coin) (start : Coins), coins.foldlM (fun m coin =>
      if coin.amount=0 then .ok m
      else if (m.table.get? coin.denom).isSome then genericErr "Duplicate denom"
      else .ok (m.put coin.denom coin.amount)) start=.ok c → c.amountOf d=start.amountOf d+amountIn d coins := by
    intro coins
    induction coins with
    | nil =>
      intro start h
      cases h
      rfl
    | cons coin coins ih =>
      intro start h
      rw [List.foldlM_cons] at h
      obtain ⟨next,hnext,h⟩ := Except.bind_eq_ok.mp h
      rw [ih next h,amountIn_cons]
      split_ifs at hnext with h0 hdup
      · cases hnext
        simp [h0]
      · cases hnext
      · cases hnext
        have hstart : start.amountOf coin.denom=0 := by
          rw [amountOf,Option.not_isSome_iff_eq_none.mp hdup]
          rfl
        rw [amountOf_put]
        by_cases hd : d=coin.denom
        · subst hd
          simp [hstart]
        · simp [hd,Ne.symm hd]
  simpa using hfold coins empty h

/-- A list of coins of distinct denoms is accepted. -/
theorem tryFrom_of_nodup {coins : List Coin} (h : (coins.map Coin.denom).Nodup) : ∃ c, tryFrom coins=.ok c := by
  have hfold : ∀ (coins : List Coin) (start : Coins), (coins.map Coin.denom).Nodup →
      (∀ coin ∈ coins, start.amountOf coin.denom=0) → ∃ c, coins.foldlM (fun m coin =>
        if coin.amount=0 then .ok m
        else if (m.table.get? coin.denom).isSome then genericErr "Duplicate denom"
        else .ok (m.put coin.denom coin.amount)) start=.ok c := by
    intro coins
    induction coins with
    | nil => exact fun start _ _ => ⟨start,rfl⟩
    | cons coin coins ih =>
      intro start hn hz
      obtain ⟨hc,hn⟩ := List.nodup_cons.mp hn
      have hnone : start.table.get? coin.denom=none := by
        rw [get?_eq_of_amountOf,if_pos (hz coin (by simp))]
      have hnext : ∀ n, ∀ c ∈ coins, (start.put coin.denom n).amountOf c.denom=0 := fun n c hmem => by
        rw [amountOf_put,if_neg fun he => hc (List.mem_map.mpr ⟨c,hmem,he⟩),hz c (by simp [hmem])]
      rw [List.foldlM_cons]
      by_cases h0 : coin.amount=0
      · rw [if_pos h0]
        exact ih start hn fun c hmem => hz c (by simp [hmem])
      · rw [if_neg h0,hnone]
        exact ih _ hn (hnext coin.amount)
  exact hfold coins empty h fun _ _ => rfl

theorem isEmpty_iff {c : Coins} : c.isEmpty=true ↔ ∀ d, c.amountOf d=0 := by
  rw [isEmpty,Table.isEmpty_iff]
  constructor
  · intro h d
    simp [amountOf,h d]
  · intro h d
    rw [get?_eq_of_amountOf,if_pos (h d)]

/-- Nothing but this amount of this denom. -/
def only (denom : Denom) (amount : ℕ) : Coins := empty.put denom amount

theorem toVec_only {denom : Denom} {amount : ℕ} (h : amount≠0) : (only denom amount).toVec=[⟨amount,denom⟩] := by
  rw [only,put,dif_neg h]
  rfl

theorem isEmpty_only {denom : Denom} {amount : ℕ} : (only denom amount).isEmpty=true ↔ amount=0 := by
  constructor
  · intro h
    by_contra hne
    have := isEmpty_iff.mp h denom
    rw [only,amountOf_put,if_pos rfl] at this
    exact hne this
  · rintro rfl
    rfl

theorem empty_add (denom : Denom) (amount : ℕ) : empty.add ⟨amount,denom⟩=.ok (only denom amount) := by
  by_cases h : amount=0
  · subst h
    rfl
  · rw [add,if_neg h]
    rfl

theorem settles_add (c : Coins) (coin : Coin) : Fault.Settles (c.add coin) := by
  rw [add]
  split_ifs
  · exact Fault.settles_ok _
  · cases c.table.get? coin.denom with
    | none => exact Fault.settles_ok _
    | some n => exact Fault.settles_bind.mpr ⟨settles_checkedAdd,fun _ _ => Fault.settles_pure _⟩

theorem settles_sub (c : Coins) (coin : Coin) : Fault.Settles (c.sub coin) := by
  rw [sub]
  cases c.table.get? coin.denom with
  | none => split_ifs <;> simp
  | some n =>
    rw [Fault.settles_bind]
    refine ⟨?_,fun _ _ => Fault.settles_pure _⟩
    rw [Uint128.checkedSub]
    split_ifs <;> simp

theorem sub_amountOf_le {c c' : Coins} {coin : Coin} (h : c.sub coin=.ok c') :
    c'.amountOf coin.denom ≤ c.amountOf coin.denom := by
  rw [sub] at h
  cases hg : c.table.get? coin.denom with
  | none =>
    rw [hg] at h
    dsimp only at h
    split_ifs at h
    cases h
    exact le_rfl
  | some n =>
    rw [hg] at h
    obtain ⟨m,hm,h⟩ := Except.bind_eq_ok.mp h
    obtain rfl := Except.ok.inj h
    rw [Coins.amountOf_put,if_pos rfl,Coins.amountOf,hg]
    exact (Uint128.checkedSub_eq_ok.mp hm).2 ▸ Nat.sub_le _ _

/-! ### Collections of amounts that fit -/

def Bounded (c : Coins) : Prop := ∀ x, c.amountOf x<2^128

/-- Adding a coin returns if and only if the sum fits. -/
theorem add_iff {c : Coins} {coin : Coin} (hc : c.Bounded) (hcoin : coin.amount<2^128) :
    (∃ c', c.add coin=.ok c') ↔ c.amountOf coin.denom+coin.amount<2^128 := by
  constructor
  · rintro ⟨c',h⟩
    rw [add] at h
    split_ifs at h with h0
    · rw [h0]
      exact hc _
    · cases hg : c.table.get? coin.denom with
      | none =>
        rw [amountOf,hg]
        simpa using hcoin
      | some n =>
        rw [hg] at h
        obtain ⟨_,hm,_⟩ := Except.bind_eq_ok.mp h
        rw [amountOf,hg]
        exact (Uint128.checkedAdd_eq_ok.mp hm).1
  · exact fun h => ⟨_,add_of_lt c coin h⟩

theorem addAll_iff {coins : List Coin} {c : Coins} (hc : c.Bounded) (hcoins : ∀ coin ∈ coins, coin.amount<2^128) :
    (∃ c', c.addAll coins=.ok c') ↔ ∀ x, c.amountOf x+amountIn x coins<2^128 := by
  induction coins generalizing c with
  | nil => exact ⟨fun _ x => hc x,fun _ => ⟨c,rfl⟩⟩
  | cons coin coins ih =>
    have hadd := add_iff hc (hcoins coin (by simp))
    rw [addAll,List.foldlM_cons]
    constructor
    · rintro ⟨c',h⟩ x
      obtain ⟨next,hnext,h⟩ := Except.bind_eq_ok.mp h
      have hb : next.Bounded := fun y => by
        rw [add_amountOf hnext]
        split_ifs with hy
        · exact hy ▸ hadd.mp ⟨next,hnext⟩
        · exact hc y
      have := (ih hb fun coin hm => hcoins coin (by simp [hm])).mp ⟨c',h⟩ x
      rw [add_amountOf hnext] at this
      rw [amountIn_cons]
      omega
    · intro h
      have hfirst := h coin.denom
      rw [amountIn_cons,if_pos rfl] at hfirst
      obtain ⟨next,hnext⟩ := hadd.mpr (by omega)
      have hsum : ∀ y, next.amountOf y+amountIn y coins<2^128 := fun y => by
        have hy := h y
        rw [amountIn_cons] at hy
        rw [add_amountOf hnext]
        omega
      obtain ⟨c',hc'⟩ := (ih (c := next) (fun y => (Nat.le_add_right _ _).trans_lt (hsum y))
        fun coin hm => hcoins coin (by simp [hm])).mpr hsum
      exact ⟨c',by rw [hnext,Except.ok_bind]; exact hc'⟩

/-- A list of two coins is refused if and only if both count and share their denom. -/
theorem tryFrom_pair_iff (r f : ℕ) (a b : Denom) :
    (∃ c, tryFrom [⟨r,a⟩,⟨f,b⟩]=.ok c) ↔ (a=b → r=0 ∨ f=0) := by
  rw [tryFrom,List.foldlM_cons]
  by_cases hr : r=0
  · rw [if_pos hr,Except.ok_bind,List.foldlM_cons]
    refine iff_of_true ?_ fun _ => .inl hr
    by_cases hf : f=0
    · exact ⟨_,by rw [if_pos hf]; rfl⟩
    · exact ⟨_,by rw [if_neg hf]; rfl⟩
  · have hget : ((empty.table.get? a).isSome)=false := rfl
    rw [if_neg hr,hget,if_neg (by decide),Except.ok_bind,List.foldlM_cons]
    have hput : ((empty.put a r).table.get? b).isSome=true ↔ a=b := by
      rw [get?_eq_of_amountOf,amountOf_put]
      by_cases hab : b=a
      · simp [hab,hr]
      · simp [hab,Ne.symm hab]
    by_cases hf : f=0
    · refine iff_of_true ⟨_,by rw [if_pos hf]; rfl⟩ fun _ => .inr hf
    · rw [if_neg hf]
      by_cases hab : a=b
      · rw [if_pos (hput.mpr hab)]
        refine iff_of_false ?_ fun h => (h hab).elim hr hf
        rintro ⟨c,h⟩
        cases h
      · rw [if_neg fun h => hab (hput.mp h)]
        exact iff_of_true ⟨_,rfl⟩ fun h => absurd h hab

end Coins
end CalcRs
