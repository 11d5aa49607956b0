import CalcRs.Foundation.Lists
import CalcRs.Model.Distribution
import Mathlib.Algebra.BigOperators.Ring.List
import Mathlib.Algebra.Order.BigOperators.Group.List

/-! What one execution of a distribution pays: the payments are computed from one reading of the
balances, and a destination whose payment would be empty is left out of the message list and of the
distribution that is stored. -/
namespace CalcRs

/-- The bank answers every query about `address` with its balance. -/
def Deps.Answers (deps : Deps) (address : Addr) (balance : Denom → ℕ) : Prop :=
  ∀ denom, deps.queryBalance address denom=.ok ⟨balance denom,denom⟩

namespace Distribution

/-- `balance*shares/total` with the ratio rounded down to 18 decimals and the product to a whole unit. -/
def portion (balance shares total : ℕ) : ℕ := balance*(shares*Decimal.fractional/total)/Decimal.fractional

/-- The coins of the given amounts, without the zero ones. -/
def coinsOf (denoms : List Denom) (amount : Denom → ℕ) : List Coin :=
  (denoms.filter fun x => amount x≠0).map fun x => ⟨amount x,x⟩

/-- The payment of each destination: its portion of every balance, and for the last what remains. -/
def payouts (denoms : List Denom) (balance : Denom → ℕ) (total : ℕ) :
    List Destination → (Denom → ℕ) → List (Destination × List Coin)
  | [],_ => []
  | d :: rest,remaining =>
    let amount := if rest=[] then remaining else fun x => portion (balance x) d.shares total
    (d,coinsOf denoms amount) :: payouts denoms balance total rest fun x => remaining x-amount x

/-- All portions of a balance together are covered by it. -/
theorem portions_le (balance total : ℕ) (shares : List ℕ) (h : shares.sum≤total) :
    (shares.map fun s => portion balance s total).sum≤balance := by
  have hratio : (shares.map fun s => s*Decimal.fractional/total).sum≤Decimal.fractional := by
    have h1 := sum_div_le (shares.map (· *Decimal.fractional)) total
    rw [List.map_map,List.sum_map_mul_right] at h1
    rw [List.map_id'] at h1
    exact h1.trans (Decimal.ratio_le_one h)
  have h2 := sum_div_le (shares.map fun s => balance*(s*Decimal.fractional/total)) Decimal.fractional
  rw [List.map_map] at h2
  rw [List.sum_map_mul_left] at h2
  exact h2.trans (Decimal.scale_le balance hratio)

theorem coinsOf_cons (x : Denom) (denoms : List Denom) (amount : Denom → ℕ) :
    coinsOf (x :: denoms) amount=(if amount x=0 then [] else [⟨amount x,x⟩]) ++ coinsOf denoms amount := by
  by_cases h : amount x=0 <;> simp [coinsOf,h]

theorem coinsOf_eq_nil {denoms : List Denom} {amount : Denom → ℕ} :
    coinsOf denoms amount=[] ↔ ∀ x ∈ denoms, amount x=0 := by
  simp [coinsOf,List.filter_eq_nil_iff]

theorem amountIn_coinsOf {denoms : List Denom} (hn : denoms.Nodup) (amount : Denom → ℕ) (x : Denom) :
    amountIn x (coinsOf denoms amount)=if x ∈ denoms then amount x else 0 := by
  induction denoms with
  | nil => simp [coinsOf]
  | cons y denoms ih =>
    obtain ⟨hy,hn⟩ := List.nodup_cons.mp hn
    rw [coinsOf_cons,amountIn_append,ih hn]
    by_cases hx : x=y
    · subst hx
      by_cases h0 : amount x=0 <;> simp [hy,h0]
    · by_cases h0 : amount y=0 <;> simp [hx,Ne.symm hx,h0]

/-- The coins of one destination: no amount is more than what remains, so none is lost. -/
theorem denomShares_eq_ok {isFinal : Bool} {ratio : Decimal} {coins : List Coin} {remaining remaining' : Coins}
    {shares : List Coin} {amount : Denom → ℕ} (hn : (coins.map Coin.denom).Nodup)
    (hamount : ∀ c ∈ coins, amount c.denom=
      if isFinal then remaining.amountOf c.denom else c.amount*ratio.atomics/Decimal.fractional)
    (hle : ∀ c ∈ coins, amount c.denom ≤ remaining.amountOf c.denom)
    (h : denomShares isFinal ratio coins remaining=.ok (shares,remaining')) :
    shares=coinsOf (coins.map Coin.denom) amount ∧
      ∀ x, remaining'.amountOf x=remaining.amountOf x-if x ∈ coins.map Coin.denom then amount x else 0 := by
  induction coins generalizing remaining shares with
  | nil =>
    cases h
    simp [coinsOf]
  | cons c coins ih =>
    obtain ⟨hc,hn⟩ := List.nodup_cons.mp hn
    have hne : ∀ c' ∈ coins, c'.denom≠c.denom := fun c' hc' he => hc (List.mem_map.mpr ⟨c',hc',he⟩)
    have ha := hamount c (by simp)
    rw [denomShares] at h
    obtain ⟨a,hat,h⟩ := Except.bind_eq_ok.mp h
    obtain rfl : amount c.denom=a := by
      rw [ha]
      cases isFinal with
      | true => exact Except.ok.inj hat
      | false => exact (fits_eq_ok.mp hat).2
    split_ifs at h with h0
    · obtain ⟨hs,hr⟩ := ih hn (fun c' hc' => hamount c' (by simp [hc'])) (fun c' hc' => hle c' (by simp [hc'])) h
      refine ⟨by rw [List.map_cons,coinsOf_cons,if_pos h0,hs]; rfl,fun x => ?_⟩
      rw [hr]
      by_cases hx : x=c.denom
      · subst hx
        simp [h0,hc]
      · simp [hx]
    · rw [Coins.sub_of_le _ _ (hle c (by simp)),Fault.attempt_ok,Except.ok_bind] at h
      obtain ⟨⟨rest,r⟩,hrec,h⟩ := Except.bind_eq_ok.mp h
      cases h
      have hkeep : ∀ c' ∈ coins, (remaining.put c.denom (remaining.amountOf c.denom-amount c.denom)).amountOf c'.denom=
          remaining.amountOf c'.denom := fun c' hc' => by rw [Coins.amountOf_put,if_neg (hne c' hc')]
      obtain ⟨hs,hr⟩ := ih hn
        (fun c' hc' => by rw [hamount c' (by simp [hc']),hkeep c' hc'])
        (fun c' hc' => by rw [hkeep c' hc']; exact hle c' (by simp [hc'])) hrec
      refine ⟨by rw [List.map_cons,coinsOf_cons,if_neg h0,hs]; rfl,fun x => ?_⟩
      rw [hr,Coins.amountOf_put]
      by_cases hx : x=c.denom
      · subst hx
        simp [hc]
      · simp [hx]

theorem portion_eq_zero {balances : Coins} {x : Denom} (hx : x ∉ balances.toVec.map Coin.denom) (shares total : ℕ) :
    portion (balances.amountOf x) shares total=0 := by
  have h0 : balances.amountOf x=0 := by
    by_contra hne
    exact hx (List.mem_map.mpr ⟨⟨balances.amountOf x,x⟩,Coins.mem_toVec.mpr ⟨rfl,Nat.pos_of_ne_zero hne⟩,rfl⟩)
  simp [portion,h0]

/-- What one destination takes is its payout, and leaves room for the destinations after it. -/
theorem payouts_step {balances remaining remaining' : Coins} {total : ℕ} {d : Destination} {ds : List Destination}
    {ratio : Decimal} {coins : List Coin}
    (hroom : ∀ x, ((d :: ds).dropLast.map fun d => portion (balances.amountOf x) d.shares total).sum ≤ remaining.amountOf x)
    (hratio : Decimal.fromRatio d.shares total=.ok ratio)
    (hcoins : denomShares ds.isEmpty ratio balances.toVec remaining=.ok (coins,remaining')) :
    payouts (balances.toVec.map Coin.denom) balances.amountOf total (d :: ds) remaining.amountOf=
        (d,coins) :: payouts (balances.toVec.map Coin.denom) balances.amountOf total ds remaining'.amountOf ∧
      ∀ x, (ds.dropLast.map fun d => portion (balances.amountOf x) d.shares total).sum ≤ remaining'.amountOf x := by
  obtain ⟨_,_,rfl⟩ := Decimal.fromRatio_eq_ok.mp hratio
  let amount := if ds=[] then remaining.amountOf else fun x => portion (balances.amountOf x) d.shares total
  have hle : ∀ x, amount x ≤ remaining.amountOf x := fun x => by
    by_cases hds : ds=[]
    · simp [amount,hds]
    · have := hroom x
      rw [List.dropLast_cons_of_ne_nil hds,List.map_cons,List.sum_cons] at this
      simp only [amount,if_neg hds]
      omega
  have hamount : ∀ c ∈ balances.toVec, amount c.denom=if ds.isEmpty then remaining.amountOf c.denom
      else c.amount*(d.shares*Decimal.fractional/total)/Decimal.fractional := fun c hc => by
    by_cases hds : ds=[]
    · simp [amount,hds]
    · simp [amount,hds,portion,(Coins.mem_toVec.mp hc).1]
  obtain ⟨rfl,hrem⟩ := denomShares_eq_ok (Coins.toVec_denoms_nodup balances) hamount (fun c _ => hle c.denom) hcoins
  by_cases hds : ds=[]
  · simp [hds,payouts,amount]
  · have hleft : ∀ x, remaining'.amountOf x=remaining.amountOf x-amount x := fun x => by
      rw [hrem]
      split_ifs with hx
      · rfl
      · simp [amount,hds,portion_eq_zero hx]
    refine ⟨?_,fun x => ?_⟩
    · rw [funext hleft]
      rfl
    · have h1 := hroom x
      rw [List.dropLast_cons_of_ne_nil hds,List.map_cons,List.sum_cons] at h1
      rw [hleft]
      simp only [amount,if_neg hds]
      omega

/-- The payment loop sends and keeps exactly the payouts that are not empty. -/
theorem payDestinations_eq_ok {deps : Deps} {env : Env} {balances remaining : Coins} {total : ℕ}
    {ds ds' : List Destination} {messages : List CosmosMsg}
    (hroom : ∀ x, (ds.dropLast.map fun d => portion (balances.amountOf x) d.shares total).sum ≤ remaining.amountOf x)
    (h : payDestinations deps env balances total ds remaining=.ok (messages,ds')) :
    let kept := (payouts (balances.toVec.map Coin.denom) balances.amountOf total ds remaining.amountOf).filter
      fun p => p.2≠[]
    List.Forall₂ (fun p m => p.1.recipient.distributeMessage deps env p.2=.ok m) kept messages ∧
      List.Forall₂ (fun p d => tally p.1 p.2=.ok d) kept ds' := by
  induction ds generalizing remaining messages ds' with
  | nil =>
    cases h
    exact ⟨.nil,.nil⟩
  | cons d ds ih =>
    rw [payDestinations] at h
    obtain ⟨ratio,hratio,h⟩ := Except.bind_eq_ok.mp h
    obtain ⟨⟨coins,remaining'⟩,hcoins,h⟩ := Except.bind_eq_ok.mp h
    obtain ⟨hpay,hroom'⟩ := payouts_step hroom hratio hcoins
    intro kept
    have hkept : kept=_ := congrArg (List.filter fun p => decide (p.2≠[])) hpay
    rw [hkept,List.filter_cons]
    by_cases hnil : coins=[]
    · simp only [hnil,List.isEmpty_nil,if_true] at h
      rw [if_neg (by simp [hnil])]
      exact ih hroom' h
    · simp only [List.isEmpty_iff,hnil,if_false] at h
      obtain ⟨message,hm,h⟩ := Except.bind_eq_ok.mp h
      obtain ⟨updated,hu,h⟩ := Except.bind_eq_ok.mp h
      obtain ⟨⟨ms,us⟩,hrec,h⟩ := Except.bind_eq_ok.mp h
      cases h
      obtain ⟨h1,h2⟩ := ih hroom' hrec
      rw [if_pos (by simp [hnil])]
      exact ⟨.cons hm h1,.cons hu h2⟩

/-- What the distribution can see of a bank balance: the balances of its denoms. -/
def held (self : Distribution) (balance : Denom → ℕ) (x : Denom) : ℕ := if x ∈ self.denoms then balance x else 0

def totalShares (self : Distribution) : ℕ := (self.destinations.map Destination.shares).sum

theorem readBalances_eq_ok {self : Distribution} {deps : Deps} {env : Env} {balance : Denom → ℕ} {balances : Coins}
    (hn : self.denoms.Nodup) (hb : deps.Answers env.contract balance)
    (h : self.readBalances deps env=.ok balances) (x : Denom) : balances.amountOf x=self.held balance x := by
  have hfold : ∀ (denoms : List Denom) (start final : Coins), denoms.Nodup →
      denoms.foldlM (fun balances denom => do
        let coin ← query (deps.queryBalance env.contract denom)
        balances.add coin) start=.ok final →
      final.amountOf x=start.amountOf x+if x ∈ denoms then balance x else 0 := by
    intro denoms
    induction denoms with
    | nil =>
      intro start final _ h
      cases h
      simp
    | cons y denoms ih =>
      intro start final hn h
      obtain ⟨hy,hn⟩ := List.nodup_cons.mp hn
      rw [List.foldlM_cons] at h
      obtain ⟨next,hnext,h⟩ := Except.bind_eq_ok.mp h
      rw [hb y,query_ok,Except.ok_bind] at hnext
      rw [ih next final hn h,Coins.add_amountOf hnext]
      by_cases hx : x=y
      · subst hx
        simp [hy]
      · simp [hx,Ne.symm hx]
  simpa [held] using hfold self.denoms Coins.empty balances hn h

/-- The payouts of one execution, the empty ones included. -/
def payments (self : Distribution) (deps : Deps) (env : Env) : List (Destination × List Coin) :=
  match self.readBalances deps env with
  | .ok balances => payouts (balances.toVec.map Coin.denom) balances.amountOf self.totalShares self.destinations
      balances.amountOf
  | .error _ => []

@[simp] theorem payouts_fst (denoms : List Denom) (balance : Denom → ℕ) (total : ℕ) (ds : List Destination)
    (remaining : Denom → ℕ) : (payouts denoms balance total ds remaining).map Prod.fst=ds := by
  induction ds generalizing remaining with
  | nil => rfl
  | cons d ds ih => rw [payouts,List.map_cons,ih]

theorem payments_fst {self : Distribution} {deps : Deps} {env : Env} {balances : Coins}
    (h : self.readBalances deps env=.ok balances) : (self.payments deps env).map Prod.fst=self.destinations := by
  rw [payments,h]
  exact payouts_fst _ _ _ _ _

/-- One execution: nothing when there is no balance, else the payouts that are not empty. -/
theorem executeUnsafe_payments {self self' : Distribution} {deps : Deps} {env : Env} {messages : List CosmosMsg}
    (h : self.executeUnsafe deps env=.ok (messages,self')) :
    ∃ balances, self.readBalances deps env=.ok balances ∧
      ((∀ x, balances.amountOf x=0) ∧ messages=[] ∧ self'=self ∨
      (∃ x, balances.amountOf x≠0) ∧ self'.denoms=self.denoms ∧
        List.Forall₂ (fun p m => p.1.recipient.distributeMessage deps env p.2=.ok m)
          ((self.payments deps env).filter fun p => p.2≠[]) messages ∧
        List.Forall₂ (fun p d => tally p.1 p.2=.ok d) ((self.payments deps env).filter fun p => p.2≠[])
          self'.destinations) := by
  rw [executeUnsafe] at h
  obtain ⟨balances,hread,h⟩ := Except.bind_eq_ok.mp h
  refine ⟨balances,hread,?_⟩
  split_ifs at h with hempty
  · cases h
    exact .inl ⟨Coins.isEmpty_iff.mp hempty,rfl,rfl⟩
  · obtain ⟨total,htotal,h⟩ := Except.bind_eq_ok.mp h
    obtain ⟨⟨ms,ds⟩,hpay,h⟩ := Except.bind_eq_ok.mp h
    cases h
    obtain rfl : total=self.totalShares := Uint128.sum_eq_ok htotal
    have hroom : ∀ x, (self.destinations.dropLast.map fun d =>
        portion (balances.amountOf x) d.shares self.totalShares).sum≤balances.amountOf x := fun x => by
      have hle := portions_le (balances.amountOf x) self.totalShares (self.destinations.dropLast.map Destination.shares)
        (List.Sublist.sum_le_sum ((List.dropLast_sublist _).map _) fun _ _ => Nat.zero_le _)
      simpa [List.map_map,Function.comp_def] using hle
    obtain ⟨h1,h2⟩ := payDestinations_eq_ok hroom hpay
    rw [payments,hread]
    refine .inr ⟨?_,rfl,h1,h2⟩
    by_contra hne
    exact hempty (Coins.isEmpty_iff.mpr fun x => by_contra fun hx => hne ⟨x,hx⟩)

theorem mem_denoms_toVec {balances : Coins} {x : Denom} :
    x ∈ balances.toVec.map Coin.denom ↔ balances.amountOf x≠0 := by
  rw [List.mem_map]
  constructor
  · rintro ⟨c,hc,rfl⟩
    obtain ⟨h1,h2⟩ := Coins.mem_toVec.mp hc
    omega
  · intro hne
    exact ⟨⟨balances.amountOf x,x⟩,Coins.mem_toVec.mpr ⟨rfl,Nat.pos_of_ne_zero hne⟩,rfl⟩

/-- Something is paid out of a positive balance. -/
theorem payouts_exists_nonempty {denoms : List Denom} {balance remaining : Denom → ℕ} {total : ℕ}
    {ds : List Destination} {x : Denom} (hx : x ∈ denoms) (hpos : 0 < remaining x) (hds : ds≠[]) :
    ∃ p ∈ payouts denoms balance total ds remaining, p.2≠[] := by
  induction ds generalizing remaining with
  | nil => exact absurd rfl hds
  | cons d ds ih =>
    rw [payouts]
    by_cases hnil : ds=[]
    · refine ⟨_,List.mem_cons_self,?_⟩
      simp only [hnil,if_true,ne_eq,coinsOf_eq_nil]
      exact fun h => absurd (h x hx) (by omega)
    · by_cases h0 : portion (balance x) d.shares total=0
      · have hleft : 0 < remaining x-portion (balance x) d.shares total := by omega
        obtain ⟨p,hp,hne⟩ := @ih (fun y => remaining y-portion (balance y) d.shares total) hleft hnil
        refine ⟨p,List.mem_cons_of_mem _ ?_,hne⟩
        rwa [if_neg hnil]
      · refine ⟨_,List.mem_cons_self,?_⟩
        simp only [hnil,if_false,ne_eq,coinsOf_eq_nil]
        exact fun h => h0 (h x hx)

/-- An execution that sends nothing stores nothing new. -/
theorem executeUnsafe_silent {self self' : Distribution} {deps : Deps} {env : Env}
    (h : self.executeUnsafe deps env=.ok ([],self')) : self'=self := by
  obtain ⟨balances,hread,⟨_,_,rfl⟩ | ⟨⟨x,hx⟩,hdenoms,hm,ht⟩⟩ := executeUnsafe_payments h
  · rfl
  · have hnone := List.forall₂_nil_right_iff.mp hm
    rw [hnone] at ht
    have hdest := List.forall₂_nil_left_iff.mp ht
    by_cases hds : self.destinations=[]
    · cases self; cases self'
      simp_all
    · obtain ⟨p,hp,hne⟩ : ∃ p ∈ payouts (balances.toVec.map Coin.denom) balances.amountOf self.totalShares
          self.destinations balances.amountOf, p.2≠[] :=
        payouts_exists_nonempty (mem_denoms_toVec.mpr hx) (Nat.pos_of_ne_zero hx) hds
      have hmem : p ∈ (self.payments deps env).filter fun p => p.2≠[] :=
        List.mem_filter.mpr ⟨by rw [payments,hread]; exact hp,by simpa using hne⟩
      rw [hnone] at hmem
      cases hmem

end Distribution
end CalcRs
