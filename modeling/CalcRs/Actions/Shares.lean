import CalcRs.Foundation.Lists
import CalcRs.Actions.Payouts
import Mathlib.Tactic.Linarith
import Mathlib.Tactic.Ring

/-! Each payment of one execution is the destination's share of the balance, up to rounding. -/
namespace CalcRs

/-- The message pays these coins to the recipient. -/
def Recipient.PaidBy (self : Recipient) (coins : List Coin) (message : CosmosMsg) : Prop :=
  match self with
  | .bank address => message=.bankSend address coins
  | .contract address msg => message=.wasmExecute address (.raw msg) coins
  | .deposit memo => ∃ signer, message=.deposit ⟨memo,coins,signer⟩

theorem Recipient.distributeMessage_eq_ok {self : Recipient} {deps : Deps} {env : Env} {coins : List Coin}
    {message : CosmosMsg} (h : self.distributeMessage deps env coins=.ok message) : self.PaidBy coins message := by
  cases self with
  | bank address => exact (Except.ok.inj h).symm
  | contract address msg => exact (Except.ok.inj h).symm
  | deposit memo =>
    obtain ⟨signer,_,h⟩ := Except.bind_eq_ok.mp h
    exact ⟨signer,(Except.ok.inj h).symm⟩

theorem Recipient.PaidBy.funds {self : Recipient} {coins : List Coin} {message : CosmosMsg}
    (h : self.PaidBy coins message) : message.funds=coins := by
  cases self with
  | bank address => rw [show message=_ from h]; rfl
  | contract address msg => rw [show message=_ from h]; rfl
  | deposit memo =>
    obtain ⟨signer,rfl⟩ := h
    rfl

namespace Distribution

/-- The amount is a share of the balance; what `dust` others lose by rounding may be added. -/
structure Share (balance shares total dust amount : ℕ) : Prop where
  atLeast : balance*shares*Decimal.fractional≤((amount+1)*Decimal.fractional+balance)*total
  atMost : amount*total*Decimal.fractional≤balance*shares*Decimal.fractional+dust*(Decimal.fractional+balance)*total

variable {balance total : ℕ}

theorem portion_mul_le (balance s total : ℕ) : portion balance s total*total≤balance*s :=
  Decimal.scaled_mul_le balance s total

theorem lt_portion_mul (balance s : ℕ) (ht : 0<total) :
    balance*s*Decimal.fractional<((portion balance s total+1)*Decimal.fractional+balance)*total :=
  Decimal.lt_scaled balance s ht

theorem share_portion (s : ℕ) (ht : 0<total) : Share balance s total 0 (portion balance s total) := by
  refine ⟨(lt_portion_mul balance s ht).le,?_⟩
  have := Nat.mul_le_mul_right Decimal.fractional (portion_mul_le balance s total)
  omega

/-- What all but the last leave is a share, too; it holds what the others lost. -/
theorem share_rest (shares : List ℕ) (s : ℕ) (ht : 0<total) (hsum : shares.sum+s=total) :
    Share balance s total shares.length (balance-(shares.map fun s => portion balance s total).sum) := by
  have hupper : (shares.map fun s => portion balance s total).sum*total≤balance*shares.sum := by
    clear hsum
    induction shares with
    | nil => simp
    | cons s' shares ih =>
      have := portion_mul_le balance s' total
      simp only [List.map_cons,List.sum_cons]
      linarith
  have hlower : balance*shares.sum*Decimal.fractional≤
      ((shares.map fun s => portion balance s total).sum*Decimal.fractional+
        shares.length*(Decimal.fractional+balance))*total := by
    clear hsum hupper
    induction shares with
    | nil => simp
    | cons s' shares ih =>
      have := lt_portion_mul balance s' ht
      simp only [List.map_cons,List.sum_cons,List.length_cons]
      linarith
  have hle := portions_le balance total shares (by omega)
  generalize (shares.map fun s => portion balance s total).sum=paid at hupper hlower hle ⊢
  obtain ⟨rest,rfl⟩ := Nat.le.dest hle
  rw [Nat.add_sub_cancel_left]
  have hsplit : (paid+rest)*total=(paid+rest)*shares.sum+(paid+rest)*s := by rw [← hsum,Nat.mul_add]
  have hscale := congrArg (· *Decimal.fractional) hsplit
  simp only [Nat.add_mul] at hupper hlower hsplit hscale
  constructor
  · have h1 : (paid+rest)*s ≤ rest*total := by
      simp only [Nat.add_mul]
      linarith
    have h2 := Nat.mul_le_mul_right Decimal.fractional h1
    nlinarith [Nat.zero_le (Decimal.fractional*total),Nat.zero_le ((paid+rest)*total)]
  · simp only [Nat.add_mul]
    nlinarith

/-! ### The payouts of one execution -/

/-- The amounts of the payouts: portions, and for the last what remains. -/
theorem payouts_amount {denoms : List Denom} (hn : denoms.Nodup) {x : Denom} (hx : x ∈ denoms)
    {balance : Denom → ℕ} {ds : List Destination} {remaining : Denom → ℕ} {i : ℕ} {p : Destination × List Coin}
    (hp : (payouts denoms balance total ds remaining)[i]?=some p) :
    amountIn x p.2=if i+1=ds.length then
      remaining x-(ds.dropLast.map fun d => portion (balance x) d.shares total).sum
      else portion (balance x) p.1.shares total := by
  induction ds generalizing remaining i with
  | nil => simp [payouts] at hp
  | cons d ds ih =>
    rw [payouts] at hp
    cases i with
    | zero =>
      obtain rfl := Option.some.inj hp
      by_cases hnil : ds=[]
      · simp [hnil,amountIn_coinsOf hn,hx]
      · have hlen : ds.length≠0 := fun h => hnil (List.length_eq_zero_iff.mp h)
        simp [hnil,amountIn_coinsOf hn,hx,hlen]
    | succ i =>
      have hds : ds≠[] := fun h => by simp [h,payouts] at hp
      have hrec := ih (by simpa using hp)
      rw [hrec,List.dropLast_cons_of_ne_nil hds,List.map_cons,List.sum_cons,List.length_cons]
      simp only [hds,if_false,Nat.add_right_cancel_iff,Nat.sub_sub]

/-- Together the payouts are the whole balance. -/
theorem payouts_sum {denoms : List Denom} (hn : denoms.Nodup) {x : Denom} (hx : x ∈ denoms) {balance : Denom → ℕ}
    {ds : List Destination} {remaining : Denom → ℕ} (hds : ds≠[])
    (hroom : (ds.dropLast.map fun d => portion (balance x) d.shares total).sum ≤ remaining x) :
    ((payouts denoms balance total ds remaining).map fun p => amountIn x p.2).sum=remaining x := by
  induction ds generalizing remaining with
  | nil => exact absurd rfl hds
  | cons d ds ih =>
    rw [payouts,List.map_cons,List.sum_cons,amountIn_coinsOf hn,if_pos hx]
    by_cases hnil : ds=[]
    · simp [hnil,payouts]
    · rw [List.dropLast_cons_of_ne_nil hnil,List.map_cons,List.sum_cons] at hroom
      simp only [hnil,if_false]
      rw [ih hnil (by omega)]
      omega

theorem payouts_coins {denoms : List Denom} {balance remaining : Denom → ℕ} {ds : List Destination}
    {p : Destination × List Coin} (hp : p ∈ payouts denoms balance total ds remaining) :
    ∃ amount, p.2=coinsOf denoms amount := by
  induction ds generalizing remaining with
  | nil => cases hp
  | cons d ds ih =>
    rcases List.mem_cons.mp hp with rfl | hp
    · exact ⟨_,rfl⟩
    · exact ih hp

/-- Without shares nobody has one. -/
theorem Share.of_zero {s dust amount : ℕ} (hs : s=0) : Share balance s 0 dust amount := ⟨by simp [hs],by simp⟩

/-- What one execution pays out of a balance. -/
structure PaysShares (d : Distribution) (balance : Denom → ℕ) (payments : List (Destination × List Coin)) : Prop where
  destinations : payments.map Prod.fst=d.destinations
  share : ∀ i p, payments[i]?=some p → ∀ x ∈ d.denoms, Share (balance x) p.1.shares d.totalShares
    (if i+1=payments.length then i else 0) (amountIn x p.2)
  whole : ∀ x ∈ d.denoms, (payments.map fun p => amountIn x p.2).sum=balance x
  funded : ∀ p ∈ payments, p.2≠[] → ∃ x ∈ d.denoms, amountIn x p.2≠0
  only : ∀ p ∈ payments, ∀ x, x ∉ d.denoms → amountIn x p.2=0

section

variable {self : Distribution} {deps : Deps} {env : Env} {balance : Denom → ℕ} {balances : Coins}
  (hn : self.denoms.Nodup) (hb : deps.Answers env.contract balance) (hread : self.readBalances deps env=.ok balances)
include hn hb hread

theorem readBalances_mem {x : Denom} (hx : x ∈ self.denoms) : balances.amountOf x=balance x := by
  rw [readBalances_eq_ok hn hb hread,held,if_pos hx]

theorem denoms_of_read {x : Denom} (hx : x ∈ balances.toVec.map Coin.denom) : x ∈ self.denoms := by
  by_contra hmem
  exact mem_denoms_toVec.mp hx ((readBalances_eq_ok hn hb hread x).trans (if_neg hmem))

omit hn hb in
theorem payments_eq : self.payments deps env=payouts (balances.toVec.map Coin.denom) balances.amountOf self.totalShares
    self.destinations balances.amountOf := by rw [payments,hread]

omit hn hb in
theorem denoms_of_payment {p : Destination × List Coin} (hp : p ∈ self.payments deps env) {x : Denom}
    (hx : amountIn x p.2≠0) : x ∈ balances.toVec.map Coin.denom := by
  obtain ⟨amount,he⟩ := payouts_coins (payments_eq hread ▸ hp)
  rw [he,amountIn_coinsOf (Coins.toVec_denoms_nodup balances)] at hx
  by_contra hmem
  exact hx (if_neg hmem)

/-- What each destination is paid of each balance. -/
theorem payments_amount {i : ℕ} {p : Destination × List Coin} (hp : (self.payments deps env)[i]?=some p) {x : Denom}
    (hx : x ∈ self.denoms) : amountIn x p.2=if i+1=self.destinations.length then
      balance x-(self.destinations.dropLast.map fun d => portion (balance x) d.shares self.totalShares).sum
      else portion (balance x) p.1.shares self.totalShares := by
  by_cases hmem : x ∈ balances.toVec.map Coin.denom
  · rw [payouts_amount (Coins.toVec_denoms_nodup balances) hmem (payments_eq hread ▸ hp),readBalances_mem hn hb hread hx]
  · have hzero : balance x=0 := by
      rw [← readBalances_mem hn hb hread hx]
      exact by_contra fun h => hmem (mem_denoms_toVec.mpr h)
    have hnone : amountIn x p.2=0 := by_contra fun h => hmem (denoms_of_payment hread (List.mem_of_getElem? hp) h)
    simp [hzero,hnone,portion]

theorem payments_sum (hne : self.destinations≠[]) {x : Denom} (hx : x ∈ self.denoms) :
    ((self.payments deps env).map fun p => amountIn x p.2).sum=balance x := by
  rw [← readBalances_mem hn hb hread hx]
  by_cases hmem : x ∈ balances.toVec.map Coin.denom
  · have hroom := portions_le (balances.amountOf x) self.totalShares (self.destinations.dropLast.map Destination.shares)
      (List.Sublist.sum_le_sum ((List.dropLast_sublist _).map _) fun _ _ => Nat.zero_le _)
    rw [payments_eq hread,payouts_sum (Coins.toVec_denoms_nodup balances) hmem hne
      (by simpa [List.map_map,Function.comp_def] using hroom)]
  · have hzero : balances.amountOf x=0 := by_contra fun h => hmem (mem_denoms_toVec.mpr h)
    rw [hzero]
    refine List.sum_eq_zero fun n hm => ?_
    obtain ⟨p,hp,rfl⟩ := List.mem_map.mp hm
    exact by_contra fun h => hmem (denoms_of_payment hread hp h)

omit hn hb in
/-- The last payment goes to the last destination. -/
theorem payments_last (hne : self.destinations≠[]) {i : ℕ} {p : Destination × List Coin}
    (hp : (self.payments deps env)[i]?=some p) (hi : i+1=self.destinations.length) :
    p.1=self.destinations.getLast hne := by
  have hdest : self.destinations[i]?=some p.1 := by rw [← payments_fst hread,List.getElem?_map,hp]; rfl
  have hl := List.getLast?_eq_getElem? (l := self.destinations)
  rw [show self.destinations.length-1=i by omega,hdest,List.getLast?_eq_some_getLast hne] at hl
  exact (Option.some.inj hl).symm

omit hn hb hread in
theorem totalShares_split (hne : self.destinations≠[]) : (self.destinations.dropLast.map Destination.shares).sum+
    (self.destinations.getLast hne).shares=self.totalShares := by
  rw [totalShares]
  conv_rhs => rw [← List.dropLast_append_getLast hne]
  simp

theorem payments_shares (hne : self.destinations≠[]) : self.PaysShares balance (self.payments deps env) := by
  have hfst := payments_fst hread
  have hlen : (self.payments deps env).length=self.destinations.length := by rw [← hfst,List.length_map]
  refine ⟨hfst,fun i p hp x hx => ?_,fun x hx => payments_sum hn hb hread hne hx,fun p hp hp2 => ?_,fun p hp x hx => ?_⟩
  · have hdest : self.destinations[i]?=some p.1 := by rw [← hfst,List.getElem?_map,hp]; rfl
    rcases Nat.eq_zero_or_pos self.totalShares with ht | ht
    · rw [ht]
      refine Share.of_zero (Nat.eq_zero_of_le_zero (ht ▸ ?_))
      exact List.single_le_sum (fun _ _ => Nat.zero_le _) _ (List.mem_map_of_mem (List.mem_of_getElem? hdest))
    rw [payments_amount hn hb hread hp hx,hlen]
    split_ifs with hi
    · have hrest := @share_rest (balance x) _ (self.destinations.dropLast.map Destination.shares)
        (self.destinations.getLast hne).shares ht (totalShares_split hne)
      rw [List.map_map,List.length_map,List.length_dropLast] at hrest
      rw [payments_last hread hne hp hi]
      rwa [show self.destinations.length-1=i by omega] at hrest
    · exact share_portion p.1.shares ht
  · obtain ⟨amount,he⟩ := payouts_coins (payments_eq hread ▸ hp)
    have hsome : ∃ x ∈ balances.toVec.map Coin.denom, amount x≠0 := by
      by_contra hnone
      exact hp2 (he ▸ coinsOf_eq_nil.mpr fun x hx => by_contra fun h => hnone ⟨x,hx,h⟩)
    obtain ⟨x,hx,h0⟩ := hsome
    exact ⟨x,denoms_of_read hn hb hread hx,by
      rw [he,amountIn_coinsOf (Coins.toVec_denoms_nodup balances),if_pos hx]; exact h0⟩
  · by_contra hne
    exact hx (denoms_of_read hn hb hread (denoms_of_payment hread hp hne))

end

/-- What an execution that sends messages sends. -/
theorem executeUnsafe_shares {self self' : Distribution} {deps : Deps} {env : Env} {balance : Denom → ℕ}
    {messages : List CosmosMsg} (hn : self.denoms.Nodup) (hb : deps.Answers env.contract balance)
    (h : self.executeUnsafe deps env=.ok (messages,self')) (hm : messages≠[]) :
    ∃ payments, self.PaysShares balance payments ∧
      List.Forall₂ (fun p m => p.1.recipient.distributeMessage deps env p.2=.ok m)
        (payments.filter fun p => p.2≠[]) messages := by
  obtain ⟨balances,hread,⟨_,rfl,_⟩ | ⟨_,_,hmsgs,_⟩⟩ := executeUnsafe_payments h
  · exact absurd rfl hm
  · refine ⟨_,payments_shares hn hb hread fun hnil => hm ?_,hmsgs⟩
    have hempty := payments_fst hread
    rw [hnil,List.map_eq_nil_iff] at hempty
    rw [hempty] at hmsgs
    exact List.forall₂_nil_left_iff.mp hmsgs

/-- An execution sends no more messages than there are destinations, keeps no more of these, and funds each message. -/
theorem executeUnsafe_funded {self self' : Distribution} {deps : Deps} {env : Env} {messages : List CosmosMsg}
    (h : self.executeUnsafe deps env=.ok (messages,self')) : messages.length ≤ self.destinations.length ∧
      self'.destinations.length ≤ self.destinations.length ∧ ∀ m ∈ messages, ∃ x, amountIn x m.funds≠0 := by
  obtain ⟨balances,hread,⟨_,rfl,rfl⟩ | ⟨_,_,hmsgs,htallies⟩⟩ := executeUnsafe_payments h
  · exact ⟨Nat.zero_le _,le_rfl,by simp⟩
  · have hlen : ((self.payments deps env).filter fun p => p.2≠[]).length ≤ self.destinations.length := by
      rw [← payments_fst hread,List.length_map]
      exact List.length_filter_le _ _
    refine ⟨hmsgs.length_eq ▸ hlen,htallies.length_eq ▸ hlen,fun m hm => ?_⟩
    obtain ⟨p,hp,hpaid⟩ := forall₂_mem_right hmsgs hm
    obtain ⟨hmem,hne⟩ := List.mem_filter.mp hp
    obtain ⟨amount,he⟩ := payouts_coins (payments_eq hread ▸ hmem)
    have hsome : ∃ x ∈ balances.toVec.map Coin.denom, amount x≠0 := by
      by_contra hnone
      refine (by simpa using hne : p.2≠[]) (he ▸ coinsOf_eq_nil.mpr fun x hx => ?_)
      exact by_contra fun h0 => hnone ⟨x,hx,h0⟩
    obtain ⟨x,hx,h0⟩ := hsome
    refine ⟨x,?_⟩
    rw [(Recipient.distributeMessage_eq_ok hpaid).funds,he,amountIn_coinsOf (Coins.toVec_denoms_nodup balances),if_pos hx]
    exact h0

end Distribution
end CalcRs
