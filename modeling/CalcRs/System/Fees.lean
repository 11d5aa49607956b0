import CalcRs.Actions.Destinations
import CalcRs.Actions.Remainder
import CalcRs.Model.Manager
import CalcRs.Runs.Messages

/-! The fee of an affiliate on what leaves a strategy: by `Withdraw`, in basis points of the amount, and by
`Distribute`, as a share that is added to the shares of the user. -/
namespace CalcRs

/-! ### Withdraw -/

/-- The fee that `Withdraw` takes of an amount. -/
def Affiliate.withdrawalFee (affiliate : Affiliate) (amount : ℕ) : ℕ := amount*affiliate.bps/10000

/-- A rate of basis points, and an amount at this rate. -/
theorem mulFloor_bps {amount bps fee : ℕ} {rate : Decimal} (hr : Decimal.fromRatio bps 10000=.ok rate)
    (hf : Uint128.mulFloor amount rate=.ok fee) : fee=amount*bps/10000 := by
  obtain ⟨_,_,rfl⟩ := Decimal.fromRatio_eq_ok.mp hr
  obtain ⟨_,rfl⟩ := fits_eq_ok.mp hf
  have hrate : bps*Decimal.fractional/10000=bps*10^14 := by
    rw [show Decimal.fractional=10^14*10000 from rfl,← Nat.mul_assoc,Nat.mul_div_cancel _ (by decide)]
  rw [hrate,← Nat.mul_assoc]
  exact Nat.mul_div_mul_right (amount*bps) 10000 (by decide)

namespace StrategyContract

variable {deps : Deps} {env : Env}

theorem takeFees_eq_ok {coin : Coin} {affiliates : List Affiliate} {fees : Affiliate → Coins} {left left' : ℕ}
    {entries : List (Affiliate × Coins)}
    (h : takeFees coin (affiliates.map fun a => (a,fees a)) left=.ok (entries,left')) :
    entries=affiliates.map (fun a =>
      (a,((fees a).add ⟨a.withdrawalFee coin.amount,coin.denom⟩).toOption.getD Coins.empty)) ∧
    (∀ a ∈ affiliates, ∃ c, (fees a).add ⟨a.withdrawalFee coin.amount,coin.denom⟩=.ok c) ∧
    left'=left-(affiliates.map fun a => a.withdrawalFee coin.amount).sum := by
  induction affiliates generalizing left left' entries with
  | nil =>
    cases h
    exact ⟨rfl,by simp,rfl⟩
  | cons a rest ih =>
    rw [List.map_cons,takeFees] at h
    obtain ⟨rate,hr,h⟩ := Except.bind_eq_ok.mp h
    obtain ⟨fee,hf,h⟩ := Except.bind_eq_ok.mp h
    obtain rfl : fee=a.withdrawalFee coin.amount := mulFloor_bps hr hf
    obtain ⟨added,hadd,h⟩ := Except.bind_eq_ok.mp h
    obtain ⟨⟨others,left₁⟩,hrest,h⟩ := Except.bind_eq_ok.mp h
    obtain ⟨rfl,rfl⟩ := Prod.mk.inj (Except.ok.inj h)
    obtain ⟨rfl,hall,rfl⟩ := ih hrest
    refine ⟨?_,?_,?_⟩
    · rw [List.map_cons,hadd]
      rfl
    · rintro x (_ | ⟨_,hx⟩)
      · exact ⟨added,hadd⟩
      · exact hall x hx
    · rw [List.map_cons,List.sum_cons,Nat.sub_sub]

/-- The fees of one coin, for affiliates that already have some. -/
theorem takeFees_adds {coin : Coin} {affiliates : List Affiliate} {fees : Affiliate → Coins} {left left' : ℕ}
    {entries : List (Affiliate × Coins)}
    (h : takeFees coin (affiliates.map fun a => (a,fees a)) left=.ok (entries,left')) :
    (∃ fees' : Affiliate → Coins, entries=affiliates.map (fun a => (a,fees' a)) ∧
      ∀ a ∈ affiliates, (fees a).add ⟨a.withdrawalFee coin.amount,coin.denom⟩=.ok (fees' a)) ∧
    left'=left-(affiliates.map fun a => a.withdrawalFee coin.amount).sum := by
  obtain ⟨hentries,hall,hleft⟩ := takeFees_eq_ok h
  refine ⟨⟨_,hentries,fun a ha => ?_⟩,hleft⟩
  obtain ⟨c,hc⟩ := hall a ha
  rw [hc]
  rfl

/-- A withdrawal of one coin that is there pays each affiliate its basis points of the coin. -/
theorem withdraw_fees {storage storage' : StrategyStorage} {r : StrategyResponse} {amount balance : ℕ} {denom : Denom}
    (hb : deps.queryBalance env.contract denom=.ok ⟨balance,denom⟩) (hpos : 0<amount) (hle : amount ≤ balance)
    (h : withdraw deps env storage [⟨amount,denom⟩]=.ok (storage',r)) : r.messages.tail=
      (storage.affiliates.filter fun a => a.withdrawalFee amount≠0).map fun a =>
        ⟨.bankSend a.address [⟨a.withdrawalFee amount,denom⟩],.never,0⟩ := by
  have hread : withdrawals deps env [⟨amount,denom⟩]=.ok (Coins.only denom amount) := by
    rw [withdrawals,List.foldlM_cons]
    simp only [if_neg hpos.ne',hb,query_ok,Except.ok_bind,Nat.min_eq_right hle,Coins.empty_add]
    rfl
  obtain ⟨_,_,hnone⟩ | ⟨withdrawn,entries,final,_,hw,_,htaken,_,_,rfl⟩ := withdraw_eq_ok h
  · rcases hnone with hnone | ⟨withdrawn,hw,hempty⟩
    · cases hnone
    · cases hread.symm.trans hw
      exact absurd (Coins.isEmpty_only.mp hempty) hpos.ne'
  cases hread.symm.trans hw
  rw [Coins.toVec_only hpos.ne',List.foldlM_cons] at htaken
  simp only [List.foldlM_nil,bind_pure] at htaken
  obtain ⟨⟨entries',left⟩,htake,htaken⟩ := Except.bind_eq_ok.mp htaken
  obtain ⟨_,_,htaken⟩ := Except.bind_eq_ok.mp htaken
  obtain ⟨rfl,_⟩ := Prod.mk.inj (Except.ok.inj htaken)
  obtain ⟨⟨fees,rfl,hfees⟩,_⟩ := takeFees_adds htake
  have hentries : (storage.affiliates.map fun a => (a,fees a))=
      storage.affiliates.map fun a => (a,Coins.only denom (a.withdrawalFee amount)) := by
    refine List.map_congr_left fun a ha => congrArg (Prod.mk a) ?_
    have hadd := hfees a ha
    rw [Coins.empty_add] at hadd
    exact (Except.ok.inj hadd).symm
  rw [hentries,List.tail_cons]
  clear h htake htaken hread hw hb hle hfees hentries
  induction storage.affiliates with
  | nil => rfl
  | cons a rest ih =>
    rw [List.map_cons,List.filter_cons,List.filter_cons]
    by_cases hfee : a.withdrawalFee amount=0
    · rw [if_neg (by simp [Coins.isEmpty_only,hfee]),if_neg (by simp [hfee]),ih]
    · rw [if_pos (by simp [Coins.isEmpty_only,hfee]),if_pos (by simp [hfee]),List.map_cons,List.map_cons,ih,
        Coins.toVec_only hfee]

end StrategyContract

/-! ### Distribute -/

namespace Distribution

/-- The destination that an affiliate gets for its basis points of these shares. -/
def feeDestination (total : ℕ) (affiliate : Affiliate) : Destination where
  shares := (total*(affiliate.bps*10^14)+(Decimal.fractional-1))/Decimal.fractional
  recipient := .bank affiliate.address
  label := some affiliate.label
  distributions := none

theorem withAffiliates_eq_ok {d d' : Distribution} {affiliates : List Affiliate}
    (h : d.withAffiliates affiliates=.ok d') : d'.denoms=d.denoms ∧
      d'.destinations=d.destinations ++ affiliates.map (feeDestination d.totalShares) := by
  obtain ⟨total,htotal,h⟩ := Except.bind_eq_ok.mp h
  obtain ⟨fees,hfees,h⟩ := Except.bind_eq_ok.mp h
  obtain rfl := Except.ok.inj h
  obtain rfl : total=d.totalShares := Uint128.sum_eq_ok htotal
  refine ⟨rfl,congrArg (d.destinations ++ ·) (Except.mapM_ok (fun a b hb => ?_) hfees)⟩
  obtain ⟨shares,hs,hb⟩ := Except.bind_eq_ok.mp hb
  obtain ⟨_,rfl⟩ := fits_eq_ok.mp hs
  exact (Except.ok.inj hb).symm

theorem bps_mul (t bps : ℕ) : 10000*t*(bps*10^14)=Decimal.fractional*(t*bps) := by
  rw [Decimal.fractional]
  ring

theorem mul_ceil_exact (x f : ℕ) (hpos : 0<f) : (f*x+(f-1))/f=x := by
  rw [Nat.mul_add_div hpos,Nat.div_eq_of_lt (by omega),Nat.add_zero]

/-- Shares that are a multiple of 10000 have whole basis points. -/
theorem feeDestination_shares (t : ℕ) (a : Affiliate) : (feeDestination (10000*t) a).shares=t*a.bps := by
  have h := mul_ceil_exact (t*a.bps) Decimal.fractional (by decide)
  rw [← bps_mul] at h
  exact h

def totalBps (affiliates : List Affiliate) : ℕ := (affiliates.map Affiliate.bps).sum

theorem totalShares_fees {d d' : Distribution} {affiliates : List Affiliate} {t : ℕ}
    (h : d.withAffiliates affiliates=.ok d') (ht : d.totalShares=10000*t) :
    d'.totalShares=t*(10000+totalBps affiliates) := by
  have hown : (d.destinations.map Destination.shares).sum=10000*t := ht
  have hfees : affiliates.map (Destination.shares ∘ feeDestination (10000*t))=affiliates.map fun a => t*a.bps := by
    apply List.map_congr_left
    intro a _
    rw [Function.comp_apply,feeDestination_shares]
  rw [totalShares,(withAffiliates_eq_ok h).2,List.map_append,List.sum_append,List.map_map,ht,hown,hfees,
    List.sum_map_mul_left,totalBps,Nat.mul_add,Nat.mul_comm t 10000]

theorem Rounded.cancel {balance shares total amount t : ℕ} (ht : 0<t)
    (h : Rounded balance (t*shares) (t*total) amount) : Rounded balance shares total amount := by
  have htq : (t : ℚ)≠0 := by exact_mod_cast ht.ne'
  have hratio : (balance : ℚ)*(t*shares : ℕ)/(t*total : ℕ)=balance*shares/total := by
    push_cast
    rw [mul_left_comm,mul_div_mul_left _ _ htq]
  obtain ⟨habove,hbelow⟩ := h
  rw [hratio] at habove hbelow
  exact ⟨habove,hbelow⟩

theorem Remainder.cancel {balance shares total others amount t : ℕ} (ht : 0<t)
    (h : Remainder balance (t*shares) (t*total) others amount) : Remainder balance shares total others amount := by
  have htq : (t : ℚ)≠0 := by exact_mod_cast ht.ne'
  have hratio : (balance : ℚ)*(t*shares : ℕ)/(t*total : ℕ)=balance*shares/total := by
    push_cast
    rw [mul_left_comm,mul_div_mul_left _ _ htq]
  obtain ⟨hleast,hbelow,halone⟩ := h
  rw [hratio] at hleast hbelow
  exact ⟨hleast,hbelow,halone⟩

/-- An execution pays each affiliate its basis points of ten thousand and all basis points together. -/
theorem distribute_fee {d d' : Distribution} {affiliates : List Affiliate} {t : ℕ} {deps : Deps} {env : Env}
    {balance : Denom → ℕ} {messages : List CosmosMsg} {payments : List (Destination × List Coin)} (ht : 0<t)
    (hd : d.totalShares=10000*t) (hw : d.withAffiliates affiliates=.ok d')
    (h : d'.PaysExactly deps env balance payments messages) {i : ℕ} {a : Affiliate} {p : Destination × List Coin}
    (ha : affiliates[i]?=some a) (hp : payments[d.destinations.length+i]?=some p) {x : Denom} (hx : x ∈ d.denoms) :
    (i+1<affiliates.length → Rounded (balance x) a.bps (10000+totalBps affiliates) (amountIn x p.2)) ∧
    (i+1=affiliates.length →
      Remainder (balance x) a.bps (10000+totalBps affiliates) (d.destinations.length+i) (amountIn x p.2)) := by
  obtain ⟨hdenoms,hdest⟩ := withAffiliates_eq_ok hw
  have hlen : d'.destinations.length=d.destinations.length+affiliates.length := by
    rw [hdest,List.length_append,List.length_map]
  have hshares : p.1.shares=t*a.bps := by
    have hpay : d'.destinations[d.destinations.length+i]?=some p.1 := by
      rw [← h.destinations,List.getElem?_map,hp]
      rfl
    rw [hdest,List.getElem?_append_right (Nat.le_add_right _ _),Nat.add_sub_cancel_left,List.getElem?_map,ha] at hpay
    rw [← Option.some.inj hpay,hd,feeDestination_shares]
  constructor
  · intro hi
    have hr := h.rounded _ p hp (by omega) x (hdenoms ▸ hx)
    rw [hshares,totalShares_fees hw hd] at hr
    exact hr.cancel ht
  · intro hi
    have hr := h.remainder _ p hp (by omega) x (hdenoms ▸ hx)
    rw [hshares,totalShares_fees hw hd] at hr
    exact hr.cancel ht

/-! ### An execution that pays -/

/-- The affiliates can be added to shares whose fees fit. -/
theorem withAffiliates_total {d : Distribution} {affiliates : List Affiliate} (hd : d.totalShares<2^128)
    (h : ∀ a ∈ affiliates, (feeDestination d.totalShares a).shares<2^128) :
    ∃ d', d.withAffiliates affiliates=.ok d' := by
  rw [withAffiliates,Uint128.sum_of_lt hd,Except.ok_bind]
  obtain ⟨fees,hfees⟩ : ∃ fees, affiliates.mapM (fun affiliate => do
      let shares ← Uint128.mulCeil d.totalShares (Decimal.bps affiliate.bps)
      return ({ shares := shares,recipient := .bank affiliate.address
                label := some affiliate.label,distributions := none : Destination } : Destination))=.ok fees := by
    refine Except.mapM_total fun a ha => ⟨feeDestination d.totalShares a,?_⟩
    have hs : Uint128.mulCeil d.totalShares (Decimal.bps a.bps)=.ok (feeDestination d.totalShares a).shares :=
      fits_of_lt (h a ha)
    rw [hs]
    rfl
  exact ⟨_,congrArg (· >>= _) hfees⟩

/-- The share of one coin returns, and does not exceed it. -/
theorem denomShares_single (isFinal : Bool) {ratio : Decimal} {b : ℕ} {x : Denom} {remaining : Coins}
    (hb : b<2^128) (hratio : ratio.atomics ≤ Decimal.fractional) (hr : remaining.amountOf x ≤ b) :
    ∃ coins remaining', denomShares isFinal ratio [⟨b,x⟩] remaining=.ok (coins,remaining') ∧
      remaining'.amountOf x ≤ b ∧ (coins=[] ∨ ∃ a<2^128, coins=[⟨a,x⟩]) := by
  obtain ⟨a,ha,hle⟩ : ∃ a, shareAmount isFinal ratio ⟨b,x⟩ remaining=.ok a ∧ a ≤ b := by
    cases isFinal with
    | true => exact ⟨_,rfl,hr⟩
    | false =>
      have hle : b*ratio.atomics/Decimal.fractional ≤ b := Decimal.scale_le b hratio
      exact ⟨_,fits_of_lt (hle.trans_lt hb),hle⟩
  rw [denomShares,ha,Except.ok_bind]
  by_cases h0 : a=0
  · rw [if_pos h0]
    exact ⟨[],remaining,rfl,hr,.inl rfl⟩
  · rw [if_neg h0]
    obtain ⟨r,hattempt⟩ := Fault.settles_iff_attempt.mp (Coins.settles_sub remaining ⟨a,x⟩)
    rw [hattempt,Except.ok_bind]
    cases r with
    | error e => exact ⟨[],remaining,rfl,hr,.inl rfl⟩
    | ok rest =>
      have hrest := Coins.sub_amountOf_le (Fault.attempt_eq_ok_ok.mp hattempt)
      exact ⟨[⟨a,x⟩],rest,rfl,hrest.trans hr,.inr ⟨a,hle.trans_lt hb,rfl⟩⟩

theorem tally_first {destination : Destination} {a : ℕ} {x : Denom} (ha : a<2^128)
    (hd : destination.distributions=none) : ∃ updated, tally destination [⟨a,x⟩]=.ok updated := by
  have hadd := Coins.add_of_lt Coins.empty ⟨a,x⟩ (by simpa using ha)
  refine ⟨{ destination with distributions := some (Coins.empty.put x (Coins.empty.amountOf x+a)).toVec },?_⟩
  rw [tally,hd]
  simp only [Option.getD_none,Coins.tryFrom,List.foldlM_nil,Except.pure_eq_ok,Except.ok_bind,Coins.addAll,
    List.foldlM_cons,hadd]

/-- Banks without tallies can be paid out of one coin. -/
theorem payDestinations_total {deps : Deps} {env : Env} {balances remaining : Coins} {total b : ℕ} {x : Denom}
    {ds : List Destination} (hb : b<2^128) (hv : balances.toVec=[⟨b,x⟩]) (ht : 0<total)
    (hds : ∀ d ∈ ds, (∃ address, d.recipient=.bank address) ∧ d.distributions=none ∧ d.shares ≤ total)
    (hr : remaining.amountOf x ≤ b) : ∃ r, payDestinations deps env balances total ds remaining=.ok r := by
  induction ds generalizing remaining with
  | nil => exact ⟨_,rfl⟩
  | cons d ds ih =>
    obtain ⟨⟨address,hbank⟩,hnone,hle⟩ := hds d (by simp)
    have hratio : d.shares*Decimal.fractional/total ≤ Decimal.fractional := Decimal.ratio_le_one hle
    have hone : Decimal.fractional<2^128 := by decide
    have hread : Decimal.fromRatio d.shares total=.ok ⟨d.shares*Decimal.fractional/total⟩ :=
      Decimal.fromRatio_eq_ok.mpr ⟨ht.ne',hratio.trans_lt hone,rfl⟩
    obtain ⟨coins,remaining',hcoins,hr',hcase⟩ := denomShares_single ds.isEmpty hb hratio hr
    obtain ⟨rest,hrest⟩ := ih (fun d hd => hds d (by simp [hd])) hr'
    rw [payDestinations,hread,Except.ok_bind,hv,hcoins,Except.ok_bind]
    rcases hcase with rfl | ⟨a,ha,rfl⟩
    · exact ⟨rest,hrest⟩
    · obtain ⟨updated,hu⟩ := tally_first (x := x) ha hnone
      refine ⟨(.bankSend address [⟨a,x⟩] :: rest.1,updated :: rest.2),?_⟩
      simp only [List.isEmpty_cons,Bool.false_eq_true,if_false,hbank,Recipient.distributeMessage,Except.ok_bind,hu,hrest]
      rfl

/-- A user with ten thousand shares and one denom. -/
def sole : Distribution := ⟨["rune"],[toBank 10000 "user"]⟩

theorem feeDestination_sole (a : Affiliate) : (feeDestination sole.totalShares a).shares=a.bps := by
  have h := feeDestination_shares 1 a
  rwa [Nat.one_mul] at h

theorem bps_le_total {affiliates : List Affiliate} {a : Affiliate} (ha : a ∈ affiliates) :
    a.bps ≤ totalBps affiliates :=
  List.single_le_sum (fun _ _ => Nat.zero_le _) _ (List.mem_map_of_mem ha)

/-- Any balance can leave through the distribution of this user. -/
theorem sole_executes {affiliates : List Affiliate} {b : ℕ} (hbps : totalBps affiliates ≤ 10000) (hpos : 0<b)
    (hb : b<2^128) {deps : Deps} {env : Env} (hbal : deps.Answers env.contract fun _ => b) :
    ∃ d' messages stored, sole.withAffiliates affiliates=.ok d' ∧ d'.executeUnsafe deps env=.ok (messages,stored) := by
  obtain ⟨d',hw⟩ := @withAffiliates_total sole affiliates (by decide) fun a ha => by
    rw [feeDestination_sole]
    exact ((bps_le_total ha).trans hbps).trans_lt (by decide)
  obtain ⟨hdenoms,hdest⟩ := withAffiliates_eq_ok hw
  have htotal : d'.totalShares=10000+totalBps affiliates := by
    rw [totalShares_fees hw (t := 1) rfl,Nat.one_mul]
  have hsum : Uint128.sum (d'.destinations.map Destination.shares)=.ok d'.totalShares :=
    Uint128.sum_of_lt (lt_of_le_of_lt (show d'.totalShares ≤ 20000 by omega) (by decide))
  have hread : d'.readBalances deps env=.ok (Coins.only "rune" b) := by
    rw [readBalances,hdenoms,sole,List.foldlM_cons,hbal,query_ok,Except.ok_bind,Coins.empty_add]
    rfl
  have hsome : (Coins.only "rune" b).isEmpty=false := by
    rw [Bool.eq_false_iff]
    exact fun h => hpos.ne' (Coins.isEmpty_only.mp h)
  obtain ⟨⟨messages,destinations⟩,hpay⟩ := @payDestinations_total deps env (Coins.only "rune" b) (Coins.only "rune" b)
    d'.totalShares b "rune" d'.destinations hb (Coins.toVec_only hpos.ne') (by omega) (fun d hd => by
      rw [hdest,List.mem_append] at hd
      rcases hd with hd | hd
      · obtain rfl := List.mem_singleton.mp hd
        exact ⟨⟨"user",rfl⟩,rfl,by rw [htotal]; exact Nat.le_add_right _ _⟩
      · obtain ⟨a,ha,rfl⟩ := List.mem_map.mp hd
        refine ⟨⟨a.address,rfl⟩,rfl,?_⟩
        rw [feeDestination_sole,htotal]
        exact (bps_le_total ha).trans (Nat.le_add_left _ _)) (by rw [Coins.only,Coins.amountOf_put,if_pos rfl])
  refine ⟨d',messages,⟨d'.denoms,destinations⟩,hw,?_⟩
  rw [executeUnsafe,hread,Except.ok_bind,hsome,if_neg (by decide),hsum,Except.ok_bind,hpay]
  rfl

/-! ### Both fees -/

/-- One execution of `d` pays the affiliate at this place `paid` of the balance `b` of `x`. -/
structure PaysFee (affiliates : List Affiliate) (d : Distribution) (i : ℕ) (a : Affiliate) (x : Denom) (b paid : ℕ) :
    Prop where
  whole : 10000 ∣ d.totalShares
  affiliate : affiliates[i]?=some a
  denom : x ∈ d.denoms
  executed : ∃ deps₀ deps env d' stored balance messages payments p, d.init deps₀ affiliates=.ok d' ∧
    deps.Answers env.contract balance ∧ d'.executeUnsafe deps env=.ok (messages,stored) ∧
    d'.PaysExactly deps env balance payments messages ∧ balance x=b ∧
    payments[d.destinations.length+i]?=some p ∧ amountIn x p.2=paid

/-- The roundings of one destination; the last one takes those of all. -/
def feeSlack (affiliates : List Affiliate) (d : Distribution) (i b : ℕ) : ℚ :=
  (if i+1=affiliates.length then d.destinations.length+affiliates.length else 1 : ℕ)*(1+b/10^18)

/-- What a distribution pays an affiliate is its withdrawal fee up to rounding, whatever is distributed. -/
def FeesAgree (affiliates : List Affiliate) : Prop :=
  ∀ d i a x b paid, PaysFee affiliates d i a x b paid →
    |(paid : ℚ)-a.withdrawalFee b| ≤ feeSlack affiliates d i b

/-- Basis points of ten thousand, less the same basis points of ten thousand and all basis points together. -/
def feeGap (affiliates : List Affiliate) (a : Affiliate) (b : ℕ) : ℚ :=
  b*a.bps/10000-b*a.bps/(10000+totalBps affiliates : ℕ)

/-- The checks add up the shares they accept. -/
theorem validated_total {deps : Deps} {ds : List Destination} {start total : ℕ}
    (h : ds.foldlM (fun total destination => do
      validateDestination deps destination
      Uint128.add total destination.shares) start=.ok total) : total=start+(ds.map Destination.shares).sum := by
  induction ds generalizing start with
  | nil =>
    cases h
    rfl
  | cons d ds ih =>
    rw [List.foldlM_cons] at h
    obtain ⟨next,hnext,h⟩ := Except.bind_eq_ok.mp h
    obtain ⟨_,_,hnext⟩ := Except.bind_eq_ok.mp hnext
    obtain ⟨_,rfl⟩ := fits_eq_ok.mp hnext
    rw [ih h,List.map_cons,List.sum_cons,Nat.add_assoc]

theorem init_accepts {d d' : Distribution} {deps : Deps} {affiliates : List Affiliate}
    (h : d.init deps affiliates=.ok d') : d.destinations≠[] ∧ MINIMUM_TOTAL_SHARES ≤ d.totalShares ∧
      d.withAffiliates affiliates=.ok d' := by
  simp only [init,genericErr,Except.ite_error_eq_ok,not_not] at h
  obtain ⟨_,hne,_,h⟩ := h
  obtain ⟨total,htotal,h⟩ := Except.bind_eq_ok.mp h
  obtain rfl : total=d.totalShares := by rw [validated_total htotal,Nat.zero_add]; rfl
  simp only [Except.ite_error_eq_ok,not_lt] at h
  exact ⟨by simpa using hne,h⟩

variable {affiliates : List Affiliate} {d : Distribution} {i : ℕ} {a : Affiliate} {x : Denom} {b paid : ℕ}

/-- The fee of an execution is a rounded portion of the balance, or for the last affiliate the remainder. -/
theorem PaysFee.bounds (h : PaysFee affiliates d i a x b paid) : 0<d.destinations.length ∧
    (i+1<affiliates.length → Rounded b a.bps (10000+totalBps affiliates) paid) ∧
    (i+1=affiliates.length → Remainder b a.bps (10000+totalBps affiliates) (d.destinations.length+i) paid) := by
  obtain ⟨⟨t,ht⟩,ha,hx,deps₀,deps,env,d',stored,balance,messages,payments,p,hinit,_,_,hpays,rfl,hp,rfl⟩ := h
  obtain ⟨hne,hmin,hw⟩ := init_accepts hinit
  have hpos : 0<t := by
    rw [ht,MINIMUM_TOTAL_SHARES] at hmin
    omega
  exact ⟨List.length_pos_iff.mpr hne,distribute_fee hpos ht hw hpays ha hp hx⟩

theorem withdrawalFee_le (a : Affiliate) (b : ℕ) : (a.withdrawalFee b : ℚ) ≤ b*a.bps/10000 := by
  rw [le_div_iff₀ (by norm_num)]
  exact_mod_cast Nat.div_mul_le_self (b*a.bps) 10000

theorem lt_withdrawalFee (a : Affiliate) (b : ℕ) : (b*a.bps/10000-1 : ℚ)<a.withdrawalFee b := by
  have h := Nat.lt_div_mul_add (a := b*a.bps) (b := 10000) (by decide)
  rw [sub_lt_iff_lt_add,div_lt_iff₀ (by norm_num),add_mul,one_mul]
  exact_mod_cast h

theorem feeGap_nonneg (affiliates : List Affiliate) (a : Affiliate) (b : ℕ) : 0 ≤ feeGap affiliates a b := by
  rw [feeGap,sub_nonneg]
  apply div_le_div_of_nonneg_left (by positivity) (by norm_num)
  exact_mod_cast Nat.le_add_right 10000 _

/-- While the gap is small, the roundings hide it. -/
theorem PaysFee.agrees (h : PaysFee affiliates d i a x b paid) (hgap : feeGap affiliates a b+b/10^18 ≤ 1) :
    |(paid : ℚ)-a.withdrawalFee b| ≤ feeSlack affiliates d i b := by
  obtain ⟨hpos,hround,hlast⟩ := h.bounds
  have hi : i+1 ≤ affiliates.length := (List.getElem?_eq_some_iff.mp h.affiliate).1
  have hle := withdrawalFee_le a b
  have hlt := lt_withdrawalFee a b
  have hb : (0 : ℚ) ≤ b/10^18 := by positivity
  have h0 := feeGap_nonneg affiliates a b
  rw [feeGap] at hgap h0
  rw [feeSlack,abs_le]
  rcases hi.lt_or_eq with hi | hi
  · obtain ⟨habove,hbelow⟩ := hround hi
    have hdown : paid<a.withdrawalFee b+1 := by
      have : (paid : ℚ)<a.withdrawalFee b+1 := by linarith
      exact_mod_cast this
    -- the two are less than two units apart, so at most one
    have hup : a.withdrawalFee b<paid+2 := by
      have : (a.withdrawalFee b : ℚ)<paid+2 := by linarith
      exact_mod_cast this
    have hdown : (paid : ℚ) ≤ a.withdrawalFee b := by exact_mod_cast Nat.lt_succ_iff.mp hdown
    have hup : (a.withdrawalFee b : ℚ) ≤ paid+1 := by exact_mod_cast Nat.lt_succ_iff.mp hup
    rw [if_neg hi.ne,Nat.cast_one,one_mul]
    constructor <;> linarith
  · obtain ⟨hleast,hbelow,_⟩ := hlast hi
    have hbelow := hbelow (by omega)
    rw [if_pos hi,← hi,← Nat.add_assoc,Nat.cast_succ,add_mul,one_mul]
    have hk : (0 : ℚ) ≤ (d.destinations.length+i : ℕ)*(1+b/10^18) := by positivity
    constructor <;> linarith

/-- Where the gap is twice the roundings, the fees differ by more than these. -/
theorem PaysFee.differs (h : PaysFee affiliates d i a x b paid) (hgap : 2*feeSlack affiliates d i b<feeGap affiliates a b) :
    (paid : ℚ)+feeSlack affiliates d i b<a.withdrawalFee b := by
  obtain ⟨hpos,hround,hlast⟩ := h.bounds
  have hi : i+1 ≤ affiliates.length := (List.getElem?_eq_some_iff.mp h.affiliate).1
  have hlt := lt_withdrawalFee a b
  have hb : (0 : ℚ) ≤ b/10^18 := by positivity
  rw [feeGap,feeSlack] at hgap
  rw [feeSlack]
  rcases hi.lt_or_eq with hi | hi
  · obtain ⟨_,hbelow⟩ := hround hi
    rw [if_neg hi.ne,Nat.cast_one,one_mul] at hgap ⊢
    linarith
  · obtain ⟨_,hbelow,_⟩ := hlast hi
    have hbelow := hbelow (by omega)
    rw [if_pos hi,← hi,← Nat.add_assoc,Nat.cast_succ,add_mul,one_mul] at hgap ⊢
    have hk : (0 : ℚ) ≤ (d.destinations.length+i : ℕ)*(1+b/10^18) := by positivity
    linarith

/-- There is an execution that pays this affiliate of this balance. -/
theorem sole_paysFee (hbps : totalBps affiliates ≤ 10000) (ha : affiliates[i]?=some a) (hpos : 0<b) (hb : b<2^128) :
    ∃ paid, PaysFee affiliates sole i a "rune" b paid := by
  have hbal : (Deps.withBalance fun _ _ => b).Answers "strategy" fun _ => b := fun _ => rfl
  obtain ⟨d',messages,stored,hw,hexec⟩ := @sole_executes affiliates b hbps hpos hb _ ⟨⟨1,⟨1⟩⟩,"strategy"⟩ hbal
  obtain ⟨hdenoms,hdest⟩ := withAffiliates_eq_ok hw
  have htotal : d'.totalShares=10000+totalBps affiliates := by
    rw [totalShares_fees hw (t := 1) rfl,Nat.one_mul]
  have hpays := executeUnsafe_paysExactly (by rw [hdenoms]; decide) (by omega) hbal hexec
  set payments := d'.payments _ _
  have hlen : payments.length=1+affiliates.length := by
    have h := congrArg List.length hpays.destinations
    rw [List.length_map,hdest,List.length_append,List.length_map] at h
    rw [h]
    rfl
  have hi : i < affiliates.length := (List.getElem?_eq_some_iff.mp ha).1
  have hp : payments[1+i]?=some payments[1+i] := List.getElem?_eq_getElem (by omega)
  exact ⟨_,⟨1,rfl⟩,ha,by decide,Deps.silent,_,_,d',stored,_,messages,payments,_,hw,hbal,hexec,hpays,rfl,hp,rfl⟩

end Distribution

section

open CalcRs.Distribution

/-- Accepted affiliates have their total, which is bounded. -/
theorem checkAffiliates_total {deps : Deps} {affiliates : List Affiliate} {acc total : ℕ} (hacc : acc ≤ 200)
    (h : affiliates.foldlM (ManagerContract.checkAffiliate deps) acc=.ok total) :
    total=acc+totalBps affiliates ∧ total ≤ 200 := by
  induction affiliates generalizing acc with
  | nil =>
    cases h
    exact ⟨rfl,hacc⟩
  | cons a affiliates ih =>
    rw [List.foldlM_cons] at h
    obtain ⟨next,hnext,h⟩ := Except.bind_eq_ok.mp h
    simp only [ManagerContract.checkAffiliate,genericErr,Except.ite_error_eq_ok] at hnext
    obtain ⟨_,_,hnext⟩ := hnext
    obtain ⟨sum,hsum,hnext⟩ := Except.bind_eq_ok.mp hnext
    simp only [Except.ite_error_eq_ok,not_lt] at hnext
    obtain ⟨_,rfl⟩ := fits_eq_ok.mp hsum
    obtain rfl := Except.ok.inj hnext.2
    obtain ⟨ht,hle⟩ := ih hnext.1 h
    rw [ht,totalBps,totalBps,List.map_cons,List.sum_cons,Nat.add_assoc] at *
    exact ⟨rfl,hle⟩

/-- Of a whole coin, fifteen basis points differ by more than any rounding. -/
theorem lt_feeGap {affiliates : List Affiliate} {a : Affiliate} (ha : a ∈ affiliates) (hbps : 15 ≤ a.bps) :
    8<feeGap affiliates a (10^18) := by
  have htotal : (10015 : ℚ) ≤ (10000+totalBps affiliates : ℕ) := by
    have := bps_le_total ha
    exact_mod_cast (by omega : 10015 ≤ 10000+totalBps affiliates)
  have hbps : (15 : ℚ) ≤ a.bps := by exact_mod_cast hbps
  have hle : ((10^18 : ℕ) : ℚ)*a.bps/(10000+totalBps affiliates : ℕ) ≤ ((10^18 : ℕ) : ℚ)*a.bps/10015 :=
    div_le_div_of_nonneg_left (by positivity) (by norm_num) htotal
  rw [feeGap]
  push_cast at hle ⊢
  linarith

/-- For no affiliates of a strategy does a distribution take the fees of a withdrawal: a withdrawal takes the basis
points of the amount, a distribution of the amount and all fees, and only roundings hide the gap. -/
theorem fees_never_agree {deps : Deps} {config : ManagerConfig} {affiliates : List Affiliate} {total : ℕ}
    (h : affiliates.foldlM (ManagerContract.checkAffiliate deps) 0=.ok total) :
    let installed := ManagerContract.withCalc config affiliates total
    (∀ deps env storage storage' r amount balance denom, storage.affiliates=installed →
      deps.queryBalance env.contract denom=.ok ⟨balance,denom⟩ → 0<amount → amount ≤ balance →
      StrategyContract.withdraw deps env storage [⟨amount,denom⟩]=.ok (storage',r) → r.messages.tail=
        (installed.filter fun a => a.withdrawalFee amount≠0).map fun a =>
          ⟨.bankSend a.address [⟨a.withdrawalFee amount,denom⟩],.never,0⟩) ∧
    ¬FeesAgree installed ∧ ∀ d i a x b paid, PaysFee installed d i a x b paid →
      (feeGap installed a b+b/10^18 ≤ 1 → |(paid : ℚ)-a.withdrawalFee b| ≤ feeSlack installed d i b) ∧
      (2*feeSlack installed d i b<feeGap installed a b →
        ¬|(paid : ℚ)-a.withdrawalFee b| ≤ feeSlack installed d i b) := by
  intro installed
  have hdiffers : ∀ d i a x b paid, PaysFee installed d i a x b paid → 2*feeSlack installed d i b<feeGap installed a b →
      ¬|(paid : ℚ)-a.withdrawalFee b| ≤ feeSlack installed d i b := by
    intro d i a x b paid hpays hgap hle
    have hlt := hpays.differs hgap
    have := (abs_le.mp hle).1
    linarith
  refine ⟨fun deps env storage storage' r amount balance denom hs hb hpos hle hw => ?_,fun hagree => ?_,
    fun d i a x b paid hpays => ⟨hpays.agrees,hdiffers d i a x b paid hpays⟩⟩
  · rw [StrategyContract.withdraw_fees hb hpos hle hw,hs]
  · -- CALC, of a whole coin
    obtain ⟨htotal,hmax⟩ := checkAffiliates_total (Nat.zero_le 200) h
    have hbps : totalBps installed ≤ 10000 := by
      have hsum : totalBps installed=max (BASE_FEE_BPS-total) MIN_FEE_BPS+totalBps affiliates := rfl
      rw [hsum,BASE_FEE_BPS,MIN_FEE_BPS]
      omega
    have hfirst : installed[0]?=some ⟨"CALC",config.feeCollector,max (BASE_FEE_BPS-total) MIN_FEE_BPS⟩ := rfl
    obtain ⟨paid,hpays⟩ := sole_paysFee hbps hfirst (by decide : 0<10^18) (by decide)
    refine hdiffers _ _ _ _ _ _ hpays ?_ (hagree _ _ _ _ _ _ hpays)
    refine lt_of_le_of_lt ?_ (lt_feeGap (List.mem_of_getElem? hfirst) (Nat.le_max_right _ _))
    rw [feeSlack]
    split_ifs with hlast
    · rw [← hlast]
      norm_num [sole]
    · norm_num

end

section

attribute [local instance] Crates.plain

open CalcRs.Distribution

/-- A thousand million units of each denom. -/
def billion : Deps := Deps.withBalance fun _ _ => 10^9

/-- With CALC alone, 10^9 units pay it 2493766 by distribution and 2500000 by withdrawal. -/
theorem calc_fee_differs :
    let calcOnly := ManagerContract.withCalc ⟨"collector",7⟩ [] 0
    let env : Env := ⟨⟨1,⟨1⟩⟩,"strategy"⟩
    (sole.init billion calcOnly >>= fun d' => Prod.fst <$> d'.executeUnsafe billion env)=
      .ok [.bankSend "user" [⟨997506234,"rune"⟩],.bankSend "collector" [⟨2493766,"rune"⟩]] ∧
    (fun w => w.2.messages) <$> StrategyContract.withdraw billion env ⟨"manager","user",calcOnly,[],[],Table.empty,none⟩
      [⟨10^9,"rune"⟩]=
      .ok [⟨.bankSend "user" [⟨997500000,"rune"⟩],.never,0⟩,⟨.bankSend "collector" [⟨2500000,"rune"⟩],.never,0⟩] ∧
    2500000=10^9*BASE_FEE_BPS/10000 ∧ ¬|(2493766 : ℚ)-2500000| ≤ 2*(1+10^9/10^18) := by
  refine ⟨by decide +kernel,by decide +kernel,by decide,?_⟩
  rw [not_le,lt_abs]
  norm_num

theorem fees_never_agree_partner :
    let installed := ManagerContract.withCalc ⟨"collector",7⟩ [⟨"partner","partner",5⟩] 5
    (∀ deps env storage storage' r amount balance denom, storage.affiliates=installed →
      deps.queryBalance env.contract denom=.ok ⟨balance,denom⟩ → 0<amount → amount ≤ balance →
      StrategyContract.withdraw deps env storage [⟨amount,denom⟩]=.ok (storage',r) → r.messages.tail=
        (installed.filter fun a => a.withdrawalFee amount≠0).map fun a =>
          ⟨.bankSend a.address [⟨a.withdrawalFee amount,denom⟩],.never,0⟩) ∧
    ¬FeesAgree installed ∧ ∀ d i a x b paid, PaysFee installed d i a x b paid →
      (feeGap installed a b+b/10^18 ≤ 1 → |(paid : ℚ)-a.withdrawalFee b| ≤ feeSlack installed d i b) ∧
      (2*feeSlack installed d i b<feeGap installed a b →
        ¬|(paid : ℚ)-a.withdrawalFee b| ≤ feeSlack installed d i b) := by
  have h : [(⟨"partner","partner",5⟩ : Affiliate)].foldlM (ManagerContract.checkAffiliate billion) 0=.ok 5 := by
    decide +kernel
  exact fees_never_agree h

end

end CalcRs
