import CalcRs.Foundation.Lists
import CalcRs.System.Fees

/-! What a `Withdraw` sends: each entry is clamped to the balance by itself, then entries of one denom are added up. -/
namespace CalcRs

namespace StrategyContract

open CalcRs.Distribution (totalBps)

/-- What is taken of a denom: each entry up to the balance. -/
def taken (balance : Denom → ℕ) (amounts : List Coin) (denom : Denom) : ℕ :=
  (amounts.map fun c => if c.denom=denom then min (balance denom) c.amount else 0).sum

/-- The entries of a denom do not together pass the balance that each of them is clamped to. -/
def Separate (balance : Denom → ℕ) (amounts : List Coin) (denom : Denom) : Prop :=
  balance denom=0 ∨ amountIn denom amounts≤balance denom ∨
    (amounts.filter fun c => c.denom=denom ∧ 0 < c.amount).length≤1

instance (balance : Denom → ℕ) (amounts : List Coin) (denom : Denom) : Decidable (Separate balance amounts denom) :=
  inferInstanceAs (Decidable (_ ∨ _ ∨ _))

theorem taken_eq_iff (balance : Denom → ℕ) (amounts : List Coin) (denom : Denom) :
    taken balance amounts denom=min (balance denom) (amountIn denom amounts) ↔ Separate balance amounts denom := by
  have hentries : ∀ f : ℕ → ℕ, (amounts.map fun c => if c.denom=denom then f c.amount else 0).sum=
      (((amounts.filter fun c => c.denom=denom).map Coin.amount).map f).sum := fun f => by
    rw [sum_map_ite_eq,List.map_map]
    rfl
  have hpositive : (amounts.filter fun c => c.denom=denom ∧ 0 < c.amount).length=
      (((amounts.filter fun c => c.denom=denom).map Coin.amount).filter fun n => 0 < n).length := by
    rw [List.filter_map,List.length_map,List.filter_filter]
    congr 1
    refine List.filter_congr fun c _ => ?_
    rw [Function.comp_apply,Bool.and_comm,Bool.decide_and]
  have hasked : amountIn denom amounts=((amounts.filter fun c => c.denom=denom).map Coin.amount).sum :=
    (hentries id).trans (by rw [List.map_id])
  rw [taken,Separate,hasked,hentries,hpositive]
  exact sum_min_eq_iff _ _

section

variable {deps : Deps} {env : Env} {balance : Denom → ℕ} {amounts : List Coin}

theorem withdrawals_amountOf (hb : ∀ d, deps.queryBalance env.contract d=.ok ⟨balance d,d⟩) {c : Coins}
    (h : withdrawals deps env amounts=.ok c) (d : Denom) : c.amountOf d=taken balance amounts d := by
  have hfold : ∀ (amounts : List Coin) (start c : Coins), amounts.foldlM (fun withdrawals amount => do
      if amount.amount=0 then return withdrawals
      else
        let balance ← query (deps.queryBalance env.contract amount.denom)
        withdrawals.add ⟨min balance.amount amount.amount,amount.denom⟩) start=.ok c →
      c.amountOf d=start.amountOf d+taken balance amounts d := by
    intro amounts
    induction amounts with
    | nil =>
      intro start c h
      cases h
      rfl
    | cons amount amounts ih =>
      intro start c h
      rw [List.foldlM_cons] at h
      obtain ⟨next,hnext,h⟩ := Except.bind_eq_ok.mp h
      rw [ih next c h,taken,taken,List.map_cons,List.sum_cons,← Nat.add_assoc]
      congr 1
      split_ifs at hnext with h0
      · cases hnext
        simp [h0]
      · rw [hb,query_ok,Except.ok_bind] at hnext
        rw [Coins.add_amountOf hnext]
        dsimp only
        split_ifs with hd
        · rw [hd]
        · rfl
  simpa using hfold amounts Coins.empty c h

/-- The fees of all coins, and what is left for the owner. -/
theorem shares_adds {coins : List Coin} {affiliates : List Affiliate} {fees : Affiliate → Coins} {final final' : Coins}
    {entries : List (Affiliate × Coins)}
    (h : coins.foldlM shareCoin (affiliates.map (fun a => (a,fees a)),final)=.ok (entries,final')) :
    (∃ fees' : Affiliate → Coins, entries=affiliates.map (fun a => (a,fees' a)) ∧
      ∀ a ∈ affiliates, ∀ d, (fees' a).amountOf d=(fees a).amountOf d+
        (coins.map fun c => if c.denom=d then a.withdrawalFee c.amount else 0).sum) ∧
    ∀ d, final'.amountOf d=final.amountOf d+(coins.map fun c =>
      if c.denom=d then c.amount-(affiliates.map fun a => a.withdrawalFee c.amount).sum else 0).sum := by
  induction coins generalizing fees final with
  | nil =>
    cases h
    exact ⟨⟨fees,rfl,fun _ _ _ => rfl⟩,fun _ => rfl⟩
  | cons coin coins ih =>
    rw [List.foldlM_cons] at h
    obtain ⟨⟨entries₁,final₁⟩,hstep,h⟩ := Except.bind_eq_ok.mp h
    obtain ⟨⟨entries₂,left⟩,htake,hstep⟩ := Except.bind_eq_ok.mp hstep
    obtain ⟨final₂,hadd,hstep⟩ := Except.bind_eq_ok.mp hstep
    obtain ⟨rfl,rfl⟩ := Prod.mk.inj (Except.ok.inj hstep)
    obtain ⟨⟨fees₁,rfl,hfees₁⟩,rfl⟩ := takeFees_adds htake
    obtain ⟨⟨fees',rfl,hfees'⟩,hfinal⟩ := ih h
    refine ⟨⟨fees',rfl,fun a ha d => ?_⟩,fun d => ?_⟩
    · rw [hfees' a ha d,Coins.add_amountOf (hfees₁ a ha),List.map_cons,List.sum_cons,Nat.add_assoc]
    · rw [hfinal d,Coins.add_amountOf hadd,List.map_cons,List.sum_cons,Nat.add_assoc]

/-- The payments to the owner and, where there is a fee, to the affiliates. -/
def payments (owner : Addr) (affiliates : List Affiliate) (final : Coins) (fees : Affiliate → Coins) : List SubMsg :=
  if final.isEmpty then []
  else ⟨.bankSend owner final.toVec,.never,0⟩ ::
    (affiliates.filter fun a => ¬(fees a).isEmpty).map fun a => ⟨.bankSend a.address (fees a).toVec,.never,0⟩

/-- The messages send these amounts: each affiliate gets its basis points of them, and the owner all the rest. -/
def SharesOut (owner : Addr) (affiliates : List Affiliate) (withdrawn : Denom → ℕ) (messages : List SubMsg) : Prop :=
  ∃ (final : Coins) (fees : Affiliate → Coins), messages=payments owner affiliates final fees ∧
    (∀ d, final.amountOf d+(affiliates.map fun a => (fees a).amountOf d).sum=withdrawn d) ∧
    ∀ a ∈ affiliates, ∀ d, (fees a).amountOf d=withdrawn d*a.bps/10000

theorem SharesOut.nothing {owner : Addr} {affiliates : List Affiliate} {withdrawn : Denom → ℕ}
    (h : ∀ d, withdrawn d=0) : SharesOut owner affiliates withdrawn [] := by
  refine ⟨Coins.empty,fun _ => Coins.empty,rfl,fun d => ?_,fun a _ d => ?_⟩
  · simp [h]
  · simp [h]

/-- What the messages send of a denom. -/
def sent (messages : List SubMsg) (d : Denom) : ℕ := (messages.map fun m => amountIn d m.msg.funds).sum

/-- What the payment to the owner, which comes first, sends of a denom. -/
def sentToOwner (messages : List SubMsg) (d : Denom) : ℕ := sent (messages.take 1) d

theorem fees_le {affiliates : List Affiliate} {total : ℕ} (h : totalBps affiliates≤total) (amount : ℕ) :
    (affiliates.map fun a => a.withdrawalFee amount).sum*10000≤amount*total := by
  refine le_trans ?_ (Nat.mul_le_mul_left amount h)
  clear h
  induction affiliates with
  | nil => simp [totalBps]
  | cons a rest ih =>
    rw [totalBps] at ih ⊢
    rw [List.map_cons,List.map_cons,List.sum_cons,List.sum_cons,Nat.add_mul,Nat.mul_add]
    exact Nat.add_le_add (Nat.div_mul_le_self _ _) ih

theorem fees_lt {affiliates : List Affiliate} (h : totalBps affiliates<10000) {amount : ℕ} (hpos : 0<amount) :
    (affiliates.map fun a => a.withdrawalFee amount).sum<amount := by
  have hle := fees_le (Nat.le_of_lt_succ h) amount
  by_contra hge
  omega

theorem amountIn_fees {affiliates : List Affiliate} {fees : Affiliate → Coins} (d : Denom) :
    (((affiliates.filter fun a => ¬(fees a).isEmpty).map fun a =>
      SubMsg.mk (.bankSend a.address (fees a).toVec) .never 0).map fun m => amountIn d m.msg.funds).sum=
      (affiliates.map fun a => (fees a).amountOf d).sum := by
  induction affiliates with
  | nil => rfl
  | cons a rest ih =>
    by_cases he : (fees a).isEmpty
    · rw [List.filter_cons_of_neg (by simpa using he),ih,List.map_cons,List.sum_cons,Coins.isEmpty_iff.mp he d,Nat.zero_add]
    · rw [List.filter_cons_of_pos (by simpa using he),List.map_cons,List.map_cons,List.sum_cons,ih,List.map_cons,
        List.sum_cons]
      congr 1
      exact Coins.amountIn_toVec _ d

/-- Owner and affiliates together get the whole. -/
theorem SharesOut.sent_eq {owner : Addr} {affiliates : List Affiliate} {withdrawn : Denom → ℕ} {messages : List SubMsg}
    (h : SharesOut owner affiliates withdrawn messages) (hbps : totalBps affiliates<10000) (d : Denom) :
    sent messages d=withdrawn d := by
  obtain ⟨final,fees,rfl,hwhole,hfees⟩ := h
  have hsum : (affiliates.map fun a => (fees a).amountOf d).sum=
      (affiliates.map fun a => a.withdrawalFee (withdrawn d)).sum :=
    congrArg List.sum (List.map_congr_left fun a ha => hfees a ha d)
  unfold sent payments
  split_ifs with he
  · have hd := hwhole d
    rw [Coins.isEmpty_iff.mp he d,Nat.zero_add,hsum] at hd
    have hzero : withdrawn d=0 := by
      by_contra hne
      have hlt := fees_lt hbps (Nat.pos_of_ne_zero hne)
      omega
    rw [hzero]
    rfl
  · rw [List.map_cons,List.sum_cons,amountIn_fees,← hwhole d]
    congr 1
    exact Coins.amountIn_toVec _ d

theorem sentToOwner_payments {owner : Addr} {affiliates : List Affiliate} {final : Coins} {fees : Affiliate → Coins}
    (d : Denom) : sentToOwner (payments owner affiliates final fees) d=final.amountOf d := by
  unfold sentToOwner payments
  split_ifs with he
  · exact (Coins.isEmpty_iff.mp he d).symm
  · rw [List.take_succ_cons,List.take_zero,sent,List.map_cons,List.map_nil,List.sum_cons,List.sum_nil,Nat.add_zero]
    exact Coins.amountIn_toVec _ d

/-- A withdrawal shares out what it takes, and adds what the owner gets to the record. -/
theorem withdraw_taken {storage storage' : StrategyStorage} {r : StrategyResponse}
    (hb : ∀ d, deps.queryBalance env.contract d=.ok ⟨balance d,d⟩) (hbps : totalBps storage.affiliates<10000)
    (h : withdraw deps env storage amounts=.ok (storage',r)) :
    SharesOut storage.owner storage.affiliates (taken balance amounts) r.messages ∧
    (∀ d, amountIn d storage'.withdrawals=amountIn d storage.withdrawals+sentToOwner r.messages d) ∧
    ∃ withdrawals, storage'={ storage with withdrawals := withdrawals } := by
  obtain ⟨rfl,rfl,hnone⟩ | ⟨withdrawn,entries,final,total,hw,hsomething,hshares,htotal,rfl,rfl⟩ := withdraw_eq_ok h
  · refine ⟨SharesOut.nothing fun d => ?_,fun _ => rfl,_,rfl⟩
    rcases hnone with rfl | ⟨withdrawn,hw,hempty⟩
    · rfl
    · rw [← withdrawals_amountOf hb hw,Coins.isEmpty_iff.mp hempty]
  have htaken := withdrawals_amountOf hb hw
  obtain ⟨⟨fees,rfl,hfees⟩,hfinal⟩ := shares_adds hshares
  have hfee : ∀ a ∈ storage.affiliates, ∀ d, (fees a).amountOf d=a.withdrawalFee (taken balance amounts d) := by
    intro a ha d
    have hzero : a.withdrawalFee 0=0 := by simp [Affiliate.withdrawalFee]
    rw [hfees a ha d,Coins.amountOf_empty,Nat.zero_add,Coins.sum_toVec _ _ hzero,htaken]
  have hrest : ∀ d, final.amountOf d=taken balance amounts d-
      (storage.affiliates.map fun a => a.withdrawalFee (taken balance amounts d)).sum := fun d => by
    have hsum := @Coins.sum_toVec withdrawn d
      (fun n => n-(storage.affiliates.map fun a => a.withdrawalFee n).sum) (Nat.zero_sub _)
    rw [hfinal d,Coins.amountOf_empty,Nat.zero_add,hsum,htaken]
  have hlt : ∀ d, 0<taken balance amounts d →
      (storage.affiliates.map fun a => a.withdrawalFee (taken balance amounts d)).sum<taken balance amounts d :=
    fun d hd => fees_lt hbps hd
  have hsome : final.isEmpty=false := by
    rw [Bool.eq_false_iff]
    intro he
    refine Bool.eq_false_iff.mp hsomething (Coins.isEmpty_iff.mpr fun d => ?_)
    by_contra hd
    have hpos := hlt d (htaken d ▸ Nat.pos_of_ne_zero hd)
    have hzero := Coins.isEmpty_iff.mp he d
    rw [hrest d] at hzero
    omega
  have hmessages : payments storage.owner storage.affiliates final fees=⟨.bankSend storage.owner final.toVec,.never,0⟩ ::
      ((storage.affiliates.map fun a => (a,fees a)).filter fun entry => ¬entry.2.isEmpty).map
        fun entry => ⟨.bankSend entry.1.address entry.2.toVec,.never,0⟩ := by
    rw [payments,hsome,if_neg Bool.false_ne_true,List.filter_map,List.map_map]
    rfl
  dsimp only
  rw [← hmessages]
  refine ⟨⟨final,fees,rfl,fun d => ?_,hfee⟩,fun d => ?_,_,rfl⟩
  · have hsum : (storage.affiliates.map fun a => (fees a).amountOf d).sum=
        (storage.affiliates.map fun a => a.withdrawalFee (taken balance amounts d)).sum :=
      congrArg List.sum (List.map_congr_left fun a ha => hfee a ha d)
    rw [hrest d,hsum]
    rcases Nat.eq_zero_or_pos (taken balance amounts d) with h0 | hpos
    · rw [h0,Nat.zero_sub,Nat.zero_add]
      have hle := fees_le (le_refl (totalBps storage.affiliates)) 0
      omega
    · have := hlt d hpos
      omega
  · rw [Coins.amountIn_toVec,Coins.addAll_amountOf htotal,sentToOwner_payments,Nat.add_comm]

variable [Crates]

/-! ### Sequences of withdrawals -/

/-- A successful `Withdraw`, with the balances at that time. -/
structure Withdrawal where
  gas : ℕ
  deps : Deps
  env : Env
  funds : List Coin
  amounts : List Coin
  response : StrategyResponse
  balance : Denom → ℕ
  held : ∀ d, deps.queryBalance env.contract d=.ok ⟨balance d,d⟩

/-- The owner withdraws again and again. -/
inductive Withdraws : StrategyStorage → List Withdrawal → StrategyStorage → Prop where
  | nil (s : StrategyStorage) : Withdraws s [] s
  | cons {s s₁ s' : StrategyStorage} {w : Withdrawal} {ws : List Withdrawal} :
      execute w.gas w.deps w.env ⟨s.owner,w.funds⟩ s (.withdraw w.amounts)=.ok (s₁,w.response) →
      Withdraws s₁ ws s' → Withdraws s (w :: ws) s'

/-- Of each denom, all that is asked for and there is shared out. -/
def Withdrawal.Exact (w : Withdrawal) (owner : Addr) (affiliates : List Affiliate) : Prop :=
  SharesOut owner affiliates (fun d => min (w.balance d) (amountIn d w.amounts)) w.response.messages

/-- One withdrawal is exact when the entries of each denom are separate, and its owner's part is recorded. -/
theorem withdrawal_step {s s₁ : StrategyStorage} {w : Withdrawal} (hbps : totalBps s.affiliates<10000)
    (h : execute w.gas w.deps w.env ⟨s.owner,w.funds⟩ s (.withdraw w.amounts)=.ok (s₁,w.response)) :
    (s₁.owner=s.owner ∧ s₁.affiliates=s.affiliates) ∧
    (w.Exact s.owner s.affiliates ↔ ∀ d, Separate w.balance w.amounts d) ∧
    ∀ d, amountIn d s₁.withdrawals=amountIn d s.withdrawals+sentToOwner w.response.messages d := by
  obtain ⟨deposits,h⟩ := execute_eq_ok h
  have hw : withdraw w.deps w.env { s with deposits := deposits } w.amounts=.ok (s₁,w.response) := by
    cases h with
    | withdraw _ hw => exact hw
  have hfees : totalBps ({ s with deposits := deposits } : StrategyStorage).affiliates<10000 := hbps
  obtain ⟨hshares,hledger,withdrawals,rfl⟩ := withdraw_taken w.held hfees hw
  refine ⟨⟨rfl,rfl⟩,⟨fun hexact d => ?_,fun hsep => ?_⟩,hledger⟩
  · exact (taken_eq_iff _ _ _).mp ((hshares.sent_eq hbps d).symm.trans (SharesOut.sent_eq hexact hbps d))
  · have hsame : taken w.balance w.amounts=fun d => min (w.balance d) (amountIn d w.amounts) :=
      funext fun d => (taken_eq_iff _ _ _).mpr (hsep d)
    rw [hsame] at hshares
    exact hshares

/-- Every withdrawal of a sequence is exact when none asks for two amounts of a denom that together pass its balance;
the record is always the sum of what the owner got. -/
theorem Withdraws.exact_iff {s s' : StrategyStorage} {ws : List Withdrawal} {config : ManagerConfig}
    {affiliates : List Affiliate} {total : ℕ}
    (haccepted : affiliates.foldlM (ManagerContract.checkAffiliate deps) 0=.ok total)
    (hs : s.affiliates=ManagerContract.withCalc config affiliates total) (h : Withdraws s ws s') :
    ((∀ w ∈ ws, w.Exact s.owner s.affiliates) ↔ ∀ w ∈ ws, ∀ d, Separate w.balance w.amounts d) ∧
    ∀ d, amountIn d s'.withdrawals=amountIn d s.withdrawals+(ws.map fun w => sentToOwner w.response.messages d).sum := by
  obtain ⟨htotal,hmax⟩ := checkAffiliates_total (Nat.zero_le 200) haccepted
  have hbps : totalBps s.affiliates<10000 := by
    have hsum : totalBps s.affiliates=max (BASE_FEE_BPS-total) MIN_FEE_BPS+totalBps affiliates := by
      rw [hs]
      rfl
    rw [hsum,BASE_FEE_BPS,MIN_FEE_BPS]
    omega
  clear hs htotal
  induction h with
  | nil s => exact ⟨by simp,fun d => rfl⟩
  | @cons s s₁ s' w ws hstep _ ih =>
    obtain ⟨⟨howner,haffiliates⟩,hexact,hledger⟩ := withdrawal_step hbps hstep
    obtain ⟨hrest,hsum⟩ := ih (haffiliates ▸ hbps)
    rw [howner,haffiliates] at hrest
    refine ⟨?_,fun d => ?_⟩
    · rw [List.forall_mem_cons,List.forall_mem_cons,hexact,hrest]
    · rw [hsum d,hledger d,List.map_cons,List.sum_cons,Nat.add_assoc]

end

section

attribute [local instance] Crates.plain

/-- A strategy without partners, before its first withdrawal. -/
def ownedByUser : StrategyStorage :=
  ⟨"manager","user",ManagerContract.withCalc ⟨"collector",7⟩ [] 0,[],[],Table.empty,none⟩

theorem withBalance_held (balance : ℕ) (d : Denom) :
    (Deps.withBalance fun _ _ => balance).queryBalance "strategy" d=.ok ⟨balance,d⟩ := rfl

/-- A withdrawal from a strategy that holds this much of each denom. -/
def withdrawalOf (balance : ℕ) (amounts : List Coin) (response : StrategyResponse) : Withdrawal :=
  ⟨0,Deps.withBalance fun _ _ => balance,⟨⟨1,⟨1⟩⟩,"strategy"⟩,[],amounts,response,fun _ => balance,withBalance_held balance⟩

/-- Of 100 rune, asked for as twice 80, the messages send 160. -/
theorem repeated_denom_overdraws : ∃ s', execute 0 (Deps.withBalance fun _ _ => 100) ⟨⟨1,⟨1⟩⟩,"strategy"⟩ ⟨"user",[]⟩
    ownedByUser (.withdraw [⟨80,"rune"⟩,⟨80,"rune"⟩])=
      .ok (s',⟨[.withdraw],[⟨.bankSend "user" [⟨160,"rune"⟩],.never,0⟩]⟩) ∧
    ¬(withdrawalOf 100 [⟨80,"rune"⟩,⟨80,"rune"⟩] ⟨[.withdraw],[⟨.bankSend "user" [⟨160,"rune"⟩],.never,0⟩]⟩).Exact
      ownedByUser.owner ownedByUser.affiliates := by
  refine ⟨{ ownedByUser with withdrawals := [⟨160,"rune"⟩] },by decide +kernel,fun h => ?_⟩
  have hsent := SharesOut.sent_eq h (by decide) "rune"
  exact absurd hsent (by decide)

theorem exact_iff_separate : (withdrawalOf 100000 [⟨60000,"rune"⟩,⟨30000,"usd"⟩]
    ⟨[.withdraw],[⟨.bankSend "user" [⟨59850,"rune"⟩,⟨29925,"usd"⟩],.never,0⟩,
      ⟨.bankSend "collector" [⟨150,"rune"⟩,⟨75,"usd"⟩],.never,0⟩]⟩).Exact ownedByUser.owner ownedByUser.affiliates := by
  have hstep : execute 0 (Deps.withBalance fun _ _ => 100000) ⟨⟨1,⟨1⟩⟩,"strategy"⟩ ⟨"user",[]⟩ ownedByUser
      (.withdraw [⟨60000,"rune"⟩,⟨30000,"usd"⟩])=
        .ok ({ ownedByUser with withdrawals := [⟨59850,"rune"⟩,⟨29925,"usd"⟩] },⟨[.withdraw],
          [⟨.bankSend "user" [⟨59850,"rune"⟩,⟨29925,"usd"⟩],.never,0⟩,
          ⟨.bankSend "collector" [⟨150,"rune"⟩,⟨75,"usd"⟩],.never,0⟩]⟩) := by decide +kernel
  have hrun : Withdraws ownedByUser [withdrawalOf 100000 [⟨60000,"rune"⟩,⟨30000,"usd"⟩] _] _ := .cons hstep (.nil _)
  have haccepted : ([] : List Affiliate).foldlM (ManagerContract.checkAffiliate Deps.silent) 0=.ok 0 := rfl
  have hcalc : ownedByUser.affiliates=ManagerContract.withCalc ⟨"collector",7⟩ [] 0 := rfl
  have hiff := (Withdraws.exact_iff haccepted hcalc hrun).1
  refine (hiff.mpr fun w hw d => ?_) _ List.mem_cons_self
  obtain rfl := List.mem_singleton.mp hw
  refine .inr (.inl ?_)
  simp only [withdrawalOf,amountIn_cons,amountIn_nil]
  split_ifs <;> omega

end

end StrategyContract
end CalcRs
