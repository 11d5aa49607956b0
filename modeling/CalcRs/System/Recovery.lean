import CalcRs.System.Levies
import CalcRs.System.Rehearsal

/-! The owner gets the balance out, whatever happened before: a withdrawal needs neither the manager nor the nodes, and
the fees leave room for all of its payments. -/
namespace CalcRs

open CalcRs.Distribution (totalBps)

theorem amount_le_amountIn {coin : Coin} {coins : List Coin} (h : coin ∈ coins) :
    coin.amount ≤ amountIn coin.denom coins := by
  induction coins with
  | nil => cases h
  | cons first coins ih =>
    rw [amountIn_cons]
    rcases List.mem_cons.mp h with rfl | h
    · rw [if_pos rfl]
      exact Nat.le_add_right _ _
    · exact (ih h).trans (Nat.le_add_left _ _)

theorem Affiliate.withdrawalFee_le {a : Affiliate} (h : a.bps ≤ 10000) (amount : ℕ) : a.withdrawalFee amount ≤ amount :=
  Nat.div_le_of_le_mul ((Nat.mul_le_mul_left amount h).trans_eq (Nat.mul_comm _ _))

theorem Levied.bps {config : ManagerConfig} {affiliates : List Affiliate} (h : Levied config affiliates) :
    totalBps affiliates<10000 ∧ ∀ a ∈ affiliates, a.bps ≤ 10000 := by
  have htotal := h.total.2
  refine ⟨by omega,fun a ha => ?_⟩
  have hle : a.bps ≤ totalBps affiliates := List.single_le_sum (fun n _ => Nat.zero_le n) _ (List.mem_map_of_mem ha)
  omega

namespace StrategyContract

variable {affiliates : List Affiliate} {deps deps' : Deps} {env env' : Env} {balance : Denom → ℕ}
  {amounts : List Coin}

/-- The fees of a coin can be added up when there is room for the coin. -/
theorem takeFees_succeeds {coin : Coin} {fees : Affiliate → Coins} (left : ℕ) (hbps : ∀ a ∈ affiliates, a.bps ≤ 10000)
    (hroom : ∀ a ∈ affiliates, (fees a).amountOf coin.denom+coin.amount<2^128) :
    ∃ r, takeFees coin (affiliates.map fun a => (a,fees a)) left=.ok r := by
  induction affiliates generalizing left with
  | nil => exact ⟨_,rfl⟩
  | cons a rest ih =>
    have hb := hbps a List.mem_cons_self
    have hr := hroom a List.mem_cons_self
    have hle := Decimal.ratio_le_one hb
    have hrate : Decimal.fromRatio a.bps 10000=.ok ⟨a.bps*Decimal.fractional/10000⟩ :=
      Decimal.fromRatio_eq_ok.mpr ⟨by decide,hle.trans_lt (by decide),rfl⟩
    have hlt : coin.amount<2^128 := (Nat.le_add_left _ _).trans_lt hr
    have hscaled := Decimal.scale_le coin.amount hle
    have hfee : Uint128.mulFloor coin.amount ⟨a.bps*Decimal.fractional/10000⟩=
        .ok (coin.amount*(a.bps*Decimal.fractional/10000)/Decimal.fractional) := fits_of_lt (hscaled.trans_lt hlt)
    have hadd := Coins.add_of_lt (fees a)
      ⟨coin.amount*(a.bps*Decimal.fractional/10000)/Decimal.fractional,coin.denom⟩ (by dsimp only; omega)
    obtain ⟨⟨entries,left'⟩,hrest⟩ := ih (left-coin.amount*(a.bps*Decimal.fractional/10000)/Decimal.fractional)
      (fun b hm => hbps b (List.mem_cons_of_mem _ hm)) fun b hm => hroom b (List.mem_cons_of_mem _ hm)
    exact ⟨_,by rw [List.map_cons,takeFees,hrate,Except.ok_bind,hfee,Except.ok_bind,hadd,Except.ok_bind,hrest]; rfl⟩

/-- The shares of all coins can be added up when there is room for all of them. -/
theorem shares_succeed {coins : List Coin} {fees : Affiliate → Coins} {final : Coins}
    (hbps : ∀ a ∈ affiliates, a.bps ≤ 10000) (hfees : ∀ a ∈ affiliates, ∀ d, (fees a).amountOf d+amountIn d coins<2^128)
    (hfinal : ∀ d, final.amountOf d+amountIn d coins<2^128) :
    ∃ r, coins.foldlM shareCoin (affiliates.map (fun a => (a,fees a)),final)=.ok r := by
  induction coins generalizing fees final with
  | nil => exact ⟨_,rfl⟩
  | cons coin coins ih =>
    simp only [amountIn_cons] at hfees hfinal
    have hroom : ∀ a ∈ affiliates, (fees a).amountOf coin.denom+coin.amount<2^128 := fun a ha => by
      have := hfees a ha coin.denom
      rw [if_pos rfl] at this
      omega
    obtain ⟨⟨entries,left⟩,htake⟩ := takeFees_succeeds coin.amount hbps hroom
    obtain ⟨⟨fees',rfl,hfees'⟩,hleft⟩ := takeFees_adds htake
    have hself := hfinal coin.denom
    rw [if_pos rfl] at hself
    have hadd := Coins.add_of_lt final ⟨left,coin.denom⟩ (by dsimp only; omega)
    have hnext : ∀ a ∈ affiliates, ∀ d, (fees' a).amountOf d+amountIn d coins<2^128 := fun a ha d => by
      have hroom := hfees a ha d
      have hfee := a.withdrawalFee_le (hbps a ha) coin.amount
      rw [Coins.add_amountOf (hfees' a ha)]
      dsimp only
      split_ifs at hroom ⊢ <;> omega
    have hlast : ∀ d, (final.put coin.denom (final.amountOf coin.denom+left)).amountOf d+amountIn d coins<2^128 := fun d => by
      have hroom := hfinal d
      rw [Coins.add_amountOf hadd]
      dsimp only
      split_ifs at hroom ⊢ <;> omega
    obtain ⟨r,hr⟩ := ih hnext hlast
    have hshare : shareCoin (affiliates.map (fun a => (a,fees a)),final) coin=
        .ok (affiliates.map (fun a => (a,fees' a)),final.put coin.denom (final.amountOf coin.denom+left)) := by
      rw [shareCoin,htake,Except.ok_bind]
      dsimp only
      rw [hadd]
      rfl
    exact ⟨r,by rw [List.foldlM_cons,hshare,Except.ok_bind,hr]⟩

theorem withdrawals_succeed (hb : deps.Answers env.contract balance) (hfits : ∀ d, taken balance amounts d<2^128) :
    ∃ c, withdrawals deps env amounts=.ok c := by
  have hfold : ∀ (amounts : List Coin) (start : Coins), (∀ d, start.amountOf d+taken balance amounts d<2^128) →
      ∃ c, amounts.foldlM (fun withdrawals amount => do
        if amount.amount=0 then return withdrawals
        else
          let balance ← query (deps.queryBalance env.contract amount.denom)
          withdrawals.add ⟨min balance.amount amount.amount,amount.denom⟩) start=.ok c := by
    intro amounts
    induction amounts with
    | nil => exact fun start _ => ⟨start,rfl⟩
    | cons amount amounts ih =>
      intro start h
      simp only [taken,List.map_cons,List.sum_cons] at h
      rw [List.foldlM_cons]
      by_cases h0 : amount.amount=0
      · rw [if_pos h0]
        refine ih start fun d => ?_
        have := h d
        rw [taken]
        omega
      · have hself := h amount.denom
        rw [if_pos rfl] at hself
        have hadd := Coins.add_of_lt start ⟨min (balance amount.denom) amount.amount,amount.denom⟩ (by dsimp only; omega)
        rw [if_neg h0,hb,query_ok,Except.ok_bind,hadd,Except.ok_bind]
        refine ih _ fun d => ?_
        have hd := h d
        rw [Coins.add_amountOf hadd,taken]
        dsimp only
        split_ifs at hd ⊢ with he
        · rw [he]
          omega
        · omega
  refine hfold amounts Coins.empty fun d => ?_
  rw [Coins.amountOf_empty,Nat.zero_add]
  exact hfits d

/-- A withdrawal succeeds as long as all that the owner ever withdrew fits. -/
theorem withdraw_succeeds {storage : StrategyStorage} (hb : deps.Answers env.contract balance)
    (hbps : ∀ a ∈ storage.affiliates, a.bps ≤ 10000)
    (hfits : ∀ d, amountIn d storage.withdrawals+taken balance amounts d<2^128) :
    ∃ r, withdraw deps env storage amounts=.ok r := by
  obtain ⟨withdrawn,hw⟩ := withdrawals_succeed hb fun d => (Nat.le_add_left _ _).trans_lt (hfits d)
  unfold withdraw
  split_ifs with hnone
  · exact ⟨_,rfl⟩
  rw [hw,Except.ok_bind]
  split_ifs with hempty
  · exact ⟨_,rfl⟩
  have hsum : ∀ d, amountIn d withdrawn.toVec=taken balance amounts d := fun d =>
    (Coins.amountIn_toVec withdrawn d).trans (withdrawals_amountOf hb hw d)
  have hroom : ∀ d, Coins.empty.amountOf d+amountIn d withdrawn.toVec<2^128 := fun d => by
    have := hfits d
    rw [Coins.amountOf_empty,hsum d]
    omega
  obtain ⟨⟨entries,final⟩,hshares⟩ : ∃ r, withdrawn.toVec.foldlM shareCoin
      (storage.affiliates.map (fun a => (a,Coins.empty)),Coins.empty)=.ok r := shares_succeed hbps (fun _ _ => hroom) hroom
  have hfinal : ∀ d, final.amountOf d ≤ taken balance amounts d := fun d => by
    have hg := @Coins.sum_toVec withdrawn d
      (fun n => n-(storage.affiliates.map fun a => a.withdrawalFee n).sum) (Nat.zero_sub _)
    rw [(shares_adds hshares).2 d,Coins.amountOf_empty,Nat.zero_add,hg,withdrawals_amountOf hb hw d]
    exact Nat.sub_le _ _
  have hbounded : final.Bounded := fun d => by
    have hle := hfinal d
    have := hfits d
    omega
  have hrecord : ∀ coin ∈ storage.withdrawals, coin.amount<2^128 := fun coin hm => by
    have hle := amount_le_amountIn hm
    have := hfits coin.denom
    omega
  obtain ⟨total,htotal⟩ := (Coins.addAll_iff hbounded hrecord).mpr fun d => by
    have hle := hfinal d
    have := hfits d
    omega
  have hfold := hshares
  unfold shareCoin at hfold
  rw [hfold,Except.ok_bind]
  dsimp only
  rw [htotal]
  exact ⟨_,rfl⟩

/-- The chain matters to a withdrawal by the balances only. -/
theorem withdraw_congr {storage : StrategyStorage} (hb : deps.Answers env.contract balance)
    (hb' : deps'.Answers env'.contract balance) :
    withdraw deps env storage amounts=withdraw deps' env' storage amounts := by
  have hread : withdrawals deps env amounts=withdrawals deps' env' amounts := by
    simp only [withdrawals,hb _,hb' _]
  rw [withdraw,withdraw,hread]

end StrategyContract

section

variable [Crates]

theorem World.charge_free {w : World} {p : Packet} (h : p.funds=[]) : w.charge p=w := by
  have hnone : ∀ b x, w.bank b x-p.outflow b x+p.inflow b x=w.bank b x := fun b x => by
    simp [Packet.outflow,Packet.inflow,h]
  rw [World.charge,funext fun b => funext (hnone b)]

namespace StrategyContract

variable {deps : Deps} {env : Env} {amounts : List Coin}

theorem execute_withdraw (gas : ℕ) (storage : StrategyStorage) :
    execute gas deps env ⟨storage.owner,[]⟩ storage (.withdraw amounts)=withdraw deps env storage amounts := by
  have hsender : ¬storage.owner≠storage.owner := fun h => h rfl
  rw [execute,deposit,if_pos List.isEmpty_nil,Except.pure_eq_ok,Except.ok_bind,dispatch,if_neg hsender]

end StrategyContract

namespace Site

variable {site : Site} {w w' : World} {a : Addr} {messages : List SubMsg}

/-- What messages of `a` bring to somebody. -/
def received (a : Addr) (messages : List SubMsg) (b : Addr) (x : Denom) : ℕ :=
  (messages.map fun m => (Packet.mk a m).inflow b x).sum

/-- Payments that the balance covers are all delivered, one after the other. -/
theorem payments_delivered {s : World} {q : Packet} (hsend : ∀ m ∈ messages, ∃ target amount, m.msg=.bankSend target amount)
    (hcovers : ∀ x, StrategyContract.sent messages x ≤ w.bank a x) : ∃ w',
      Dispatch.Steps site.machine Dispatch.Conduct.any ⟨w,[⟨s,q,messages.map (Packet.mk a)⟩]⟩ ⟨w',[⟨s,q,[]⟩]⟩ ∧
      w'.manager=w.manager ∧ w'.triggers=w.triggers ∧ w'.strategies=w.strategies ∧
      ∀ b x, w'.bank b x+(if a=b then StrategyContract.sent messages x else 0)=w.bank b x+received a messages b x := by
  induction messages generalizing w with
  | nil => exact ⟨w,.refl,rfl,rfl,rfl,fun b x => by simp [StrategyContract.sent,received]⟩
  | cons m ms ih =>
    obtain ⟨target,amount,hm⟩ := hsend m List.mem_cons_self
    simp only [StrategyContract.sent,List.map_cons,List.sum_cons] at hcovers
    have hc : w.Covers ⟨a,m⟩ := fun x => (Nat.le_add_right _ _).trans (hcovers x)
    have hbank := fun b x => World.bank_charge hc b x
    have hrest : ∀ x, StrategyContract.sent ms x ≤ (w.charge ⟨a,m⟩).bank a x := fun x => by
      have hb := hbank a x
      have hx := hcovers x
      rw [Packet.outflow,if_pos rfl] at hb
      have houtflow : amountIn x (Packet.mk a m).funds=amountIn x m.msg.funds := rfl
      rw [StrategyContract.sent]
      omega
    obtain ⟨w',hsteps,hmanager,htriggers,hstrategies,hbank'⟩ := ih (fun m' hm' => hsend m' (List.mem_cons_of_mem _ hm')) hrest
    refine ⟨w',(Relation.ReflTransGen.head (.call trivial (.send hm hc)) (.head (.finish (replies_nothing _ _)) hsteps)),
      hmanager,htriggers,hstrategies,fun b x => ?_⟩
    have hb := hbank b x
    have hb' := hbank' b x
    have hout : (Packet.mk a m).outflow b x=if a=b then amountIn x m.msg.funds else 0 := rfl
    rw [hout] at hb
    simp only [received,StrategyContract.sent,List.map_cons,List.sum_cons] at hb' ⊢
    split_ifs at hb hb' ⊢ <;> omega

/-- The owner's call. -/
def withdrawal (owner a : Addr) (amounts : List Coin) : Packet :=
  ⟨owner,⟨.wasmExecute a (.strategy (.withdraw amounts)) [],.never,0⟩⟩

/-- After every run, of whatever transactions, each strategy gives its balance back: when its owner is an account
outside, and asks for amounts that do not compete for a balance, the call succeeds whatever the chain answers, pays him
and the affiliates exactly their parts of all that he asked for and is there, and all payments are delivered. -/
theorem owner_can_withdraw {w₀ : World} (h₀ : w₀.Vacant)
    (h : Dispatch.Reachable site.machine Dispatch.Conduct.any w₀ ⟨w,[]⟩) {s : StrategyStorage} (hs : w.strategies a=some s)
    (ho : site.Outside s.owner) {amounts : List Coin} (hsep : ∀ x, StrategyContract.Separate (w.bank a) amounts x)
    (hfits : ∀ x, amountIn x s.withdrawals+min (w.bank a x) (amountIn x amounts)<2^128) : ∃ s' response w',
      (∀ gas deps env, w.Answers site deps → env.contract=a →
        StrategyContract.execute gas deps env ⟨s.owner,[]⟩ s (.withdraw amounts)=.ok (s',response)) ∧
      StrategyContract.SharesOut s.owner s.affiliates (fun x => min (w.bank a x) (amountIn x amounts)) response.messages ∧
      Dispatch.Commits site.machine Dispatch.Conduct.any w (withdrawal s.owner a amounts) w' ∧
      w'.manager=w.manager ∧ w'.triggers=w.triggers ∧ w'.strategies=Function.update w.strategies a (some s') ∧
      ∀ b x, w'.bank b x+(if a=b then min (w.bank a x) (amountIn x amounts) else 0)=
        w.bank b x+received a response.messages b x := by
  have htaxed := (h.holds (Taxed.keeps site w₀.manager.config) (fun hw hb => hw.begins hb) (Taxed.vacant h₀)).1.now
  have hlevied := htaxed.stored a s hs
  have hbps := hlevied.bps
  have htaken : StrategyContract.taken (w.bank a) amounts=fun x => min (w.bank a x) (amountIn x amounts) :=
    funext fun x => (StrategyContract.taken_eq_iff _ _ _).mpr (hsep x)
  have hanswers : w.Answers site w.deps := World.deps_answers site w
  let env : Env := ⟨⟨0,⟨0⟩⟩,a⟩
  have hbank : w.deps.Answers env.contract (w.bank a) := hanswers.bank a
  obtain ⟨⟨s',response⟩,hw⟩ := StrategyContract.withdraw_succeeds hbank hbps.2 fun x => by rw [htaken]; exact hfits x
  have hexecute : ∀ gas deps env, w.Answers site deps → env.contract=a →
      StrategyContract.execute gas deps env ⟨s.owner,[]⟩ s (.withdraw amounts)=.ok (s',response) := by
    intro gas deps env' hdeps he
    have hbank' : deps.Answers env'.contract (w.bank a) := he ▸ hdeps.bank a
    rw [StrategyContract.execute_withdraw,StrategyContract.withdraw_congr hbank' hbank,hw]
  have hshares := (StrategyContract.withdraw_taken hbank hbps.1 hw).1
  rw [htaken] at hshares
  have hsent := hshares.sent_eq hbps.1
  have hfree : (withdrawal s.owner a amounts).funds=[] := rfl
  have hdelivers : site.Delivers w (withdrawal s.owner a amounts)
      { w with strategies := Function.update w.strategies a (some s') } (response.messages.map (Packet.mk a)) := by
    have hd := @Delivers.strategy _ site w (withdrawal s.owner a amounts) a _ _ _ 0 w.deps env s s' response rfl
      (fun x => Nat.zero_le _) hs rfl ((World.charge_free hfree).symm ▸ hanswers) rfl (hexecute 0 w.deps env hanswers rfl)
    rwa [World.charge_free hfree] at hd
  obtain ⟨w',hsteps,hmanager,htriggers,hstrategies,hpaid⟩ := @payments_delivered _ site
    { w with strategies := Function.update w.strategies a (some s') } a response.messages w (withdrawal s.owner a amounts)
    (StrategyContract.withdraw_sends hw) fun x => by rw [hsent]; exact Nat.min_le_left _ _
  simp only [hsent] at hpaid
  exact ⟨s',response,w',hexecute,hshares,⟨ho,trivial,_,_,hdelivers,hsteps⟩,hmanager,htriggers,hstrategies,hpaid⟩

end Site

end

namespace Site

attribute [local instance] Crates.plain

/-- Alice opens a strategy with two partners, in which there are 100000 of every denom. -/
def opened : Option World := (dawn fun _ => true).transact 6 rich
  (asks (.instantiate none none "savings" [⟨"first","first partner",60⟩,⟨"second","second partner",140⟩] []))

/-- All the rune, asked for with more than there is, and half of the usd. -/
def mostOfIt : List Coin := [⟨200000,"rune"⟩,⟨50000,"usd"⟩]

/-- Her part, and those of the fee collector and of the partners. -/
def parts : List SubMsg :=
  [⟨.bankSend "alice" [⟨97850,"rune"⟩,⟨48925,"usd"⟩],.never,0⟩,⟨.bankSend "fees" [⟨150,"rune"⟩,⟨75,"usd"⟩],.never,0⟩,
    ⟨.bankSend "first partner" [⟨600,"rune"⟩,⟨300,"usd"⟩],.never,0⟩,
    ⟨.bankSend "second partner" [⟨1400,"rune"⟩,⟨700,"usd"⟩],.never,0⟩]

theorem owner_can_withdraw_most : ∃ w w', opened=some w ∧
    Dispatch.Commits town.machine Dispatch.Conduct.any w (withdrawal "alice" "manager/21" mostOfIt) w' ∧
    w'.bank "manager/21" "rune"=0 ∧ w'.bank "manager/21" "usd"=50000 ∧ w'.bank "alice" "rune"=197850 := by
  have hsound : (dawn fun _ => true).Sound town.machine Dispatch.Conduct.any :=
    player_sound townsfolk_outside (fun _ => trivial) fun _ => trivial
  have hrun : opened.map (fun w => ((w.strategies "manager/21").map (fun s => (s.owner,s.withdrawals)),
      (w.bank "manager/21" "rune",w.bank "manager/21" "usd",w.bank "alice" "rune"),
      (w.strategies "manager/21").bind fun s => (StrategyContract.execute 0 w.deps ⟨⟨0,⟨0⟩⟩,"manager/21"⟩ ⟨s.owner,[]⟩ s
        (.withdraw mostOfIt)).toOption.map fun r => r.2.messages))=
      some (some ("alice",[]),(100000,100000,100000),some parts) := by decide +kernel
  obtain ⟨w,hw,hrun⟩ := Option.map_eq_some_iff.mp hrun
  obtain ⟨hstored,hrun⟩ := Prod.mk.inj hrun
  obtain ⟨hheld,hsends⟩ := Prod.mk.inj hrun
  obtain ⟨hrune,hheld⟩ := Prod.mk.inj hheld
  obtain ⟨husd,halice⟩ := Prod.mk.inj hheld
  obtain ⟨s,hs,he⟩ := Option.map_eq_some_iff.mp hstored
  obtain ⟨howner,hrecord⟩ := Prod.mk.inj he
  rw [hs,Option.bind_some] at hsends
  have hreach := hsound.transact .start (alice_outside _) hw
  have hvacant : rich.Vacant := ⟨fun _ => rfl,rfl,rfl⟩
  have hsep : ∀ x, StrategyContract.Separate (w.bank "manager/21") mostOfIt x := fun x => by
    refine .inr (.inr ?_)
    by_cases hx : "rune"=x
    · subst hx
      decide
    · rw [mostOfIt,List.filter_cons_of_neg (by simp [hx])]
      exact List.length_filter_le _ _
  have hfits : ∀ x, amountIn x s.withdrawals+min (w.bank "manager/21" x) (amountIn x mostOfIt)<2^128 := fun x => by
    rw [hrecord,amountIn_nil,Nat.zero_add]
    refine (Nat.min_le_right _ _).trans_lt ?_
    simp only [mostOfIt,amountIn_cons,amountIn_nil]
    split_ifs <;> decide
  obtain ⟨s',response,w',hexecute,_,hcommits,_,_,_,hbank⟩ :=
    owner_can_withdraw hvacant hreach hs (howner ▸ alice_outside (.execute "manager/21")) hsep hfits
  rw [hexecute 0 w.deps ⟨⟨0,⟨0⟩⟩,"manager/21"⟩ (World.deps_answers town w) rfl] at hsends
  have hmessages : response.messages=parts := Option.some.inj hsends
  refine ⟨w,w',hw,howner ▸ hcommits,?_,?_,?_⟩
  · have h := hbank "manager/21" "rune"
    rw [hmessages,hrune,if_pos rfl] at h
    exact Nat.add_right_cancel (h.trans (by decide : _=0+min 100000 (amountIn "rune" mostOfIt)))
  · have h := hbank "manager/21" "usd"
    rw [hmessages,husd,if_pos rfl] at h
    exact Nat.add_right_cancel (h.trans (by decide : _=50000+min 100000 (amountIn "usd" mostOfIt)))
  · have h := hbank "alice" "rune"
    rw [hmessages,halice,if_neg (by decide)] at h
    exact h.trans (by decide)

end Site
end CalcRs
