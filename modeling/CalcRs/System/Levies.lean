import CalcRs.System.Custody
import CalcRs.System.Withdrawals

/-! The fees of the strategies on the chain. The manager puts its own affiliate before those of the owner and limits
their sum, so what a withdrawal costs is known of every strategy, whoever created it. -/
namespace CalcRs

open CalcRs.Distribution (totalBps)
open StrategyContract (SharesOut taken sentToOwner)

/-- The affiliates of a strategy: that of the manager, whose rate depends on the sum of the others, and then these. -/
def Levied (config : ManagerConfig) (affiliates : List Affiliate) : Prop :=
  ∃ others, affiliates=ManagerContract.withCalc config others (totalBps others) ∧
    totalBps others ≤ MAX_TOTAL_AFFILIATE_BPS

variable {config : ManagerConfig} {affiliates : List Affiliate}

theorem Levied.total (h : Levied config affiliates) : 25 ≤ totalBps affiliates ∧ totalBps affiliates ≤ 215 := by
  obtain ⟨others,rfl,hmax⟩ := h
  have hsum : totalBps (ManagerContract.withCalc config others (totalBps others))=
      max (BASE_FEE_BPS-totalBps others) MIN_FEE_BPS+totalBps others := rfl
  rw [MAX_TOTAL_AFFILIATE_BPS] at hmax
  rw [hsum,BASE_FEE_BPS,MIN_FEE_BPS]
  omega

/-- What is shared out at such fees goes to the owner for the most part. -/
theorem Levied.owner_gets {owner : Addr} {withdrawn : Denom → ℕ} {messages : List SubMsg} (h : Levied config affiliates)
    (hs : SharesOut owner affiliates withdrawn messages) (d : Denom) :
    withdrawn d*9785 ≤ sentToOwner messages d*10000 := by
  obtain ⟨final,fees,rfl,hwhole,hfees⟩ := hs
  rw [StrategyContract.sentToOwner_payments]
  have hsum : (affiliates.map fun a => (fees a).amountOf d).sum=
      (affiliates.map fun a => a.withdrawalFee (withdrawn d)).sum :=
    congrArg List.sum (List.map_congr_left fun a ha => hfees a ha d)
  have hcost := StrategyContract.fees_le h.total.2 (withdrawn d)
  have hrest := hwhole d
  rw [hsum] at hrest
  linarith

section

variable [Crates]

namespace Site

variable {site : Site} {w w' : World} {p : Packet} {out ps : List Packet} {a : Addr}

theorem creation_sender {msg : StrategyInstantiateMsg} (h : site.creation a p=some msg) : p.sender=site.manager :=
  founds_sender (a := a) (by rw [founds,h]; rfl)

section

variable {deps : Deps} {env : Env} {info : MessageInfo} {storage storage' : ManagerStorage} {msg : ManagerExecuteMsg}
  {response : ManagerResponse}

theorem accepts_config (h : ManagerContract.Accepts deps env info storage msg storage' response) :
    storage'.config=storage.config := by cases h <;> rfl

/-- Whatever the manager creates is levied. -/
theorem accepts_levied (h : ManagerContract.Accepts deps env info storage msg storage' response) {sub : SubMsg}
    (hsub : sub ∈ response.messages) {init : StrategyInstantiateMsg} (hi : site.creation a ⟨site.manager,sub⟩=some init) :
    Levied storage.config init.affiliates := by
  cases h with
  | @instantiate _ _ _ others _ _ _ total _ _ _ _ _ htotal =>
    obtain ⟨hsum,hmax⟩ := checkAffiliates_total (Nat.zero_le 200) htotal
    rw [Nat.zero_add] at hsum
    rw [List.mem_singleton.mp hsub] at hi
    simp only [creation] at hi
    split_ifs at hi
    obtain rfl := Option.some.inj hi
    exact ⟨others,by rw [hsum],hsum ▸ hmax⟩
  | updateLabel => cases hsub
  | _ =>
    rw [List.mem_singleton.mp hsub] at hi
    cases hi

end

/-- The strategies are levied, and so are those that are to be created. -/
structure Taxed (site : Site) (config : ManagerConfig) (w : World) (ps : List Packet) : Prop where
  housed : site.Housed w ps
  configured : w.manager.config=config
  stored : ∀ a s, w.strategies a=some s → Levied config s.affiliates
  founding : ∀ a, ∀ p ∈ ps, ∀ init, site.creation a p=some init → Levied config init.affiliates

theorem Taxed.call (h : site.Taxed config w (p :: ps)) (hd : site.Delivers w p w' out) :
    site.Taxed config w' (out ++ ps) := by
  have hhoused := (Housed.keeps site).call h.housed trivial hd
  have hmanager : w'.manager.config=config ∧ ∀ a, ∀ q ∈ out, ∀ init, site.creation a q=some init →
      Levied config init.affiliates := by
    cases hm : site.toManager p with
    | none =>
      rw [hd.manager_unasked hm]
      exact ⟨h.configured,fun a q hq init hi => absurd (creation_sender hi) (h.housed.senders hd hm q hq)⟩
    | some msg =>
      obtain ⟨deps,env,storage,response,_,he,rfl,rfl⟩ := h.housed.to_manager hd hm
      refine ⟨(accepts_config he).trans h.configured,fun a q hq init hi => ?_⟩
      obtain ⟨sub,hsub,rfl⟩ := List.mem_map.mp hq
      exact h.configured ▸ accepts_levied he hsub hi
  refine ⟨hhoused,hmanager.1,fun a s' hs' => ?_,fun a q hq init hi => ?_⟩
  · rcases hd.origin (hhoused.home a s' hs').1 hs' with ⟨hs,_⟩ | ⟨_,_,_,s,_,_,hs,_,_,he,_⟩ | ⟨init,_,_,hi,rfl,_⟩
    · exact h.stored a s' hs
    · rw [(StrategyContract.execute_keeps he).2.2]
      exact h.stored a s hs
    · exact h.founding a p List.mem_cons_self init hi
  · rcases List.mem_append.mp hq with hq | hq
    · exact hmanager.2 a q hq init hi
    · exact h.founding a q (List.mem_cons_of_mem _ hq) init hi

theorem Taxed.keeps (site : Site) (config : ManagerConfig) :
    Dispatch.Keeps site.machine Dispatch.Conduct.any (Taxed site config) where
  call h _ hd := h.call hd
  reply {w p ok ps out} h hr := by
    refine ⟨(Housed.keeps site).reply h.housed hr,h.configured,h.stored,fun a q hq init hi => ?_⟩
    rcases List.mem_append.mp hq with hq | hq
    · exact absurd (creation_sender hi) (Replies.senders hr q hq).1
    · exact h.founding a q hq init hi
  drop h hc hf := ⟨(Housed.keeps site).drop h.housed hc hf,h.configured,h.stored,
    fun a q hq => h.founding a q (List.mem_cons_of_mem _ hq)⟩

theorem Taxed.begins (h : site.Taxed config w []) (ho : site.Outside p.sender) : site.Taxed config w [p] := by
  refine ⟨h.housed.begins ho,h.configured,h.stored,fun a q hq init hi => ?_⟩
  rw [List.mem_singleton.mp hq] at hi
  exact absurd (creation_sender hi) ho.1

theorem Taxed.vacant (h : w.Vacant) : site.Taxed w.manager.config w [] :=
  ⟨Housed.vacant h.strategies h.registry,rfl,fun a s hs => absurd ((h.strategies a).symm.trans hs) (by simp),by simp⟩

/-- In every run a withdrawal is the owner's, and pays the fees that the manager installed: of each denom the owner gets
at least 97.85 percent of what is taken, and the affiliates, the fee collector first, exactly their basis points. -/
theorem withdrawals_pay_owner {w₀ : World} (h₀ : w₀.Vacant)
    (h : Dispatch.Delivery site.machine Dispatch.Conduct.any w₀ w p w' out) {s : StrategyStorage}
    (hs : w.strategies a=some s) {amounts : List Coin} (hc : p.calls a=some (.withdraw amounts)) :
    p.sender=s.owner ∧ Levied w₀.manager.config s.affiliates ∧ ∃ messages : List SubMsg,
      out=messages.map (Packet.mk a) ∧ SharesOut s.owner s.affiliates (taken ((w.charge p).bank a) amounts) messages ∧
      ∀ d, taken ((w.charge p).bank a) amounts d*9785 ≤ sentToOwner messages d*10000 := by
  obtain ⟨ps,htaxed,hd⟩ := h.holds (Taxed.keeps site w₀.manager.config) (fun hw hb => hw.begins hb) (Taxed.vacant h₀)
  have ha := (htaxed.housed.home a s hs).1
  have hlevied := htaxed.stored a s hs
  obtain ⟨_,deps,env,t,_,_,ht,hanswers,henv,he,_,rfl⟩ := Delivers.to_strategy hd ha hc
  obtain rfl := Option.some.inj (hs.symm.trans ht)
  subst henv
  obtain ⟨deposits,he⟩ := StrategyContract.execute_eq_ok he
  cases he with
  | withdraw howner hw =>
    have hbank : ∀ d, deps.queryBalance env.contract d=.ok ⟨(w.charge p).bank env.contract d,d⟩ := hanswers.bank env.contract
    have hbps : totalBps s.affiliates<10000 := by
      have := hlevied.total.2
      omega
    have hfees : totalBps ({ s with deposits := deposits } : StrategyStorage).affiliates<10000 := hbps
    obtain ⟨hshares,_⟩ := StrategyContract.withdraw_taken hbank hfees hw
    exact ⟨howner,hlevied,_,rfl,hshares,hlevied.owner_gets hshares⟩

end Site

end

namespace Site

attribute [local instance] Crates.plain

def rich : World := { wealthy Table.empty with bank := fun _ _ => 100000 }

def takeHalf : Packet := ⟨"alice",⟨.wasmExecute "manager/21" (.strategy (.withdraw [⟨50000,"rune"⟩])) [],.never,0⟩⟩

/-- Alice withdraws from a strategy with two partners, who get all that partners may get. -/
def withdrawing : Option (World × List Packet) :=
  ((dawn fun _ => true).transact 6 rich (asks (.instantiate none none "savings"
    [⟨"first","first partner",60⟩,⟨"second","second partner",140⟩] []))).bind fun w =>
      ((dawn fun _ => true).deliver w takeHalf).map fun r => (w,r.2)

theorem withdrawals_pay_owner_partners : ∃ w out messages, withdrawing=some (w,out) ∧
    out=messages.map (Packet.mk "manager/21") ∧
    messages=[⟨.bankSend "alice" [⟨48925,"rune"⟩],.never,0⟩,⟨.bankSend "fees" [⟨75,"rune"⟩],.never,0⟩,
      ⟨.bankSend "first partner" [⟨300,"rune"⟩],.never,0⟩,⟨.bankSend "second partner" [⟨700,"rune"⟩],.never,0⟩] ∧
    50000*9785 ≤ sentToOwner messages "rune"*10000 := by
  have hsound : (dawn fun _ => true).Sound town.machine Dispatch.Conduct.any :=
    player_sound townsfolk_outside (fun _ => trivial) fun _ => trivial
  have hrun : withdrawing.map (fun r => (r.2.map Packet.sub,(r.1.strategies "manager/21").isSome,
      taken ((r.1.charge takeHalf).bank "manager/21") [⟨50000,"rune"⟩] "rune"))=
      some ([⟨.bankSend "alice" [⟨48925,"rune"⟩],.never,0⟩,⟨.bankSend "fees" [⟨75,"rune"⟩],.never,0⟩,
        ⟨.bankSend "first partner" [⟨300,"rune"⟩],.never,0⟩,⟨.bankSend "second partner" [⟨700,"rune"⟩],.never,0⟩],
        true,50000) := by decide +kernel
  obtain ⟨⟨w,out⟩,hw,hrun⟩ := Option.map_eq_some_iff.mp hrun
  obtain ⟨hsubs,hrun⟩ := Prod.mk.inj hrun
  obtain ⟨hstored,htaken⟩ := Prod.mk.inj hrun
  have hpath := hw
  unfold withdrawing at hpath
  obtain ⟨w',hcreated,hpath⟩ := Option.bind_eq_some_iff.mp hpath
  obtain ⟨⟨after,out'⟩,hdeliver,he⟩ := Option.map_eq_some_iff.mp hpath
  obtain ⟨rfl,rfl⟩ := Prod.mk.inj he
  obtain ⟨s,hs⟩ := Option.isSome_iff_exists.mp hstored
  have hbegins : town.machine.begins w' takeHalf := alice_outside (.execute "manager/21")
  have hdelivery := Dispatch.Delivery.first (hsound.transact .start (alice_outside _) hcreated) hbegins trivial
    (hsound.deliver hdeliver)
  have hvacant : rich.Vacant := ⟨fun _ => rfl,rfl,rfl⟩
  obtain ⟨_,_,messages,hout,_,hpays⟩ := withdrawals_pay_owner hvacant hdelivery hs rfl
  have hmessages : messages=out'.map Packet.sub := by
    rw [hout,List.map_map]
    exact (List.map_id messages).symm
  refine ⟨w',out',messages,hw,hout,hmessages.trans hsubs,?_⟩
  have hpays := hpays "rune"
  rwa [htaken] at hpays

end Site
end CalcRs
