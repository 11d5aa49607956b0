import CalcRs.System.Levies

/-! The books of a strategy: its record of deposits, its record of withdrawals and its balance, against the messages that
were delivered. What comes with the creation, or is sent without a call, is in no record. -/
namespace CalcRs

namespace StrategyContract

theorem deposit_adds {info : MessageInfo} {s s' : StrategyStorage} {x : Denom}
    (h : deposit s info=.ok s') : amountIn x s'.deposits=amountIn x s.deposits+amountIn x info.funds := by
  unfold deposit at h
  split_ifs at h with hf
  · obtain rfl := Except.ok.inj h
    rw [List.isEmpty_iff.mp hf]
    rfl
  · obtain ⟨deposits,hd,h⟩ := Except.bind_eq_ok.mp h
    obtain ⟨total,ht,h⟩ := Except.bind_eq_ok.mp h
    obtain rfl := Except.ok.inj h
    rw [Coins.amountIn_toVec,Coins.addAll_amountOf ht,Coins.tryFrom_amountOf hd]

theorem withdraw_adds {deps : Deps} {env : Env} {s s' : StrategyStorage} {response : StrategyResponse} {x : Denom}
    {amounts : List Coin} (h : withdraw deps env s amounts=.ok (s',response)) :
    amountIn x s'.withdrawals=amountIn x s.withdrawals+sentToOwner response.messages x := by
  obtain ⟨rfl,rfl,_⟩ | ⟨_,_,final,total,_,_,_,htotal,rfl,rfl⟩ := withdraw_eq_ok h
  · rfl
  · rw [Coins.amountIn_toVec,Coins.addAll_amountOf htotal,sentToOwner,List.take_succ_cons,List.take_zero,sent,
      List.map_singleton,List.sum_singleton,Nat.add_comm]
    exact congrArg _ (Coins.amountIn_toVec final x).symm

end StrategyContract

section

variable [Crates]

namespace StrategyContract

variable {gas : ℕ} {deps : Deps} {env : Env} {info : MessageInfo} {s s' : StrategyStorage} {msg : StrategyExecuteMsg}
  {response : StrategyResponse} {x : Denom}

/-- What a withdrawal pays the owner. -/
def paidOut (msg : StrategyExecuteMsg) (messages : List SubMsg) (x : Denom) : ℕ :=
  match msg with
  | .withdraw _ => sentToOwner messages x
  | _ => 0

/-- A call records its funds, and a withdrawal what the owner gets. -/
theorem execute_records (h : execute gas deps env info s msg=.ok (s',response)) :
    amountIn x s'.deposits=amountIn x s.deposits+amountIn x info.funds ∧
    amountIn x s'.withdrawals=amountIn x s.withdrawals+paidOut msg response.messages x := by
  obtain ⟨s₁,hdeposit,h⟩ := Except.bind_eq_ok.mp h
  have hadds := deposit_adds (x := x) hdeposit
  obtain ⟨deposits,rfl⟩ := deposit_eq_ok hdeposit
  rw [← hadds]
  cases dispatch_eq_ok h with
  | withdraw _ hw =>
    have hkeeps := withdraw_adds (x := x) hw
    obtain ⟨_,rfl⟩ := withdraw_keeps hw
    exact ⟨rfl,hkeeps⟩
  | _ => exact ⟨rfl,rfl⟩

end StrategyContract

namespace Site

variable {site : Site} {w w' : World} {p : Packet} {out : List Packet} {a : Addr} {x : Denom}

/-- What a delivery adds to the record of deposits. -/
def credited (a : Addr) (x : Denom) (e : Packet × List Packet) : ℕ :=
  if (e.1.calls a).isSome then amountIn x e.1.funds else 0

/-- What a delivery adds to the record of withdrawals: the payment to the owner, which comes first. -/
def drawn (a : Addr) (x : Denom) (e : Packet × List Packet) : ℕ :=
  match e.1.calls a with
  | some msg => StrategyContract.paidOut msg (e.2.map Packet.sub) x
  | none => 0

/-- What a strategy gets without being called. -/
def given (a : Addr) (x : Denom) (e : Packet × List Packet) : ℕ :=
  if (e.1.calls a).isSome then 0 else e.1.inflow a x

theorem inflow_eq (e : Packet × List Packet) : e.1.inflow a x=credited a x e+given a x e := by
  unfold credited given
  split_ifs with hc
  · obtain ⟨msg,hc⟩ := Option.isSome_iff_exists.mp hc
    unfold Packet.calls CosmosMsg.strategyCall at hc
    split at hc
    · split_ifs at hc with ht
      rename_i hm
      rw [Packet.inflow,Packet.receiver,hm,ht,if_pos rfl,Nat.add_zero]
    · cases hc
  · rw [Nat.zero_add]

/-- The records of the strategy at an address; a strategy that is to come has none. -/
def recorded (record : StrategyStorage → List Coin) (a : Addr) (x : Denom) (w : World) : ℕ :=
  ((w.strategies a).map fun s => amountIn x (record s)).getD 0

theorem Delivers.uncalled (hd : site.Delivers w p w' out) (ha : site.Strategy a) (hc : p.calls a=none)
    {record : StrategyStorage → List Coin} (hnew : ∀ manager owner affiliates, record ⟨manager,owner,affiliates,[],[],Table.empty,none⟩=[]) : recorded record a x w'=recorded record a x w := by
  unfold recorded
  cases hs' : w'.strategies a with
  | none =>
    cases hs : w.strategies a with
    | none => rfl
    | some s =>
      obtain ⟨t,ht,_⟩ := hd.remains hs
      cases hs'.symm.trans ht
  | some s' =>
    rcases hd.origin ha hs' with ⟨hs,_⟩ | ⟨_,_,_,_,_,_,_,hcalled,_⟩ | ⟨_,hfree,_,_,rfl,_⟩
    · rw [hs]
    · cases hc.symm.trans hcalled
    · rw [hfree,Option.map_some,Option.getD_some,hnew]
      rfl

/-- A delivery changes the records by what it credits and what it draws. -/
theorem Delivers.records (hd : site.Delivers w p w' out) (ha : site.Strategy a) :
    recorded StrategyStorage.deposits a x w'=recorded StrategyStorage.deposits a x w+credited a x (p,out) ∧
    recorded StrategyStorage.withdrawals a x w'=recorded StrategyStorage.withdrawals a x w+drawn a x (p,out) := by
  cases hc : p.calls a with
  | none =>
    have hcredited : credited a x (p,out)=0 := by simp [credited,hc]
    have hdrawn : drawn a x (p,out)=0 := by simp [drawn,hc]
    rw [hcredited,hdrawn]
    exact ⟨hd.uncalled ha hc fun _ _ _ => rfl,hd.uncalled ha hc fun _ _ _ => rfl⟩
  | some msg =>
    obtain ⟨_,_,_,s,s',response,hs,_,_,he,rfl,rfl⟩ := hd.to_strategy ha hc
    obtain ⟨hdeposits,hwithdrawals⟩ := StrategyContract.execute_records (x := x) he
    have hsubs : (response.messages.map (Packet.mk a)).map Packet.sub=response.messages := by
      rw [List.map_map]
      exact List.map_id response.messages
    constructor
    · simpa [recorded,credited,hs,hc] using hdeposits
    · simpa [recorded,drawn,hs,hc,hsubs] using hwithdrawals

/-- At every point of every run the records of a strategy, and its balance, are what the deliveries say: deposits are the
funds of all calls, withdrawals what the owner got by them, and the balance is what it was, with the deposits and what was
given without a call, less all that was sent. -/
theorem books_balance {w₀ : World} (h₀ : w₀.Vacant) {c : Dispatch.Config (World × Dispatch.History Packet) Packet}
    (h : Dispatch.Reachable site.machine.logging Dispatch.Conduct.any.recording (w₀,[]) c) {s : StrategyStorage}
    (hs : c.world.1.strategies a=some s) (x : Denom) :
    amountIn x s.deposits=(c.world.2.map (credited a x)).sum ∧
    amountIn x s.withdrawals=(c.world.2.map (drawn a x)).sum ∧
    c.world.1.bank a x+(c.world.2.map fun e => e.1.outflow a x).sum=
      w₀.bank a x+(amountIn x s.deposits+(c.world.2.map (given a x)).sum) := by
  have hbegin : ∀ {w p}, site.Housed w [] → site.machine.begins w p → site.Housed w [p] := fun hw hb => hw.begins hb
  have hvacant : site.Housed w₀ [] := Housed.vacant h₀.strategies h₀.registry
  have ha : site.Strategy a := ((h.logged (Housed.keeps site) hbegin hvacant).1.home a s hs).1
  have hnone : ∀ record, recorded record a x w₀=0 := fun record => by
    rw [recorded,h₀.strategies]
    rfl
  have hzero : (c.world.2.map fun _ => 0).sum=0 := by simp
  have hsome : ∀ record, recorded record a x c.world.1=amountIn x (record s) := fun record => by
    rw [recorded,hs]
    rfl
  have hdeposits : amountIn x s.deposits=(c.world.2.map (credited a x)).sum := by
    have htally := h.tallied (recorded StrategyStorage.deposits a x) (credited a x) (fun _ => 0) (Housed.keeps site) hbegin
      hvacant fun _ hd => (Delivers.records hd ha).1
    rw [hzero,hnone,hsome] at htally
    omega
  have hwithdrawals : amountIn x s.withdrawals=(c.world.2.map (drawn a x)).sum := by
    have htally := h.tallied (recorded StrategyStorage.withdrawals a x) (drawn a x) (fun _ => 0) (Housed.keeps site) hbegin
      hvacant fun _ hd => (Delivers.records hd ha).2
    rw [hzero,hnone,hsome] at htally
    omega
  refine ⟨hdeposits,hwithdrawals,?_⟩
  have htally := h.tallied (fun w => w.bank a x) (fun e => e.1.inflow a x) (fun e => e.1.outflow a x) (Housed.keeps site)
    hbegin hvacant fun _ hd => by
      obtain ⟨hcovers,hbank⟩ := Delivers.bank hd
      have := World.bank_charge hcovers a x
      rwa [hbank]
  have hinflow : (c.world.2.map fun e => e.1.inflow a x).sum=
      (c.world.2.map (credited a x)).sum+(c.world.2.map (given a x)).sum := by
    rw [← List.sum_map_add]
    exact congrArg List.sum (List.map_congr_left fun e _ => inflow_eq e)
  rw [hinflow,← hdeposits] at htally
  exact htally

end Site

end

namespace Site

attribute [local instance] Crates.plain

/-- Alice runs her strategy with thirty rune, bob gives it five, and she withdraws forty. -/
def accounted : Option (World × Dispatch.History Packet) :=
  let scribe := (dawn fun _ => true).recording Dispatch.History.enter
  (scribe.transact 6 (wealthy Table.empty,[]) (asks (.instantiate none none "savings" [] []))).bind fun created =>
    (scribe.transact 4 created ⟨"alice",⟨.wasmExecute "manager" (.manager (.execute "manager/21")) [⟨30,"rune"⟩],.never,0⟩⟩).bind
      fun executed => (scribe.transact 0 executed ⟨"bob",⟨.bankSend "manager/21" [⟨5,"rune"⟩],.never,0⟩⟩).bind fun rich =>
        scribe.transact 2 rich ⟨"alice",⟨.wasmExecute "manager/21" (.strategy (.withdraw [⟨40,"rune"⟩])) [],.never,0⟩⟩

theorem accounted_reachable {w : World} {history : Dispatch.History Packet} (h : accounted=some (w,history)) :
    Dispatch.Reachable town.machine.logging Dispatch.Conduct.any.recording (wealthy Table.empty,[]) ⟨(w,history),[]⟩ := by
  have hsound : (dawn fun _ => true).Sound town.machine Dispatch.Conduct.any :=
    player_sound townsfolk_outside (fun _ => trivial) fun _ => trivial
  have hscribe := hsound.recording Dispatch.History.enter
  have halice : town.Outside "alice" := town_outside (by decide) (by decide)
  have hbob : town.Outside "bob" := town_outside (by decide) (by decide)
  obtain ⟨created,h₁,h⟩ := Option.bind_eq_some_iff.mp h
  obtain ⟨executed,h₂,h⟩ := Option.bind_eq_some_iff.mp h
  obtain ⟨rich,h₃,h₄⟩ := Option.bind_eq_some_iff.mp h
  refine hscribe.transact (hscribe.transact (hscribe.transact (hscribe.transact .start ?_ h₁) ?_ h₂) ?_ h₃) ?_ h₄
  exacts [halice,halice,hbob,halice]

theorem books_balance_accounted : ∃ w history s, accounted=some (w,history) ∧ w.strategies "manager/21"=some s ∧
    amountIn "rune" s.deposits=30 ∧ amountIn "rune" s.withdrawals=40 ∧ w.bank "manager/21" "rune"+40=100+(30+5) := by
  have hrun : accounted.map (fun c => ((c.1.strategies "manager/21").isSome,(c.2.map (credited "manager/21" "rune")).sum,
      (c.2.map (drawn "manager/21" "rune")).sum,(c.2.map (given "manager/21" "rune")).sum,
      (c.2.map fun e => e.1.outflow "manager/21" "rune").sum))=some (true,30,40,5,40) := by decide +kernel
  obtain ⟨⟨w,history⟩,hc,hrun⟩ := Option.map_eq_some_iff.mp hrun
  obtain ⟨hstored,hrun⟩ := Prod.mk.inj hrun
  obtain ⟨hcredited,hrun⟩ := Prod.mk.inj hrun
  obtain ⟨hdrawn,hrun⟩ := Prod.mk.inj hrun
  obtain ⟨hgiven,hsent⟩ := Prod.mk.inj hrun
  obtain ⟨s,hs⟩ := Option.isSome_iff_exists.mp hstored
  obtain ⟨hdeposits,hwithdrawals,hbalance⟩ := books_balance wealthy_vacant (accounted_reachable hc) hs "rune"
  rw [hdeposits,hcredited,hgiven,hsent] at hbalance
  exact ⟨w,history,s,hc,hs,hdeposits.trans hcredited,hwithdrawals.trans hdrawn,hbalance⟩

end Site
end CalcRs
