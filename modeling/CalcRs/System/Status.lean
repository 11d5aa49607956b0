import CalcRs.System.Calls
import CalcRs.System.Rehearsal
import CalcRs.System.Requests

/-! The status in the registry against the nodes that strategies execute. The manager checks it when it is
asked to execute a strategy, and nothing checks it later. -/
namespace CalcRs

section

variable [Crates]

/-- A call that the strategy makes of itself to execute its nodes. -/
def StrategyExecuteMsg.goesOn : StrategyExecuteMsg → Bool
  | .init _ => true
  | .process .execute _ => true
  | _ => false

/-- A call of the manager on which the strategy does so. -/
def StrategyExecuteMsg.starts : StrategyExecuteMsg → Bool
  | .execute => true
  | .update _ => true
  | _ => false

/-- The registry has the strategy as `Active`. -/
def World.Active (w : World) (a : Addr) : Prop := ∃ strategy, w.manager.strategies.get? a=some strategy ∧ strategy.status=.active

namespace Site

variable {site : Site} {w w' : World} {p : Packet} {out ps : List Packet} {a : Addr}

/-- The message leads to a run of the strategy in `Execute` mode. -/
inductive Runs (site : Site) (a : Addr) (p : Packet) : Prop
  | own {msg : StrategyExecuteMsg} : p.sender=a → p.calls a=some msg → msg.goesOn=true → Runs site a p
  | command {msg : StrategyExecuteMsg} : p.sender=site.manager → p.calls a=some msg → msg.starts=true → Runs site a p
  | creation {admin : Option Addr} {codeId : ℕ} {label : String} {salt : ℕ} {msg : StrategyInstantiateMsg}
      {funds : List Coin} : p.sub.msg=.instantiate2 admin codeId label salt msg funds → p.sender=site.manager →
      a=Crates.instantiate2Address codeId site.manager salt → Runs site a p

/-- A strategy is updated only while it is active, and suspended only while no run of it is under way. -/
def orderly (site : Site) : Dispatch.Conduct World Packet where
  calls w p ps := match site.toManager p with
    | some (.update a _) => w.Active a
    | some (.updateStatus a status) => status≠.active → ∀ q ∈ ps, ¬site.Runs a q
    | _ => True
  fails _ _ := True

/-- Every strategy belongs to the manager, and a run is under way only of those that are active. -/
structure Lawful (site : Site) (w : World) (ps : List Packet) : Prop where
  home : ∀ a s, w.strategies a=some s → site.Strategy a ∧ s.manager=site.manager
  active : ∀ a, site.Strategy a → ∀ p ∈ ps, site.Runs a p → w.Active a

theorem Runs.sender (h : site.Runs a p) : p.sender=a ∨ p.sender=site.manager := by
  cases h with
  | own hs _ _ => exact .inl hs
  | command hs _ _ => exact .inr hs
  | creation _ hs _ => exact .inr hs

theorem Runs.called {b : Addr} {message : StrategyExecuteMsg} {funds : List Coin}
    (h : site.Runs b ⟨site.manager,ManagerContract.callStrategy a message funds⟩) (hb : site.Strategy b) :
    b=a ∧ message.starts=true := by
  cases h with
  | own hs _ _ => exact absurd hs.symm hb.1
  | @command call _ hcall hst =>
    simp only [Packet.calls,ManagerContract.callStrategy,CosmosMsg.strategyCall,Body.toStrategy] at hcall
    split_ifs at hcall with hab
    exact ⟨hab.symm,Option.some.inj hcall ▸ hst⟩
  | creation hm _ _ => simp [ManagerContract.callStrategy] at hm

theorem Runs.created {b : Addr} {admin : Option Addr} {codeId : ℕ} {label : String} {salt : ℕ}
    {msg : StrategyInstantiateMsg} {funds : List Coin}
    (h : site.Runs b ⟨site.manager,⟨.instantiate2 admin codeId label salt msg funds,.never,0⟩⟩) (hb : site.Strategy b) :
    b=Crates.instantiate2Address codeId site.manager salt := by
  cases h with
  | own hs _ _ => exact absurd hs.symm hb.1
  | command _ hcall _ => simp [Packet.calls,CosmosMsg.strategyCall] at hcall
  | creation hm _ he =>
    simp only [CosmosMsg.instantiate2.injEq] at hm
    obtain ⟨_,rfl,_,rfl,_⟩ := hm
    exact he

theorem Outside.not_runs (ho : site.Outside p.sender) (ha : site.Strategy a) : ¬site.Runs a p := fun h => by
  rcases h.sender with hs | hs
  · exact ho.not_strategy (hs ▸ ha)
  · exact ho.1 hs

theorem Lawful.extend (h : site.Lawful w (p :: ps)) (hs : ∀ a s, w'.strategies a=some s → site.Strategy a ∧ s.manager=site.manager)
    (hkeep : ∀ a, site.Strategy a → ∀ q ∈ ps, site.Runs a q → w.Active a → w'.Active a)
    (hout : ∀ a, site.Strategy a → ∀ q ∈ out, site.Runs a q → w'.Active a) : site.Lawful w' (out ++ ps) := by
  refine ⟨hs,fun a ha q hq hr => ?_⟩
  rcases List.mem_append.mp hq with hq | hq
  · exact hout a ha q hq hr
  · exact hkeep a ha q hq hr (h.active a ha q (List.mem_cons_of_mem _ hq) hr)

/-- What a strategy sends leads to a run of it only if the call did. -/
theorem sends_runs {gas : ℕ} {deps : Deps} {env : Env} {s s' : StrategyStorage} {msg : StrategyExecuteMsg}
    {response : StrategyResponse} (ha : site.Strategy env.contract) (hm : s.manager=site.manager)
    (hc : p.calls env.contract=some msg)
    (h : StrategyContract.execute gas deps env ⟨p.sender,p.funds⟩ s msg=.ok (s',response)) {b : Addr} (hb : site.Strategy b)
    {sub : SubMsg} (hs : sub ∈ response.messages) (hr : site.Runs b ⟨env.contract,sub⟩) :
    b=env.contract ∧ site.Runs env.contract p := by
  have hself : b=env.contract := by
    rcases hr.sender with he | he
    · exact he.symm
    · exact absurd he ha.1
  subst hself
  refine ⟨rfl,?_⟩
  have hgoes : ∃ call, sub.msg.strategyCall env.contract=some call ∧ call.goesOn=true := by
    cases hr with
    | own _ hc hg => exact ⟨_,hc,hg⟩
    | command he _ _ => exact absurd he ha.1
    | creation _ he _ => exact absurd he ha.1
  obtain ⟨call,hcall,hgo⟩ := hgoes
  obtain ⟨_,h⟩ := StrategyContract.execute_sends h
  cases msg with
  | init nodes => exact .own h.1 hc rfl
  | execute => exact .command (h.1.trans hm) hc rfl
  | update nodes => exact .command (h.1.trans hm) hc rfl
  | withdraw amounts =>
    obtain ⟨_,_,he⟩ := h sub hs
    simp [he,CosmosMsg.strategyCall] at hcall
  | cancel =>
    rw [h.2,List.mem_singleton] at hs
    obtain rfl : call=.process .cancel none := by simpa [hs,callSelf,CosmosMsg.strategyCall,Body.toStrategy] using hcall.symm
    cases hgo
  | process operation previous =>
    cases operation with
    | execute => exact .own h.1 hc rfl
    | cancel =>
      obtain ⟨_,r,_,hp,_,he⟩ := h
      rw [he] at hs
      rcases StrategyContract.mem_processResponse hs with ⟨m,hm,i,rfl⟩ | ⟨q,rfl⟩
      · obtain ⟨node,ms,node',hrun,hmem⟩ := StrategyContract.process_emitted hp m hm
        simp [(Node.cancel_closes hrun m hmem).2] at hcall
      · obtain rfl : call=.process .cancel (some q) := by
          simpa [callSelf,CosmosMsg.strategyCall,Body.toStrategy] using hcall.symm
        cases hgo

/-- The manager registers one strategy, and sends at most a message to it. -/
theorem Lawful.register {storage : ManagerStorage} {registered : CalcRs.Strategy} (h : site.Lawful w (p :: ps))
    (hreg : storage.strategies=w.manager.strategies.insert a registered)
    (hkept : w.Active a → (∃ q ∈ ps, site.Runs a q) → registered.status=.active)
    (hout : ∀ b, site.Strategy b → ∀ q ∈ out, site.Runs b q → b=a ∧ registered.status=.active) :
    site.Lawful { w.charge p with manager := storage } (out ++ ps) := by
  have hself : registered.status=.active → World.Active { w.charge p with manager := storage } a := fun hs =>
    ⟨registered,(congrArg (Table.get? · a) hreg).trans (Table.get?_insert_self ..),hs⟩
  refine h.extend h.home (fun b hb q hq hr hw => ?_) fun b hb q hq hr => ?_
  · by_cases hba : b=a
    · subst hba
      exact hself (hkept hw ⟨q,hq,hr⟩)
    · obtain ⟨strategy,hg,hs⟩ := hw
      refine ⟨strategy,?_,hs⟩
      rw [← hg]
      exact (congrArg (Table.get? · b) hreg).trans (Table.get?_insert_of_ne _ _ hba)
  · obtain ⟨rfl,hs⟩ := hout b hb q hq hr
    exact hself hs

/-- The manager starts runs of active strategies only, and suspends none that runs. -/
theorem Lawful.manager {deps : Deps} {env : Env} {funds : List Coin} {msg : ManagerExecuteMsg} {storage : ManagerStorage}
    {response : ManagerResponse} (h : site.Lawful w (p :: ps)) (hc : site.orderly.calls w p ps)
    (hmsg : site.toManager p=some msg) (henv : env.contract=site.manager)
    (he : ManagerContract.execute deps env ⟨p.sender,funds⟩ w.manager msg=.ok (storage,response)) :
    site.Lawful { w.charge p with manager := storage } (response.messages.map (Packet.mk site.manager) ++ ps) := by
  simp only [orderly,hmsg] at hc
  -- the status of a strategy that stays registered
  have hsame : ∀ {b strategy}, w.manager.strategies.get? b=some strategy → w.Active b → strategy.status=.active := by
    rintro b strategy hget ⟨_,hg,hs⟩
    rwa [Option.some.inj (hget.symm.trans hg)]
  cases ManagerContract.execute_accepts he with
  | instantiate _ _ _ _ _ _ _ ha =>
    refine h.register rfl (fun _ _ => rfl) fun b hb q hq hr => ⟨?_,rfl⟩
    obtain rfl := List.mem_singleton.mp hq
    rw [hr.created hb,ha,henv]
  | execute hget hs =>
    refine h.register rfl (fun _ _ => hs) fun b hb q hq hr => ⟨?_,hs⟩
    obtain rfl := List.mem_singleton.mp hq
    exact (hr.called hb).1
  | update hget _ =>
    have hkept := fun hw => hsame hget hw
    refine h.register rfl (fun hw _ => hkept hw) fun b hb q hq hr => ⟨?_,hkept hc⟩
    obtain rfl := List.mem_singleton.mp hq
    exact (hr.called hb).1
  | @updateStatus a status strategy hget _ =>
    refine h.register rfl (fun _ hruns => ?_) fun b hb q hq hr => ?_
    · by_contra hne
      obtain ⟨q,hq,hr⟩ := hruns
      exact hc hne q hq hr
    · obtain rfl := List.mem_singleton.mp hq
      obtain ⟨hba,hstarts⟩ := hr.called hb
      refine ⟨hba,?_⟩
      cases status with
      | active => rfl
      | paused => cases hstarts
      | archived => cases hstarts
  | updateLabel _ hget _ =>
    have hkept := fun hw => hsame hget hw
    exact h.register rfl (fun hw _ => hkept hw) fun b hb q hq => by cases hq

theorem Lawful.keeps (site : Site) : Dispatch.Keeps site.machine site.orderly (Lawful site) where
  call {w w' p ps out} h hc hd := by
    have hd : site.Delivers w p w' out := hd
    cases hd with
    | send _ _ => exact h.extend h.home (fun _ _ _ _ _ hw => hw) (by simp)
    | deposit _ _ => exact h.extend h.home (fun _ _ _ _ _ hw => hw) (by simp)
    | manager hmsg _ hbody _ henv he => exact h.manager hc (by simp [toManager,hmsg,hbody]) henv he
    | scheduler _ _ _ _ _ _ =>
      refine h.extend h.home (fun _ _ _ _ _ hw => hw) fun b hb q hq hr => ?_
      obtain ⟨_,_,rfl⟩ := List.mem_map.mp hq
      rcases hr.sender with he | he
      · exact absurd he.symm hb.2.1
      · exact absurd he.symm site.distinct
    | @strategy target body funds msg _ _ env _ _ _ hmsg _ hs hbody _ henv he =>
      obtain ⟨hhome,hman⟩ := h.home target _ hs
      refine h.extend (fun b t hb => ?_) (fun _ _ _ _ _ hw => hw) fun b hb q hq hr => ?_
      · by_cases hbt : b=target
        · subst hbt
          simp only [Function.update_self,Option.some.injEq] at hb
          exact ⟨hhome,by rw [← hb,(StrategyContract.execute_sends he).1,hman]⟩
        · simp only [Function.update_of_ne hbt] at hb
          exact h.home b t hb
      · obtain ⟨sub,hsub,rfl⟩ := List.mem_map.mp hq
        subst henv
        have hcalls : p.calls env.contract=some msg := by simp [Packet.calls,CosmosMsg.strategyCall,hmsg,hbody]
        have hfunds : p.funds=funds := by simp [Packet.funds,hmsg,CosmosMsg.funds]
        obtain ⟨rfl,hrun⟩ := sends_runs hhome hman hcalls (hfunds ▸ he) hb hsub hr
        exact h.active _ hb p List.mem_cons_self hrun
    | @instantiate _ codeId _ salt msg funds env s _ hmsg hsender _ henv hm hsch _ hi =>
      have hat : site.Strategy env.contract := ⟨hm,hsch,codeId,salt,henv⟩
      obtain ⟨rfl,rfl⟩ := StrategyContract.instantiate_eq_ok hi
      refine h.extend (fun b t hb => ?_) (fun _ _ _ _ _ hw => hw) fun b hb q hq hr => ?_
      · by_cases hbt : b=env.contract
        · subst hbt
          simp only [Function.update_self,Option.some.injEq] at hb
          exact ⟨hat,by rw [← hb]; exact hsender⟩
        · simp only [Function.update_of_ne hbt] at hb
          exact h.home b t hb
      · obtain ⟨_,_,rfl⟩ := List.mem_map.mp hq
        rcases hr.sender with he | he
        · obtain rfl : env.contract=b := he
          exact h.active _ hb p List.mem_cons_self (.creation hmsg hsender henv)
        · exact absurd he hat.1
    | outside _ ho _ hq =>
      exact h.extend h.home (fun _ _ _ _ _ hw => hw) fun b hb q hm hr =>
        absurd hr (Outside.not_runs ((hq q hm).symm ▸ ho) hb)
  reply {w p ok ps out} h hr := by
    refine ⟨h.home,fun a ha q hq hrun => ?_⟩
    rcases List.mem_append.mp hq with hq | hq
    · exact absurd hrun (Outside.not_runs (Replies.senders hr q hq) ha)
    · exact h.active a ha q hq hrun
  drop h _ _ := ⟨h.home,fun a ha q hq => h.active a ha q (List.mem_cons_of_mem _ hq)⟩

/-- In an orderly run every node that is executed in `Execute` mode belongs to an active strategy. -/
theorem executes_only_active {w₀ : World} (hnone : ∀ a, w₀.strategies a=none)
    (h : Dispatch.Delivery site.machine site.orderly w₀ w p w' out) {s : StrategyStorage} (hs : w.strategies a=some s)
    {previous : Option ℕ} (hp : p.calls a=some (.process .execute previous)) : w.Active a := by
  obtain ⟨ps,hlaw,hd⟩ := h.holds (Lawful.keeps site)
    (fun {w p} hw hb => ⟨hw.home,fun a ha q hq hr => by
      rw [List.mem_singleton.mp hq] at hr
      exact absurd hr (Outside.not_runs hb ha)⟩)
    ⟨fun a s hs => by simp [hnone] at hs,by simp⟩
  have ha := (hlaw.home a s hs).1
  obtain ⟨_,_,env,_,_,_,_,_,henv,he,_,_⟩ := Delivers.to_strategy hd ha hp
  have hsender : p.sender=a := (StrategyContract.execute_sends he).2.1.trans henv
  exact hlaw.active a ha p List.mem_cons_self (.own hsender hp rfl)

end Site

end

namespace Site

attribute [local instance] Crates.plain

/-- Alice asks the manager. -/
def asks (msg : ManagerExecuteMsg) : Packet := ⟨"alice",⟨.wasmExecute "manager" (.manager msg) [],.never,0⟩⟩

/-- A node that pays everything to one account. -/
def payOut : Node := .action (.distribute ⟨["rune"],[⟨10000,.bank "saver",none,none⟩]⟩) 0 none

/-- The town in its first block, where the manager is asked nothing but what is allowed. -/
def dawn (allows : ManagerExecuteMsg → Bool) : Dispatch.Player World Packet :=
  town.player ⟨1,⟨1⟩⟩ (townsfolk fun _ => []) fun _ p _ => (town.toManager p).all allows

def isCreation : ManagerExecuteMsg → Bool
  | .instantiate .. => true
  | _ => false

/-- A new strategy up to the first call in which its node is executed. -/
def creationRun (nodes : List Node) : Option (Dispatch.Config World Packet) :=
  ((dawn isCreation).start (wealthy Table.empty) (asks (.instantiate none none "savings" [] nodes))).bind
    ((dawn isCreation).play 2)

/-- A strategy that is created without nodes, suspended and updated. -/
def suspendedRun : Option (Dispatch.Config World Packet) := do
  let created ← (dawn fun _ => true).transact 6 (wealthy Table.empty) (asks (.instantiate none none "savings" [] []))
  let suspended ← (dawn fun _ => true).transact 4 created (asks (.updateStatus "manager/21" .paused))
  let updated ← (dawn fun _ => true).start suspended (asks (.update "manager/21" [payOut]))
  (dawn fun _ => true).play 4 updated

theorem alice_outside (msg : ManagerExecuteMsg) : town.Outside (asks msg).sender :=
  have h : town.Outside "alice" := town_outside (by decide) (by decide)
  h

/-- The update of a suspended strategy executes its new node. -/
theorem update_executes_suspended : ∃ w p w' out, Dispatch.Delivery town.machine Dispatch.Conduct.any
      (wealthy Table.empty) w p w' out ∧ p.calls "manager/21"=some (.process .execute none) ∧
    (w.manager.strategies.get? "manager/21").map (fun s => s.status)=some .paused ∧
    out=[⟨"manager/21",⟨.bankSend "saver" [⟨99,"rune"⟩],.always,0⟩⟩,⟨"manager/21",⟨.bankSend "fees" [⟨1,"rune"⟩],.always,0⟩⟩,
      ⟨"manager/21",⟨.wasmExecute "manager/21" (.strategy (.process .execute (some 0))) [],.never,0⟩⟩] := by
  have hsound : (dawn fun _ => true).Sound town.machine Dispatch.Conduct.any :=
    player_sound townsfolk_outside (fun _ => trivial) fun _ => trivial
  have hrun : (suspendedRun.bind fun c => ((dawn fun _ => true).next c).map fun r => (r.1.calls "manager/21",
      (c.world.manager.strategies.get? "manager/21").map (fun s => s.status),r.2.2))=
      some (some (.process .execute none),some .paused,
        [⟨"manager/21",⟨.bankSend "saver" [⟨99,"rune"⟩],.always,0⟩⟩,
         ⟨"manager/21",⟨.bankSend "fees" [⟨1,"rune"⟩],.always,0⟩⟩,
         ⟨"manager/21",⟨.wasmExecute "manager/21" (.strategy (.process .execute (some 0))) [],.never,0⟩⟩]) := by
    decide +kernel
  obtain ⟨c,hc,hrun⟩ := Option.bind_eq_some_iff.mp hrun
  obtain ⟨⟨p,w',out⟩,hnext,hrun⟩ := Option.map_eq_some_iff.mp hrun
  obtain ⟨hcalls,hrun⟩ := Prod.mk.inj hrun
  obtain ⟨hstatus,hout⟩ := Prod.mk.inj hrun
  obtain ⟨created,h₁,hc⟩ := Option.bind_eq_some_iff.mp hc
  obtain ⟨suspended,h₂,hc⟩ := Option.bind_eq_some_iff.mp hc
  obtain ⟨updated,h₃,hc⟩ := Option.bind_eq_some_iff.mp hc
  have hreach := hsound.start (hsound.transact (hsound.transact .start (alice_outside _) h₁) (alice_outside _) h₂)
    (alice_outside _) h₃
  exact ⟨_,p,w',out,hsound.next (hsound.reaches hreach hc) hnext,hcalls,hstatus,hout⟩

theorem executes_only_active_created : ∃ w p w' out, Dispatch.Delivery town.machine town.orderly (wealthy Table.empty)
      w p w' out ∧ p.calls "manager/21"=some (.process .execute none) ∧ out.length=3 ∧ w.Active "manager/21" := by
  have hsound : (dawn isCreation).Sound town.machine town.orderly := by
    refine player_sound townsfolk_outside (fun {w p ps} h => ?_) fun _ => trivial
    cases hm : town.toManager p with
    | none => simp [orderly,hm]
    | some msg => cases msg <;> simp [orderly,hm,isCreation] at h ⊢
  have hrun : ((creationRun [payOut]).bind fun c => ((dawn isCreation).next c).map
      fun r => (r.1.calls "manager/21",(c.world.strategies "manager/21").isSome,r.2.2.length))=
      some (some (.process .execute none),true,3) := by decide +kernel
  obtain ⟨c,hc,hrun⟩ := Option.bind_eq_some_iff.mp hrun
  obtain ⟨⟨p,w',out⟩,hnext,hrun⟩ := Option.map_eq_some_iff.mp hrun
  obtain ⟨hcalls,hrun⟩ := Prod.mk.inj hrun
  obtain ⟨hstored,hlen⟩ := Prod.mk.inj hrun
  obtain ⟨created,h₁,hc⟩ := Option.bind_eq_some_iff.mp hc
  have hdelivery := hsound.next (hsound.reaches (hsound.start .start (alice_outside _) h₁) hc) hnext
  obtain ⟨s,hs⟩ := Option.isSome_iff_exists.mp hstored
  exact ⟨_,p,w',out,hdelivery,hcalls,hlen,executes_only_active (fun _ => rfl) hdelivery hs hcalls⟩

end Site
end CalcRs
