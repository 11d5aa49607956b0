import CalcRs.Conditions.Batches
import CalcRs.System.Custody
import CalcRs.System.Solvency

/-! What the scheduler sends. A trigger comes from a call of its owner, and the trigger of a strategy from a node list:
from a schedule in it, or from the bytes of a payment. -/
namespace CalcRs.Site

section

variable [Crates] {site : Site} {w w' : World} {p : Packet} {out ps : List Packet} {history : Dispatch.History Packet}
  {a owner : Addr} {affiliates : List Affiliate} {lists lists' : List (List Node)} {command : CreateTriggerMsg}

/-- The call with which the owner of a trigger created it, and paid for it. -/
structure Requested (site : Site) (t : Trigger) (history : Dispatch.History Packet) (e : Packet × List Packet) : Prop where
  happened : e ∈ history
  sender : e.1.sender=t.owner
  asked : site.toScheduler e.1=some (.create t.command)
  id : t.command.id t.owner=.ok t.id
  funded : ∀ x, amountIn x t.executionRebate=amountIn x e.1.funds

/-- A strategy may create a trigger for a schedule of its lists, which wakes the strategy, or as a payment of them says. -/
inductive Scheduled (site : Site) (a : Addr) (affiliates : List Affiliate) (lists : List (List Node))
    (command : CreateTriggerMsg) : Prop
  | schedule : command.msg=Crates.managerJson (.execute a) →
      Granted a affiliates lists (.scheduler site.scheduler command.contractAddress) → Scheduled site a affiliates lists command
  | bytes {msg : Binary} : Crates.parseScheduler msg=some (.create command) →
      Granted a affiliates lists (.contract site.scheduler msg) → Scheduled site a affiliates lists command

theorem Scheduled.mono (hl : lists ⊆ lists') (h : site.Scheduled a affiliates lists command) :
    site.Scheduled a affiliates lists' command := by
  cases h with
  | schedule hmsg hg => exact .schedule hmsg (hg.mono hl)
  | bytes hparse hg => exact .bytes hparse (hg.mono hl)

/-- What a strategy may send creates a trigger only as its lists say. -/
theorem Scheduled.of_entitled (he : Entitled a owner affiliates lists p.sub.msg)
    (hm : site.toScheduler p=some (.create command)) : site.Scheduled a affiliates lists command := by
  unfold toScheduler at hm
  generalize p.sub.msg=message at he hm
  cases he with
  | own _ =>
    simp only [Body.toScheduler] at hm
    split_ifs at hm
  | owner => cases hm
  | granted hg hpays =>
    cases hpays with
    | contract =>
      simp only at hm
      split_ifs at hm with ht
      exact .bytes hm (ht ▸ hg)
    | trigger hmsg =>
      simp only [Body.toScheduler] at hm
      split_ifs at hm with ht
      cases hm
      exact .schedule hmsg (ht ▸ hg)
    | swap =>
      simp only [Body.toScheduler] at hm
      split_ifs at hm
    | order =>
      simp only [Body.toScheduler] at hm
      split_ifs at hm
    | account => cases hm
    | memo => cases hm
    | quoted _ _ _ _ => cases hm

/-- Every stored trigger was requested, and a strategy only requests what its lists schedule. -/
structure Armed (site : Site) (w : World × Dispatch.History Packet) (ps : List Packet) : Prop where
  custody : site.Custody w ps
  stored : SchedulerContract.Stored w.1.triggers
  requested : ∀ k t, w.1.triggers.get? k=some t → ∃ e, site.Requested t w.2 e
  wakes : ∀ k t, w.1.triggers.get? k=some t → site.Strategy t.owner → ∃ s, w.1.strategies t.owner=some s ∧
    site.Scheduled t.owner s.affiliates (site.acceptedLists t.owner w.2) t.command

theorem Requested.mono {t : Trigger} {e : Packet × List Packet} (h : site.Requested t history e) :
    site.Requested t (history ++ [(p,out)]) e :=
  ⟨List.mem_append_left _ h.happened,h.sender,h.asked,h.id,h.funded⟩

/-- A trigger that was there before is accounted for as before. -/
theorem Armed.standing (h : site.Armed (w,history) (p :: ps)) (hd : site.Delivers w p w' out) {k : ℕ} {t : Trigger}
    (ht : w.triggers.get? k=some t) : (∃ e, site.Requested t (history ++ [(p,out)]) e) ∧
      (site.Strategy t.owner → ∃ s, w'.strategies t.owner=some s ∧
        site.Scheduled t.owner s.affiliates (site.acceptedLists t.owner (history ++ [(p,out)])) t.command) := by
  obtain ⟨e,he⟩ := h.requested k t ht
  refine ⟨⟨e,he.mono⟩,fun ha => ?_⟩
  obtain ⟨s,hs,hscheduled⟩ := h.wakes k t ht ha
  obtain ⟨s',hs',_,haff⟩ := hd.remains hs
  refine ⟨s',hs',haff ▸ hscheduled.mono ?_⟩
  rw [acceptedLists_append]
  exact List.subset_append_left _ _

/-- The scheduler is no strategy. -/
theorem Custody.vacancy (h : site.Custody (w,history) ps) : w.strategies site.scheduler=none := by
  refine Option.eq_none_iff_forall_ne_some.mpr fun s hs => ?_
  exact (h.housed.home _ s hs).1.2.1 rfl

theorem Armed.create (h : site.Armed (w,history) (p :: ps)) (hd : site.Delivers w p w' out) {deps : Deps} {env : Env}
    {messages : List SubMsg} (hm : site.toScheduler p=some (.create command))
    (he : SchedulerContract.execute deps env ⟨p.sender,p.funds⟩ w.triggers (.create command)=.ok (w'.triggers,messages))
    {k : ℕ} {t : Trigger} (ht : w'.triggers.get? k=some t) : (∃ e, site.Requested t (history ++ [(p,out)]) e) ∧
      (site.Strategy t.owner → ∃ s, w'.strategies t.owner=some s ∧
        site.Scheduled t.owner s.affiliates (site.acceptedLists t.owner (history ++ [(p,out)])) t.command) := by
  obtain ⟨new,_,hid,hget,howner,hcommand⟩ := SchedulerContract.create_saves h.stored.keyed he
  rcases hget k t ht with ⟨rfl,rfl⟩ | hold
  · obtain ⟨_,heffect⟩ := SchedulerContract.create_effect h.stored.keyed he
    have hfunds := (heffect.deposit t (by simp [SchedulerContract.added,hid,Except.toOption,ht])).2
    refine ⟨⟨(p,out),List.mem_append_right _ (List.mem_singleton_self _),howner.symm,hcommand ▸ hm,
      hcommand ▸ howner ▸ hid,hfunds⟩,fun ha => ?_⟩
    obtain ⟨s,hs,hentitled⟩ := h.custody.entitled t.owner ha p List.mem_cons_self howner.symm
    obtain ⟨s',hs',_,haff⟩ := hd.remains hs
    refine ⟨s',hs',haff ▸ (Scheduled.of_entitled hentitled (hcommand ▸ hm)).mono ?_⟩
    rw [acceptedLists_append]
    exact List.subset_append_left _ _
  · exact h.standing hd hold

theorem Armed.call (h : site.Armed (w,history) (p :: ps)) (hd : site.Delivers w p w' out) :
    site.Armed (w',history ++ [(p,out)]) (out ++ ps) := by
  have hcustody := h.custody.call hd
  have hold := fun (k : ℕ) (t : Trigger) => h.standing hd (k := k) (t := t)
  cases hm : site.toScheduler p with
  | none =>
    have htriggers := (hd.elsewhere h.custody.vacancy hm).1
    rw [← htriggers] at hold
    exact ⟨hcustody,htriggers.symm ▸ h.stored,fun k t ht => (hold k t ht).1,fun k t ht => (hold k t ht).2⟩
  | some msg =>
    obtain ⟨deps,env,messages,he,_,_,_⟩ := hd.called h.custody.vacancy hm
    cases msg with
    | create command =>
      have hnew := fun (k : ℕ) (t : Trigger) => h.create hd hm he (k := k) (t := t)
      exact ⟨hcustody,h.stored.create he,fun k t ht => (hnew k t ht).1,fun k t ht => (hnew k t ht).2⟩
    | execute ids =>
      have hkept := fun (k : ℕ) (t : Trigger) => SchedulerContract.execute_keeps h.stored.keyed he (k := k) (t := t)
      exact ⟨hcustody,h.stored.execute he,fun k t ht => (hold k t (hkept k t ht)).1,
        fun k t ht => (hold k t (hkept k t ht)).2⟩

theorem Armed.keeps (site : Site) : Dispatch.Keeps site.machine.logging Dispatch.Conduct.any.recording (Armed site) where
  call := by
    rintro ⟨w,history⟩ ⟨w',history'⟩ p ps out h _ ⟨hd,hrecord⟩
    obtain rfl : history'=history ++ [(p,out)] := hrecord
    exact h.call hd
  reply h hr := ⟨(Custody.keeps site).reply h.custody hr,h.stored,h.requested,h.wakes⟩
  drop h hc hf := ⟨(Custody.keeps site).drop h.custody hc hf,h.stored,h.requested,h.wakes⟩

theorem Armed.vacant (h : w.Vacant) (ht : w.triggers=Table.empty) : site.Armed (w,[]) [] :=
  ⟨Custody.vacant h,ht ▸ SchedulerContract.Reachable.instantiate.stored,by simp [ht],by simp [ht]⟩

/-- A creation only refunds the sender. -/
theorem create_refunds {info : MessageInfo} {triggers triggers' : Table ℕ Trigger} {messages : List SubMsg}
    (hk : Keyed triggers) (h : SchedulerContract.create info triggers command=.ok (triggers',messages)) :
    ∀ sub ∈ messages, ∃ coins, sub.msg=.bankSend info.sender coins := by
  simp only [SchedulerContract.create,genericErr,Except.ite_error_eq_ok] at h
  obtain ⟨_,_,h⟩ := Except.bind_eq_ok.mp h.2
  obtain ⟨id,_,h⟩ := Except.bind_eq_ok.mp h
  obtain ⟨⟨rest,subMessages⟩,hremove,h⟩ := Except.bind_eq_ok.mp h
  obtain ⟨rebate,_,h⟩ := Except.bind_eq_ok.mp h
  cases h
  obtain ⟨_,howner,rfl⟩ := SchedulerContract.removeExisting_eq_ok hk hremove
  intro sub hsub
  cases hget : triggers.get? id with
  | none => simp [hget] at hsub
  | some t =>
    rw [hget,Option.elim_some,howner t hget] at hsub
    exact SchedulerContract.payRebate_pays hsub

/-- In every run each message of the scheduler is a payment to its caller, or the message of a trigger that he listed, that
is due and open to him, and that its owner had requested; for a strategy its lists had scheduled the trigger. -/
theorem wakeups_requested {w₀ : World} (h₀ : w₀.Vacant) (htriggers : w₀.triggers=Table.empty)
    {w' : World × Dispatch.History Packet}
    (h : Dispatch.Delivery site.machine.logging Dispatch.Conduct.any.recording (w₀,[]) (w,history) p w' out)
    {q : Packet} (hq : q ∈ out) (hsender : q.sender=site.scheduler) : ∃ msg deps env messages,
      site.toScheduler p=some msg ∧
      SchedulerContract.execute deps env ⟨p.sender,p.funds⟩ w.triggers msg=.ok (w'.1.triggers,messages) ∧
      ((∃ coins, q.sub.msg=.bankSend p.sender coins) ∨ ∃ ids t, msg=.execute ids ∧ t.id ∈ ids ∧
        q.sub=⟨.wasmExecute t.contractAddress (.raw t.msg) [],.error,0⟩ ∧ w.triggers.get? t.id=some t ∧
        SchedulerContract.Admits deps env p.sender t ∧ w'.1.triggers.get? t.id=none ∧
        (∃ e, site.Requested t history e) ∧ (site.Strategy t.owner → ∃ s, w.strategies t.owner=some s ∧
          site.Scheduled t.owner s.affiliates (site.acceptedLists t.owner history) t.command)) := by
  obtain ⟨ps,harmed,hd,_⟩ := h.holds (Armed.keeps site) (fun {w p} hw hb =>
    ⟨hw.custody.begins hb,hw.stored,hw.requested,hw.wakes⟩) (Armed.vacant h₀ htriggers)
  cases hm : site.toScheduler p with
  | none => exact absurd hsender ((hd.elsewhere harmed.custody.vacancy hm).2.2 q hq)
  | some msg =>
    obtain ⟨deps,env,messages,he,rfl,_,_⟩ := hd.called harmed.custody.vacancy hm
    refine ⟨msg,deps,env,messages,rfl,he,?_⟩
    obtain ⟨sub,hsub,rfl⟩ := List.mem_map.mp hq
    cases msg with
    | create command => exact .inl (create_refunds harmed.stored.keyed he sub hsub)
    | execute ids =>
      obtain ⟨left,sent,hbatch,hleft,hsent⟩ := harmed.stored.batch deps env ⟨p.sender,p.funds⟩ ids
      obtain ⟨rfl,rfl⟩ := Prod.mk.inj (Except.ok.inj (hbatch.symm.trans he))
      obtain ⟨t,ht,hemitted⟩ := List.mem_flatMap.mp (hsent.mem_iff.mp hsub)
      rw [SchedulerContract.emitted_eq] at hemitted
      obtain ⟨hmem,hadmitted⟩ := List.mem_filter.mp ht
      obtain ⟨hid,hadmits⟩ := of_decide_eq_true hadmitted
      have hget := harmed.stored.keyed.get?_of_mem hmem
      rcases List.mem_cons.mp hemitted with rfl | hpays
      · refine .inr ⟨ids,t,rfl,hid,rfl,hget,hadmits,?_,harmed.requested _ t hget,harmed.wakes _ t hget⟩
        refine Option.eq_none_iff_forall_ne_some.mpr fun t' ht' => ?_
        obtain ⟨hstored,hnot⟩ := (hleft _ t').mp ht'
        exact hnot (Option.some.inj (hget.symm.trans hstored) ▸ ht)
      · exact .inl (SchedulerContract.payRebate_pays hpays)

end

attribute [local instance] Crates.plain

/-- A schedule of three blocks, open to everybody. -/
def everyThird : Node :=
  .condition (.schedule ⟨"scheduler","manager",.blocks 3 none,none,[⟨2,"rune"⟩],[],none,none,none⟩) 0 none none

def keeperCalls : Packet := ⟨"keeper",⟨.wasmExecute "scheduler" (.scheduler (.execute [26])) [],.never,0⟩⟩

/-- The town in its fifth block. -/
def noon : Dispatch.Player World Packet := town.player ⟨5,⟨5⟩⟩ (townsfolk fun _ => []) fun _ _ _ => true

/-- A new strategy schedules itself, and the keeper executes its trigger three blocks later, with the history. -/
def wakingRun : Option ((World × Dispatch.History Packet) × (World × Dispatch.History Packet) × List Packet) :=
  (((dawn fun _ => true).recording Dispatch.History.enter).transact 10 (wealthy Table.empty,[])
    (asks (.instantiate none none "savings" [] [everyThird]))).bind fun w =>
      ((noon.recording Dispatch.History.enter).deliver w keeperCalls).map fun r => (w,r)

theorem wakeups_requested_schedule : ∃ w history w' t e s, wakingRun=some ((w,history),w',
      [⟨"scheduler",⟨.wasmExecute "manager" (.raw []) [],.error,0⟩⟩,⟨"scheduler",⟨.bankSend "keeper" [⟨2,"rune"⟩],.never,0⟩⟩]) ∧
    w.triggers.get? t.id=some t ∧ t.owner="manager/21" ∧ w'.1.triggers.get? t.id=none ∧ town.Requested t history e ∧
    w.strategies "manager/21"=some s ∧
    town.Scheduled "manager/21" s.affiliates (town.acceptedLists "manager/21" history) t.command := by
  have hdawn : ((dawn fun _ => true).recording Dispatch.History.enter).Sound town.machine.logging
      Dispatch.Conduct.any.recording :=
    (player_sound townsfolk_outside (fun _ => trivial) fun _ => trivial).recording _
  have hnoon : (noon.recording Dispatch.History.enter).Sound town.machine.logging Dispatch.Conduct.any.recording :=
    (player_sound townsfolk_outside (fun _ => trivial) fun _ => trivial).recording _
  have hrun : wakingRun.map (fun r => (r.2.2,r.1.1.triggers.values.map Trigger.owner))=
      some ([⟨"scheduler",⟨.wasmExecute "manager" (.raw []) [],.error,0⟩⟩,
        ⟨"scheduler",⟨.bankSend "keeper" [⟨2,"rune"⟩],.never,0⟩⟩],["manager/21"]) := by decide +kernel
  obtain ⟨⟨⟨w,history⟩,w',out⟩,hw,hrun⟩ := Option.map_eq_some_iff.mp hrun
  obtain ⟨hout,howners⟩ := Prod.mk.inj hrun
  change out=_ at hout
  subst hout
  have hpath := hw
  unfold wakingRun at hpath
  obtain ⟨_,hcreated,hpath⟩ := Option.bind_eq_some_iff.mp hpath
  obtain ⟨_,hdeliver,he⟩ := Option.map_eq_some_iff.mp hpath
  obtain ⟨rfl,rfl⟩ := Prod.mk.inj he
  have hbegins : town.machine.logging.begins (w,history) keeperCalls :=
    show town.Outside "keeper" from town_outside (by decide) (by decide)
  have hdelivery := Dispatch.Delivery.first (hdawn.transact .start (alice_outside _) hcreated) hbegins trivial
    (hnoon.deliver hdeliver)
  -- the first message is no payment, so it is that of the trigger
  obtain ⟨_,_,_,_,_,_,⟨_,hpays⟩ | ⟨_,t,_,_,_,hget,_,hgone,⟨e,hrequested⟩,hwakes⟩⟩ :=
    wakeups_requested wealthy_vacant rfl hdelivery List.mem_cons_self rfl
  · cases hpays
  · have howner : t.owner="manager/21" :=
      List.mem_singleton.mp (howners ▸ List.mem_map_of_mem (Table.mem_values.mpr ⟨_,hget⟩))
    have hstrategy := savings_strategy
    rw [howner] at hwakes
    obtain ⟨s,hs,hscheduled⟩ := hwakes hstrategy
    exact ⟨w,history,w',t,e,s,hw,hget,howner,hgone,hrequested,hs,hscheduled⟩

end CalcRs.Site
