import CalcRs.Conditions.Rebates
import CalcRs.System.Rehearsal

/-! The scheduler can pay every rebate that it has promised, whatever is called in between, and pays each
deposit out once. -/
namespace CalcRs

/-- The rebate of a stored trigger, numbered in the order of the deposits. -/
structure Deposit where
  serial : ℕ
  trigger : Trigger

/-- A deposit that left the store, with the sender of the call that took it out. -/
structure Settlement where
  deposit : Deposit
  sender : Addr
  replaced : Bool

def Settlement.payee (s : Settlement) : Addr := if s.replaced then s.deposit.trigger.owner else s.sender

/-- The history of the deposits and of the payments that the scheduler emitted. -/
structure RebateLedger where
  count : ℕ
  held : List Deposit
  settled : List Settlement
  paid : List (Addr × List Coin)

/-- A trigger is replaced by `Create`, executed by `Execute`. -/
def SchedulerExecuteMsg.replaces : SchedulerExecuteMsg → Bool
  | .create _ => true
  | .execute _ => false

namespace RebateLedger

def empty : RebateLedger := ⟨0,[],[],[]⟩

/-- Every deposit is held or settled, none is both or twice; the held ones are those in the store, and a
settled one has one payment of its full amount. -/
structure Balanced (l : RebateLedger) (triggers : Table ℕ Trigger) : Prop where
  held : (l.held.map Deposit.trigger).Perm triggers.values
  once : (l.held.map Deposit.serial ++ l.settled.map fun s => s.deposit.serial).Perm (List.range l.count)
  paid : l.paid.Perm (l.settled.flatMap fun s => s.deposit.trigger.payment s.payee)
  owner : ∀ s ∈ l.settled, s.replaced=true → s.deposit.trigger.owner=s.sender

theorem serials_split (ds : List Deposit) (p : Deposit → Bool) (n : ℕ) :
    (ds.map Deposit.serial).count n=((ds.filter p).map Deposit.serial).count n+
      ((ds.filter fun d => !p d).map Deposit.serial).count n := by
  have hsplit := (List.filter_append_perm p ds).map Deposit.serial
  rw [List.map_append] at hsplit
  rw [← hsplit.count_eq,List.count_append]

variable [Crates]

open SchedulerContract in
/-- The entries for one call of the scheduler. -/
def enter (l : RebateLedger) (sender : Addr) (msg : SchedulerExecuteMsg) (after : Table ℕ Trigger)
    (messages : List SubMsg) : RebateLedger where
  count := l.count+(added sender after msg).toList.length
  held := (l.held.filter fun d => !gone sender after d.trigger.id msg) ++
    (added sender after msg).toList.map (Deposit.mk l.count)
  settled := l.settled ++ (l.held.filter fun d => gone sender after d.trigger.id msg).map
    fun d => ⟨d,sender,msg.replaces⟩
  paid := l.paid ++ paymentsOf messages

/-- Every entry gets a new serial number or keeps its own. -/
theorem Balanced.once_enter {l : RebateLedger} {sender : Addr} {msg : SchedulerExecuteMsg} {before after : Table ℕ Trigger}
    {messages : List SubMsg} (h : l.Balanced before) :
    let l' := l.enter sender msg after messages
    (l'.held.map Deposit.serial ++ l'.settled.map fun s => s.deposit.serial).Perm (List.range l'.count) := by
  have honce := h.once
  rw [List.perm_iff_count] at honce ⊢
  intro n
  have h1 := honce n
  have h2 := serials_split l.held (fun d => SchedulerContract.gone sender after d.trigger.id msg) n
  have hserial : ((fun s : Settlement => s.deposit.serial) ∘ fun d => ⟨d,sender,msg.replaces⟩)=Deposit.serial := rfl
  simp only [RebateLedger.enter,List.map_append,List.map_map,List.count_append,hserial] at h1 h2 ⊢
  cases SchedulerContract.added sender after msg with
  | none =>
    simp only [Option.toList_none,List.map_nil,List.count_nil,List.length_nil,Nat.add_zero]
    omega
  | some t =>
    simp only [Option.toList_some,List.map_cons,List.map_nil,List.length_cons,List.length_nil,Nat.zero_add,
      List.range_succ,List.count_append,Function.comp_apply]
    omega

open SchedulerContract in
theorem Balanced.enter {l : RebateLedger} {info : MessageInfo} {msg : SchedulerExecuteMsg} {before after rest : Table ℕ Trigger}
    {messages : List SubMsg} (h : l.Balanced before) (hk : Keyed before)
    (he : Effect info msg before after messages rest) : (l.enter info.sender msg after messages).Balanced after := by
  have hfilter : ∀ p : Trigger → Bool, ((l.held.filter fun d => p d.trigger).map Deposit.trigger).Perm
      (before.values.filter p) := fun p => by
    refine List.Perm.trans (.of_eq ?_) (h.held.filter p)
    rw [List.filter_map]
    rfl
  refine ⟨?_,h.once_enter,?_,?_⟩
  · have hkeep := (hfilter fun t => !gone info.sender after t.id msg).trans (hk.kept_values he.left).2.symm
    have hadd : ((added info.sender after msg).toList.map (Deposit.mk l.count)).map Deposit.trigger=
        (added info.sender after msg).toList := by
      rw [List.map_map]
      exact List.map_id _
    rw [RebateLedger.enter,List.map_append,hadd]
    exact ((hkeep.append_right _).trans List.perm_append_comm).trans he.values_perm.symm
  · have hpayee : ∀ d : Deposit, (⟨d,info.sender,msg.replaces⟩ : Settlement).payee=payee info.sender d.trigger msg :=
      fun d => by cases msg <;> rfl
    have hnew := (hfilter fun t => gone info.sender after t.id msg).symm.flatMap_right fun t =>
      t.payment (payee info.sender t msg)
    refine (h.paid.append (he.payments.trans hnew)).trans (.of_eq ?_)
    simp only [RebateLedger.enter,List.flatMap_append,List.flatMap_map,hpayee]
  · intro s hs hr
    rcases List.mem_append.mp hs with hs | hs
    · exact h.owner s hs hr
    · obtain ⟨d,hd,rfl⟩ := List.mem_map.mp hs
      obtain ⟨hd,hg⟩ := List.mem_filter.mp hd
      have hmem : d.trigger ∈ before.values := h.held.mem_iff.mp (List.mem_map_of_mem hd)
      cases msg with
      | create command => exact he.owner command rfl d.trigger hmem hg
      | execute ids => cases hr

end RebateLedger

namespace Site

section

variable {p : Packet} {ps out : List Packet}

/-- What the pending messages of one sender will take from it. -/
def due (a : Addr) (ps : List Packet) (x : Denom) : ℕ := (ps.map fun p => p.outflow a x).sum

theorem due_append (a : Addr) (x : Denom) : due a (out ++ ps) x=due a out x+due a ps x := by
  simp [due]

theorem due_eq_zero {a : Addr} (h : ∀ q ∈ out, q.sender≠a) (x : Denom) : due a out x=0 := by
  refine List.sum_eq_zero fun n hn => ?_
  obtain ⟨q,hq,rfl⟩ := List.mem_map.mp hn
  exact if_neg (h q hq)

/-- The coins that leave with the messages of a call are those of its payments. -/
theorem due_paymentsOf {messages : List SubMsg}
    (hc : ∀ sub ∈ messages, sub.msg.funds≠[] → ∃ target amount, sub.msg=.bankSend target amount) (a : Addr) (x : Denom) :
    due a (messages.map (Packet.mk a)) x=((paymentsOf messages).map fun e => amountIn x e.2).sum := by
  induction messages with
  | nil => rfl
  | cons sub messages ih =>
    have ih := ih fun s hs => hc s (List.mem_cons_of_mem _ hs)
    have hcons : due a ((sub :: messages).map (Packet.mk a)) x=
        amountIn x sub.msg.funds+due a (messages.map (Packet.mk a)) x := by
      simp [due,Packet.outflow,Packet.funds]
    have hpay : paymentsOf (sub :: messages)=paymentsOf [sub] ++ paymentsOf messages := by simp [paymentsOf]
    rw [hcons,ih,hpay,List.map_append,List.sum_append]
    congr 1
    by_cases hf : sub.msg.funds=[]
    · cases hm : sub.msg <;> simp_all [paymentsOf,CosmosMsg.funds]
    · obtain ⟨target,amount,hm⟩ := hc sub List.mem_cons_self hf
      simp [paymentsOf,hm,CosmosMsg.funds]

theorem payment_amount (payee : Addr) (t : Trigger) (x : Denom) :
    ((t.payment payee).map fun e => amountIn x e.2).sum=amountIn x t.executionRebate := by
  unfold Trigger.payment
  split_ifs with h
  · rw [List.isEmpty_iff.mp h]
    rfl
  · simp

variable [Crates] {site : Site} {w w' : World}

/-- What the stored triggers promise. -/
def owed (triggers : Table ℕ Trigger) (x : Denom) : ℕ := triggers.total fun t => amountIn x t.executionRebate

/-- The call of the scheduler that a message is, if it is one. -/
def toScheduler (site : Site) (p : Packet) : Option SchedulerExecuteMsg :=
  match p.sub.msg with
  | .wasmExecute target body _ => if target=site.scheduler then body.toScheduler else none
  | _ => none

/-- The ledger after a delivery. -/
def record (site : Site) (l : RebateLedger) (_ : World) (p : Packet) (w' : World) (out : List Packet) : RebateLedger :=
  match site.toScheduler p with
  | some msg => l.enter p.sender msg w'.triggers (out.map Packet.sub)
  | none => l

/-- The scheduler holds what it owes and what it has already sent. -/
structure Solvent (site : Site) (w : World × RebateLedger) (ps : List Packet) : Prop where
  keyed : Keyed w.1.triggers
  balanced : w.2.Balanced w.1.triggers
  place : w.1.strategies site.scheduler=none
  covered : ∀ x, owed w.1.triggers x+due site.scheduler ps x≤w.1.bank site.scheduler x

open SchedulerContract in
/-- A call of the scheduler owes and sends what it owed before, and the coins that come with it. -/
theorem owed_effect {info : MessageInfo} {msg : SchedulerExecuteMsg} {before after rest : Table ℕ Trigger}
    {messages : List SubMsg} (hk : Keyed before) (he : Effect info msg before after messages rest) (a : Addr)
    (x : Denom) : owed after x+due a (messages.map (Packet.mk a)) x≤owed before x+amountIn x info.funds := by
  obtain ⟨_,hvalues⟩ := hk.kept_values he.left
  have hbefore : owed before x=((before.values.filter fun t => gone info.sender after t.id msg).map
      fun t => amountIn x t.executionRebate).sum+owed rest x := by
    have hrest := (hvalues.map fun t => amountIn x t.executionRebate).sum_eq
    have hall := ((List.filter_append_perm (fun t => gone info.sender after t.id msg) before.values).map
      fun t => amountIn x t.executionRebate).sum_eq
    rw [List.map_append,List.sum_append] at hall
    simp only [owed,Table.total]
    omega
  have hdue : due a (messages.map (Packet.mk a)) x=((before.values.filter fun t => gone info.sender after t.id msg).map
      fun t => amountIn x t.executionRebate).sum := by
    rw [due_paymentsOf he.calls,(he.payments.map _).sum_eq,List.map_flatMap,List.flatMap_def,List.sum_flatten,
      List.map_map]
    exact congrArg List.sum (List.map_congr_left fun t _ => payment_amount _ t x)
  have hafter : owed after x≤owed rest x+amountIn x info.funds := by
    have hst := he.stored
    cases ha : added info.sender after msg with
    | none =>
      rw [ha] at hst
      rw [show owed after x=owed rest x from congrArg (owed · x) hst]
      omega
    | some t =>
      rw [ha] at hst
      obtain ⟨hnone,hfunds⟩ := he.deposit t ha
      have hins : owed (rest.insert t.id t) x=amountIn x t.executionRebate+owed rest x := by
        rw [owed,Table.total_insert,Table.erase_of_get?_none hnone]
        rfl
      have := congrArg (owed · x) hst
      simp only [Option.elim_some,hins,hfunds x] at this
      omega
  omega

/-- A delivery that does not call the scheduler leaves its store alone, and sends nothing in its name. -/
theorem Delivers.elsewhere (h : site.Delivers w p w' out) (hp : w.strategies site.scheduler=none)
    (hn : site.toScheduler p=none) : w'.triggers=w.triggers ∧ w'.strategies site.scheduler=none ∧
      ∀ q ∈ out, q.sender≠site.scheduler := by
  cases h with
  | send _ _ => exact ⟨rfl,hp,by simp⟩
  | deposit _ _ => exact ⟨rfl,hp,by simp⟩
  | manager _ _ _ _ _ _ =>
    refine ⟨rfl,hp,fun q hq => ?_⟩
    obtain ⟨_,_,rfl⟩ := List.mem_map.mp hq
    exact site.distinct
  | scheduler hm _ hmsg _ _ _ => simp [toScheduler,hm,hmsg] at hn
  | @strategy target _ _ _ _ _ _ _ _ _ _ _ hs _ _ _ _ =>
    have hne : target≠site.scheduler := fun he => by simp [he,hp] at hs
    refine ⟨rfl,by simp [Function.update_of_ne hne.symm,hp],fun q hq => ?_⟩
    obtain ⟨_,_,rfl⟩ := List.mem_map.mp hq
    exact hne
  | instantiate _ _ _ _ _ hne _ _ =>
    refine ⟨rfl,by simp [Function.update_of_ne hne.symm,hp],fun q hq => ?_⟩
    obtain ⟨_,_,rfl⟩ := List.mem_map.mp hq
    exact hne
  | outside _ ho _ hq => exact ⟨rfl,hp,fun q hm => (hq q hm).symm ▸ ho.2.1⟩

/-- A delivery that calls the scheduler is a run of its `execute`. -/
theorem Delivers.called (h : site.Delivers w p w' out) (hp : w.strategies site.scheduler=none)
    {msg : SchedulerExecuteMsg} (hm : site.toScheduler p=some msg) :
    ∃ deps env messages, SchedulerContract.execute deps env ⟨p.sender,p.funds⟩ w.triggers msg=.ok (w'.triggers,messages) ∧
      out=messages.map (Packet.mk site.scheduler) ∧ w'.strategies=w.strategies ∧ p.receiver=some site.scheduler := by
  obtain ⟨body,funds,hmsg,hbody⟩ : ∃ body funds, p.sub.msg=.wasmExecute site.scheduler body funds ∧
      body.toScheduler=some msg := by
    unfold toScheduler at hm
    split at hm
    · split_ifs at hm with ht
      subst ht
      exact ⟨_,_,by assumption,hm⟩
    · cases hm
  cases h with
  | send h _ => simp [hmsg] at h
  | deposit h _ => simp [hmsg] at h
  | manager h _ _ _ _ _ =>
    simp only [hmsg,CosmosMsg.wasmExecute.injEq] at h
    exact absurd h.1.symm site.distinct
  | scheduler h _ hbody' _ _ hexec =>
    simp only [hmsg,CosmosMsg.wasmExecute.injEq] at h
    obtain ⟨_,rfl,rfl⟩ := h
    obtain rfl := Option.some.inj (hbody.symm.trans hbody')
    have hfunds : p.funds=funds := by simp [Packet.funds,hmsg,CosmosMsg.funds]
    exact ⟨_,_,_,hfunds ▸ hexec,rfl,rfl,by simp [Packet.receiver,hmsg]⟩
  | strategy h _ hs _ _ _ _ =>
    simp only [hmsg,CosmosMsg.wasmExecute.injEq] at h
    simp [← h.1,hp] at hs
  | instantiate h _ _ _ _ _ _ _ => simp [hmsg] at h
  | outside h ho _ _ =>
    rw [Packet.receiver,hmsg] at h
    exact absurd (Option.some.inj h).symm ho.2.1

theorem Solvent.keeps (site : Site) :
    Dispatch.Keeps (site.machine.recording site.record) Dispatch.Conduct.any (Solvent site) where
  call := by
    rintro ⟨w,l⟩ ⟨w',l'⟩ p ps out h _ ⟨hd,hl⟩
    change site.Delivers w p w' out at hd
    change l'=site.record l w p w' out at hl
    obtain ⟨hcovers,hbank⟩ := hd.bank
    have hcharge := fun x => World.bank_charge hcovers site.scheduler x
    have hcov := h.covered
    simp only [due,List.map_cons,List.sum_cons] at hcov
    cases hm : site.toScheduler p with
    | none =>
      obtain ⟨htriggers,hplace,hsenders⟩ := hd.elsewhere h.place hm
      have hl : l'=l := by rw [hl]; simp [record,hm]
      refine ⟨htriggers ▸ h.keyed,by rw [hl,htriggers]; exact h.balanced,hplace,fun x => ?_⟩
      rw [due_append,due_eq_zero hsenders,htriggers,hbank]
      have h1 := hcov x
      have h2 := hcharge x
      simp only [due]
      omega
    | some msg =>
      obtain ⟨deps,env,messages,hexec,rfl,hstrategies,hreceiver⟩ := hd.called h.place hm
      obtain ⟨rest,he⟩ := SchedulerContract.execute_eq_ok h.keyed hexec
      have hbalanced := RebateLedger.Balanced.enter h.balanced h.keyed he
      have hkeyed := he.keyed h.keyed
      have hl : l'=l.enter p.sender msg w'.triggers messages := by
        rw [hl]
        simp [record,hm,Function.comp_def]
      refine ⟨hkeyed,hl ▸ hbalanced,by rw [hstrategies]; exact h.place,fun x => ?_⟩
      rw [due_append,hbank]
      have h1 := hcov x
      have h2 := hcharge x
      have h3 := owed_effect h.keyed he site.scheduler x
      have h4 : p.inflow site.scheduler x=amountIn x p.funds := if_pos hreceiver
      simp only [due] at h3 ⊢
      omega
  reply := by
    rintro w p ok ps out h hr
    have hsenders := Replies.senders hr
    refine ⟨h.keyed,h.balanced,h.place,fun x => ?_⟩
    rw [due_append,due_eq_zero fun q hq => (hsenders q hq).2.1,Nat.zero_add]
    exact h.covered x
  drop := by
    rintro w p ps h _ _
    refine ⟨h.keyed,h.balanced,h.place,fun x => le_trans ?_ (h.covered x)⟩
    simp [due]

/-- In every configuration that is reached from a scheduler without triggers, its balance covers what is
stored and what is under way, each pending payment included; and its deposits and payments balance. -/
theorem scheduler_solvent {w₀ : World} (htriggers : w₀.triggers=Table.empty) (hplace : w₀.strategies site.scheduler=none)
    {c : Dispatch.Config (World × RebateLedger) Packet}
    (h : Dispatch.Reachable (site.machine.recording site.record) Dispatch.Conduct.any (w₀,RebateLedger.empty) c) :
    (∀ x, owed c.world.1.triggers x+due site.scheduler (Dispatch.pending c.frames) x≤
      c.world.1.bank site.scheduler x) ∧
    (∀ p ∈ Dispatch.pending c.frames, p.sender=site.scheduler → c.world.1.Covers p) ∧
    c.world.2.Balanced c.world.1.triggers := by
  have hstart : site.Solvent (w₀,RebateLedger.empty) [] := by
    refine ⟨by simp [htriggers,Keyed],?_,hplace,fun x => by simp [htriggers,owed,due]⟩
    rw [htriggers]
    exact ⟨.nil,.nil,.nil,by simp [RebateLedger.empty]⟩
  have hbegin : ∀ {w : World × RebateLedger} {p : Packet}, site.Solvent w [] →
      (site.machine.recording site.record).begins w p → site.Solvent w [p] := fun {w p} hw hb => by
    refine ⟨hw.keyed,hw.balanced,hw.place,fun x => ?_⟩
    have houtside : site.Outside p.sender := hb
    rw [due_eq_zero (by simpa using houtside.2.1)]
    exact hw.covered x
  obtain ⟨⟨hnow,_⟩,_⟩ := h.holds (Solvent.keeps site) hbegin hstart
  refine ⟨hnow.covered,fun p hp hs x => ?_,hnow.balanced⟩
  have hle : p.outflow site.scheduler x≤due site.scheduler (Dispatch.pending c.frames) x :=
    List.single_le_sum (fun _ _ => Nat.zero_le _) _ (List.mem_map_of_mem hp)
  have hcov := hnow.covered x
  rw [Packet.outflow,if_pos hs] at hle
  rw [hs]
  omega

end

section

attribute [local instance] Crates.plain

theorem answers_withBalance {w : World} (h : w.manager.strategies=Table.empty) :
    w.Answers town (Deps.withBalance w.bank) := ⟨fun _ _ => rfl,fun a => by rw [h]; exact ⟨_,rfl⟩⟩

def wake : CreateTriggerMsg := ⟨.blocksCompleted 0,asBytes "ping","clock",[],none⟩

def wakeTrigger : Trigger := ⟨23,"alice",.blocksCompleted 0,asBytes "ping","clock",[],[⟨5,"rune"⟩],none⟩

def createWake : Packet := ⟨"alice",⟨.wasmExecute "scheduler" (.scheduler (.create wake)) [⟨5,"rune"⟩],.never,0⟩⟩

def executeWake : Packet := ⟨"bob",⟨.wasmExecute "scheduler" (.scheduler (.execute [23,23])) [],.never,0⟩⟩

/-- The trigger is executed once although its id is given twice; its call and its rebate are pending. -/
theorem scheduler_solvent_paying : ∃ c, Dispatch.Reachable (town.machine.recording town.record) Dispatch.Conduct.any
      (wealthy Table.empty,RebateLedger.empty) c ∧
    Dispatch.pending c.frames=[⟨"scheduler",⟨.wasmExecute "clock" (.raw (asBytes "ping")) [],.error,0⟩⟩,
      ⟨"scheduler",⟨.bankSend "bob" [⟨5,"rune"⟩],.never,0⟩⟩] ∧
    c.world.2.paid=[("bob",[⟨5,"rune"⟩])] ∧ c.world.2.Balanced c.world.1.triggers ∧
    ∀ p ∈ Dispatch.pending c.frames, p.sender=town.scheduler → c.world.1.Covers p := by
  let w₁ : World := { (wealthy Table.empty).charge createWake with triggers := Table.empty.insert 23 wakeTrigger }
  let w₂ : World := { w₁.charge executeWake with triggers := Table.empty }
  have hcreate : SchedulerContract.execute (Deps.withBalance ((wealthy Table.empty).charge createWake).bank)
      ⟨⟨1,⟨1⟩⟩,"scheduler"⟩ ⟨"alice",[⟨5,"rune"⟩]⟩ Table.empty (.create wake)=
      .ok (Table.empty.insert 23 wakeTrigger,[]) := by decide +kernel
  have hexecute : SchedulerContract.execute (Deps.withBalance (w₁.charge executeWake).bank) ⟨⟨1,⟨1⟩⟩,"scheduler"⟩
      ⟨"bob",[]⟩ (Table.empty.insert 23 wakeTrigger) (.execute [23,23])=
      .ok (Table.empty,[⟨.wasmExecute "clock" (.raw (asBytes "ping")) [],.error,0⟩,⟨.bankSend "bob" [⟨5,"rune"⟩],.never,0⟩]) := by
    decide +kernel
  have hcovers : (wealthy Table.empty).Covers createWake := fun x => by
    simp only [createWake,Packet.funds,CosmosMsg.funds,amountIn_cons,amountIn_nil,wealthy]
    split_ifs <;> omega
  let l₁ := town.record RebateLedger.empty (wealthy Table.empty) createWake w₁ []
  let out : List Packet := [⟨"scheduler",⟨.wasmExecute "clock" (.raw (asBytes "ping")) [],.error,0⟩⟩,
    ⟨"scheduler",⟨.bankSend "bob" [⟨5,"rune"⟩],.never,0⟩⟩]
  let l₂ := town.record l₁ w₁ executeWake w₂ out
  have hd₁ : (town.machine.recording town.record).delivers (wealthy Table.empty,RebateLedger.empty) createWake (w₁,l₁) [] :=
    ⟨.scheduler rfl hcovers rfl (answers_withBalance rfl) rfl hcreate,rfl⟩
  have hd₂ : (town.machine.recording town.record).delivers (w₁,l₁) executeWake (w₂,l₂) out :=
    ⟨.scheduler rfl (fun _ => Nat.zero_le _) rfl (answers_withBalance rfl) rfl hexecute,rfl⟩
  have hreach : Dispatch.Reachable (town.machine.recording town.record) Dispatch.Conduct.any
      (wealthy Table.empty,RebateLedger.empty) ⟨(w₂,l₂),[⟨(w₁,l₁),executeWake,out⟩]⟩ :=
    .begin (.commit (.begin .start (town_outside (by decide) (by decide)) trivial hd₁))
      (town_outside (by decide) (by decide)) trivial hd₂
  obtain ⟨_,hcover,hbalanced⟩ := scheduler_solvent rfl rfl hreach
  exact ⟨_,hreach,rfl,by decide +kernel,hbalanced,hcover⟩

end

end Site
end CalcRs
