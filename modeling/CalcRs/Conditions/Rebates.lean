import CalcRs.Model.Scheduler

/-! What a call of the scheduler takes out of its store, what it puts in, and what it pays. -/
namespace CalcRs

/-- Every trigger is stored under its id. -/
def Keyed (triggers : Table ℕ Trigger) : Prop := ∀ k t, triggers.get? k=some t → t.id=k

namespace Keyed

variable {triggers kept : Table ℕ Trigger} {gone : ℕ → Bool}

theorem get?_of_mem (h : Keyed triggers) {t : Trigger} (ht : t ∈ triggers.values) : triggers.get? t.id=some t := by
  obtain ⟨k,hk⟩ := Table.mem_values.mp ht
  rwa [h k t hk]

theorem values_nodup (h : Keyed triggers) : triggers.values.Nodup := by
  have hids : triggers.values.map Trigger.id=triggers.keys := by
    rw [Table.values,Table.keys,List.map_map]
    refine List.map_congr_left fun e he => ?_
    exact h e.1 e.2 (Table.get?_eq_some_iff.mpr he)
  exact List.Nodup.of_map Trigger.id (hids ▸ triggers.keys_nodup)

/-- What is left when some triggers are taken out. -/
theorem kept_values (h : Keyed triggers) (hk : ∀ k, kept.get? k=if gone k then none else triggers.get? k) :
    Keyed kept ∧ kept.values.Perm (triggers.values.filter fun t => !gone t.id) := by
  have hkeyed : Keyed kept := fun k t ht => by
    rw [hk] at ht
    split_ifs at ht
    exact h k t ht
  refine ⟨hkeyed,(List.perm_ext_iff_of_nodup hkeyed.values_nodup (h.values_nodup.filter _)).mpr fun t => ?_⟩
  rw [List.mem_filter]
  constructor
  · intro ht
    have := hkeyed.get?_of_mem ht
    rw [hk] at this
    split_ifs at this with hg
    exact ⟨Table.mem_values.mpr ⟨_,this⟩,by simpa using hg⟩
  · rintro ⟨ht,hg⟩
    refine Table.mem_values.mpr ⟨t.id,?_⟩
    rw [hk,if_neg (by simpa using hg),h.get?_of_mem ht]

end Keyed

/-- What a rebate pays to its payee, if anything. -/
def Trigger.payment (payee : Addr) (t : Trigger) : List (Addr × List Coin) :=
  if t.executionRebate.isEmpty then [] else [(payee,t.executionRebate)]

/-- The payments among the messages of a contract. -/
def paymentsOf (messages : List SubMsg) : List (Addr × List Coin) :=
  messages.flatMap fun sub => match sub.msg with
    | .bankSend target amount => [(target,amount)]
    | _ => []

namespace SchedulerContract

variable {info : MessageInfo} {triggers : Table ℕ Trigger} {messages : List SubMsg}

theorem paymentsOf_payRebate (target : Addr) (t : Trigger) :
    paymentsOf (payRebate target t.executionRebate)=t.payment target := by
  unfold payRebate Trigger.payment
  split_ifs <;> rfl

theorem payRebate_pays {target : Addr} {rebate : List Coin} {sub : SubMsg} (h : sub ∈ payRebate target rebate) :
    ∃ coins, sub.msg=.bankSend target coins := by
  unfold payRebate at h
  split_ifs at h
  · cases h
  · obtain rfl := List.mem_singleton.mp h
    exact ⟨rebate,rfl⟩

/-- An existing trigger is taken out if it belongs to the sender. -/
theorem removeExisting_eq_ok {id : ℕ} {rest : Table ℕ Trigger} (hk : Keyed triggers)
    (h : removeExisting info triggers id=.ok (rest,messages)) :
    rest=triggers.erase id ∧ (∀ t, triggers.get? id=some t → t.owner=info.sender) ∧
      messages=(triggers.get? id).elim [] fun t => payRebate t.owner t.executionRebate := by
  unfold removeExisting at h
  cases ht : triggers.get? id with
  | none =>
    simp only [ht] at h
    cases h
    exact ⟨(Table.erase_of_get?_none ht).symm,by simp,rfl⟩
  | some t =>
    simp only [ht,genericErr,Except.ite_error_eq_ok,ne_eq,not_not] at h
    obtain ⟨howner,h⟩ := h
    cases h
    refine ⟨by rw [hk id t ht],fun t' ht' => ?_,rfl⟩
    rw [← Option.some.inj ht',howner]

theorem values_filter_id (hk : Keyed triggers) (id : ℕ) :
    (triggers.get? id).toList.Perm (triggers.values.filter fun t => decide (t.id=id)) := by
  refine (List.perm_ext_iff_of_nodup (by cases triggers.get? id <;> simp) (hk.values_nodup.filter _)).mpr fun t => ?_
  rw [Option.mem_toList,List.mem_filter,decide_eq_true_eq]
  constructor
  · intro ht
    exact ⟨Table.mem_values.mpr ⟨id,ht⟩,hk id t ht⟩
  · rintro ⟨ht,rfl⟩
    exact hk.get?_of_mem ht

variable [Crates] {deps : Deps} {env : Env} {triggers' : Table ℕ Trigger}

/-- Who is owed the rebate of a trigger that the call takes out: its owner when it is replaced, the
executor when it is executed. -/
def payee (sender : Addr) (t : Trigger) : SchedulerExecuteMsg → Addr
  | .create _ => t.owner
  | .execute _ => sender

/-- The ids whose triggers the call takes out. -/
def gone (sender : Addr) (after : Table ℕ Trigger) (k : ℕ) : SchedulerExecuteMsg → Bool
  | .create command => command.id sender=.ok k
  | .execute _ => (after.get? k).isNone

/-- The trigger that the call puts in. -/
def added (sender : Addr) (after : Table ℕ Trigger) : SchedulerExecuteMsg → Option Trigger
  | .create command => (command.id sender).toOption.bind after.get?
  | .execute _ => none

/-- The effect of a call on the store, where `rest` is what it leaves of it, and its payments. -/
structure Effect (info : MessageInfo) (msg : SchedulerExecuteMsg) (before after : Table ℕ Trigger)
    (messages : List SubMsg) (rest : Table ℕ Trigger) : Prop where
  left : ∀ k, rest.get? k=if gone info.sender after k msg then none else before.get? k
  stored : after=(added info.sender after msg).elim rest fun t => rest.insert t.id t
  deposit : ∀ t ∈ added info.sender after msg, rest.get? t.id=none ∧
    ∀ x, amountIn x t.executionRebate=amountIn x info.funds
  payments : (paymentsOf messages).Perm ((before.values.filter fun t => gone info.sender after t.id msg).flatMap fun t =>
    t.payment (payee info.sender t msg))
  owner : ∀ command, msg=.create command → ∀ t ∈ before.values, gone info.sender after t.id msg=true → t.owner=info.sender
  calls : ∀ sub ∈ messages, sub.msg.funds≠[] → ∃ target amount, sub.msg=.bankSend target amount

theorem create_effect {command : CreateTriggerMsg} (hk : Keyed triggers)
    (h : create info triggers command=.ok (triggers',messages)) :
    ∃ rest, Effect info (.create command) triggers triggers' messages rest := by
  simp only [create,genericErr,Except.ite_error_eq_ok] at h
  obtain ⟨_,_,h⟩ := Except.bind_eq_ok.mp h.2
  obtain ⟨id,hid,h⟩ := Except.bind_eq_ok.mp h
  obtain ⟨⟨rest,subMessages⟩,hremove,h⟩ := Except.bind_eq_ok.mp h
  obtain ⟨rebate,hrebate,h⟩ := Except.bind_eq_ok.mp h
  cases h
  obtain ⟨rfl,howner,rfl⟩ := removeExisting_eq_ok hk hremove
  have hgone : ∀ after k, gone info.sender after k (.create command)=decide (k=id) := fun after k => by
    simp [gone,hid,eq_comm]
  refine ⟨triggers.erase id,?_,?_,?_,?_,?_,?_⟩
  · intro k
    rw [hgone,Table.get?_erase]
    simp
  · simp [added,hid,Except.toOption,TriggerStore.save]
  · intro t ht
    simp only [added,hid,Except.toOption,TriggerStore.save,Option.bind_some,Table.get?_insert_self,Option.mem_def,
      Option.some.injEq] at ht
    subst ht
    exact ⟨by simp,fun x => by rw [Coins.amountIn_toVec,Coins.tryFrom_amountOf hrebate]⟩
  · simp only [hgone]
    refine List.Perm.trans (.of_eq ?_) ((values_filter_id hk id).flatMap_right _)
    cases ht : triggers.get? id with
    | none => rfl
    | some t => simp [paymentsOf_payRebate,payee]
  · intro _ _ t ht hg
    rw [hgone,decide_eq_true_eq] at hg
    exact howner t (hg ▸ hk.get?_of_mem ht)
  · intro sub hsub _
    cases ht : triggers.get? id with
    | none => simp [ht] at hsub
    | some t => exact ⟨_,payRebate_pays (by simpa [ht] using hsub)⟩

/-- What the rounds of `Execute` have taken out so far, in their order. -/
structure Taken (info : MessageInfo) (before : Table ℕ Trigger) (state : Table ℕ Trigger × List SubMsg)
    (removed : List Trigger) : Prop where
  left : ∀ k, state.1.get? k=if k ∈ removed.map Trigger.id then none else before.get? k
  stored : ∀ t ∈ removed, before.get? t.id=some t
  nodup : removed.Nodup
  messages : state.2=removed.flatMap fun t =>
    ⟨.wasmExecute t.contractAddress (.raw t.msg) [],.error,0⟩ :: payRebate info.sender t.executionRebate

/-- The condition holds, and the sender may execute the trigger. -/
def Admits (deps : Deps) (env : Env) (sender : Addr) (t : Trigger) : Prop :=
  t.condition.isSatisfied deps env=.ok true ∧ (t.executors=[] ∨ sender ∈ t.executors)

instance (sender : Addr) (t : Trigger) : Decidable (Admits deps env sender t) := inferInstanceAs (Decidable (_ ∧ _))

/-- One round takes out a trigger that is still stored and admits the sender, and otherwise does nothing. -/
theorem executeTrigger_taken {state state' : Table ℕ Trigger × List SubMsg} {removed : List Trigger} {id : ℕ}
    (hk : Keyed triggers) (ht : Taken info triggers state removed)
    (h : executeTrigger deps env info state id=.ok state') :
    Taken info triggers state' removed ∧
        (∀ t, triggers.get? id=some t → Admits deps env info.sender t → t ∈ removed) ∨
      ∃ t, triggers.get? id=some t ∧ Admits deps env info.sender t ∧ Taken info triggers state' (removed ++ [t]) := by
  unfold executeTrigger at h
  have hleft := ht.left id
  cases hget : state.1.get? id with
  | none =>
    simp only [hget] at h
    refine .inl ⟨Except.ok.inj h ▸ ht,fun t hstored _ => ?_⟩
    rw [hget] at hleft
    split_ifs at hleft with hin
    · obtain ⟨t',ht',hid⟩ := List.mem_map.mp hin
      have hsame := ht.stored t' ht'
      rw [hid,hstored] at hsame
      exact Option.some.inj hsame ▸ ht'
    · rw [hstored] at hleft
      cases hleft
  | some t =>
    rw [hget] at hleft
    split_ifs at hleft with hnot
    have hskip : ∀ t', triggers.get? id=some t' → t=t' := fun t' ht' => Option.some.inj (hleft.trans ht')
    simp only [hget] at h
    split_ifs at h with hexecutors
    · refine .inl ⟨Except.ok.inj h ▸ ht,fun t' ht' hadmits => ?_⟩
      obtain rfl := hskip t' ht'
      exact absurd hadmits.2 (by tauto)
    · obtain ⟨satisfied,hsatisfied,h⟩ := Except.bind_eq_ok.mp h
      split_ifs at h with hfalse
      · refine .inl ⟨Except.ok.inj h ▸ ht,fun t' ht' hadmits => ?_⟩
        obtain rfl := hskip t' ht'
        rw [hadmits.1,Fault.unwrapOr_ok] at hsatisfied
        exact absurd (Except.ok.inj hsatisfied) (by simp [hfalse])
      · cases h
        have hid := hk id t hleft.symm
        subst hid
        refine .inr ⟨t,hleft.symm,⟨?_,by tauto⟩,fun k => ?_,fun t' ht' => ?_,?_,?_⟩
        · rcases hc : t.condition.isSatisfied deps env with (e | _ | _) | b
          · rw [hc,Fault.unwrapOr_err] at hsatisfied
            exact absurd (Except.ok.inj hsatisfied).symm hfalse
          · simp [hc,Fault.unwrapOr,Fault.attempt] at hsatisfied
          · simp [hc,Fault.unwrapOr,Fault.attempt] at hsatisfied
          · rw [hc,Fault.unwrapOr_ok] at hsatisfied
            obtain rfl := Except.ok.inj hsatisfied
            simpa using hfalse
        · rw [Table.get?_erase,ht.left]
          by_cases hkt : k=t.id <;> simp [hkt]
        · rcases List.mem_append.mp ht' with ht' | ht'
          · exact ht.stored t' ht'
          · rw [List.mem_singleton.mp ht',← hleft]
        · refine ht.nodup.append (List.nodup_singleton t) ?_
          simpa using fun hmem => hnot (List.mem_map_of_mem hmem)
        · simp [ht.messages]

theorem execute_effect {ids : List ℕ} (hk : Keyed triggers)
    (h : ids.foldlM (executeTrigger deps env info) (triggers,[])=.ok (triggers',messages)) :
    ∃ rest, Effect info (.execute ids) triggers triggers' messages rest := by
  obtain ⟨removed,ht⟩ := Except.foldlM_invariant (fun state => ∃ removed, Taken info triggers state removed) _
    (fun state id state' hs hstep => by
      obtain ⟨removed,ht⟩ := hs
      obtain ⟨ht',_⟩ | ⟨t,_,_,ht'⟩ := executeTrigger_taken hk ht hstep
      · exact ⟨_,ht'⟩
      · exact ⟨_,ht'⟩) ids _ _
    ⟨[],by simp,by simp,List.nodup_nil,rfl⟩ h
  have hremoved : removed.Perm (triggers.values.filter fun t => (triggers'.get? t.id).isNone) := by
    refine (List.perm_ext_iff_of_nodup ht.nodup (hk.values_nodup.filter _)).mpr fun t => ?_
    rw [List.mem_filter,ht.left]
    constructor
    · intro hm
      exact ⟨Table.mem_values.mpr ⟨_,ht.stored t hm⟩,by simp [List.mem_map_of_mem hm]⟩
    · rintro ⟨hm,hnone⟩
      have hget := hk.get?_of_mem hm
      split_ifs at hnone with hin
      · obtain ⟨t',ht',he⟩ := List.mem_map.mp hin
        have := ht.stored t' ht'
        rw [he,hget] at this
        exact Option.some.inj this ▸ ht'
      · simp [hget] at hnone
  refine ⟨triggers',?_,rfl,by simp [added],?_,by simp,?_⟩
  · intro k
    have hleft := ht.left k
    simp only at hleft
    by_cases hnone : gone info.sender triggers' k (.execute ids)=true
    · rw [if_pos hnone]
      exact Option.isNone_iff_eq_none.mp hnone
    · rw [if_neg hnone]
      split_ifs at hleft
      · simp [gone,hleft] at hnone
      · exact hleft
  · simp only [gone,payee]
    refine List.Perm.trans (.of_eq ?_) (hremoved.flatMap_right _)
    rw [show messages=_ from ht.messages]
    simp only [paymentsOf,List.flatMap_assoc]
    refine List.flatMap_congr fun t _ => ?_
    simpa [paymentsOf] using paymentsOf_payRebate info.sender t
  · intro sub hsub hf
    rw [show messages=_ from ht.messages] at hsub
    obtain ⟨t,_,hsub⟩ := List.mem_flatMap.mp hsub
    rcases List.mem_cons.mp hsub with rfl | hsub
    · exact absurd rfl hf
    · exact ⟨_,payRebate_pays hsub⟩

namespace Effect

variable {msg : SchedulerExecuteMsg} {rest : Table ℕ Trigger}

theorem values_perm (he : Effect info msg triggers triggers' messages rest) :
    triggers'.values.Perm ((added info.sender triggers' msg).toList ++ rest.values) := by
  have hstored := congrArg Table.values he.stored
  cases ha : added info.sender triggers' msg with
  | none =>
    rw [ha] at hstored
    exact .of_eq hstored
  | some t =>
    rw [ha] at hstored
    exact (List.Perm.of_eq hstored).trans (Table.values_insert_perm (he.deposit t ha).1 t)

theorem keyed (he : Effect info msg triggers triggers' messages rest) (hk : Keyed triggers) : Keyed triggers' := by
  have hrest := (hk.kept_values he.left).1
  have hstored := he.stored
  cases ha : added info.sender triggers' msg with
  | none =>
    rw [ha] at hstored
    exact hstored ▸ hrest
  | some t =>
    rw [ha] at hstored
    intro k t' ht'
    rw [hstored,Option.elim_some,Table.get?_insert] at ht'
    split_ifs at ht' with hkt
    · rw [← Option.some.inj ht',hkt]
    · exact hrest k t' ht'

end Effect

/-- Every call of the scheduler. -/
theorem execute_eq_ok {msg : SchedulerExecuteMsg} (hk : Keyed triggers)
    (h : execute deps env info triggers msg=.ok (triggers',messages)) :
    ∃ rest, Effect info msg triggers triggers' messages rest := by
  cases msg with
  | create command => exact create_effect hk h
  | execute ids => exact execute_effect hk h

end SchedulerContract
end CalcRs
