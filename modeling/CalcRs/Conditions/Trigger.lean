import CalcRs.Actions.Payouts
import CalcRs.Conditions.Execution
import CalcRs.Model.Scheduler

/-! The trigger that a schedule creates. The scheduler bounds its executors and the bank its rebate; the
schedule checks neither when it is initialised. -/
namespace CalcRs

namespace Schedule

/-- The rebate entries of one denom, each clamped to the balance, taken together. -/
def clamped (s : Schedule) (balance : Denom → ℕ) (x : Denom) : ℕ :=
  amountIn x (s.executionRebate.map fun c => ⟨min c.amount (balance c.denom),c.denom⟩)

/-- Where every balance can be read, the rebate is the sum of the clamped entries. -/
theorem rebate_eq {s : Schedule} {deps : Deps} {env : Env} {balance : Denom → ℕ}
    (hb : ∀ c ∈ s.executionRebate, ∃ held, deps.queryBalance env.contract c.denom=.ok held ∧
    held.amount=balance c.denom) : s.rebate deps env=
      Coins.empty.addAll (s.executionRebate.map fun c => ⟨min c.amount (balance c.denom),c.denom⟩) := by
  rw [rebate,Coins.addAll,List.foldlM_map]
  generalize Coins.empty=start
  generalize s.executionRebate=xs at hb
  induction xs generalizing start with
  | nil => rfl
  | cons amount rest ih =>
    obtain ⟨held,hq,hheld⟩ := hb amount (by simp)
    rw [List.foldlM_cons,List.foldlM_cons,hq,query_ok,Except.ok_bind,hheld]
    congr 1
    funext next
    exact ih next fun c hc => hb c (by simp [hc])

theorem rebate_amountOf {s : Schedule} {deps : Deps} {env : Env} {balance : Denom → ℕ}
    {rebate : Coins} (hb : deps.Answers env.contract balance) (h : s.rebate deps env=.ok rebate)
    (x : Denom) : rebate.amountOf x=s.clamped balance x := by
  rw [rebate_eq fun c _ => ⟨_,hb c.denom,rfl⟩] at h
  rw [Coins.addAll_amountOf h,Coins.amountOf_empty,Nat.zero_add,clamped]

section

variable [Crates]

/-- The two kinds of condition that the scheduler takes. -/
def Supported : Condition → Prop
  | .blocksCompleted _ => True
  | .timestampElapsed _ => True
  | _ => False

variable {s : Schedule} {deps : Deps} {env : Env} {balance : Denom → ℕ}

theorem intoCondition_supported {cadence : Cadence} {condition : Condition}
    (h : cadence.intoCondition env=.ok condition) : Supported condition := by
  cases cadence with
  | blocks interval previous =>
    cases previous with
    | none =>
      cases h
      trivial
    | some p =>
      obtain ⟨_,_,rfl⟩ := Except.map_eq_ok.mp h
      trivial
  | time duration previous =>
    cases previous with
    | none =>
      cases h
      trivial
    | some p =>
      obtain ⟨_,_,rfl⟩ := Except.map_eq_ok.mp h
      trivial
  | cron expr previous =>
    obtain ⟨next,_,h⟩ := Except.bind_eq_ok.mp h
    cases next with
    | none =>
      cases h
      trivial
    | some next =>
      obtain ⟨_,_,rfl⟩ := Except.map_eq_ok.mp h
      trivial

theorem advance_supported {condition : Condition} {stored : Schedule} (h : s.advance env=.ok (condition,stored)) :
    Supported condition := by
  obtain ⟨_,_,_,hinto,_⟩ | ⟨_,hinto,_⟩ := advance_eq_ok h
  · exact intoCondition_supported hinto
  · exact intoCondition_supported hinto

/-- `Create` fails only over the executors, when nobody else's trigger has the same id. -/
theorem create_isOk_iff {command : CreateTriggerMsg} {info : MessageInfo} {triggers : Table ℕ Trigger}
    (hc : Supported command.condition) (hn : (info.funds.map Coin.denom).Nodup)
    (howner : ∀ id, command.id info.sender=.ok id → ∀ t, triggers.get? id=some t → t.owner=info.sender) :
    (∃ r, SchedulerContract.create info triggers command=.ok r) ↔ command.executors.length≤MAX_EXECUTORS := by
  obtain ⟨rebate,hrebate⟩ := Coins.tryFrom_of_nodup hn
  have hcheck : SchedulerContract.checkCondition command.condition=.ok () := by
    cases hcond : command.condition <;> rw [hcond] at hc <;> first | exact hc.elim | rfl
  obtain ⟨id,hid⟩ : ∃ id, command.id info.sender=.ok id := by
    cases hcond : command.condition <;> rw [hcond] at hc <;> first
      | exact hc.elim
      | exact ⟨_,by rw [CreateTriggerMsg.id,hcond]; rfl⟩
  obtain ⟨removed,hremoved⟩ : ∃ r, SchedulerContract.removeExisting info triggers id=.ok r := by
    rw [SchedulerContract.removeExisting]
    cases ht : triggers.get? id with
    | none => exact ⟨_,rfl⟩
    | some t => exact ⟨_,if_neg fun hne => hne (howner id hid t ht).symm⟩
  constructor
  · rintro ⟨r,h⟩
    by_contra hlt
    rw [SchedulerContract.create,if_pos (not_le.mp hlt)] at h
    cases h
  · intro hle
    rw [SchedulerContract.create,if_neg (not_lt.mpr hle),hcheck,Except.ok_bind,hid,Except.ok_bind,hremoved,
      Except.ok_bind,hrebate]
    exact ⟨_,rfl⟩

/-- The `Create` message of an execution is accepted by every scheduler that holds no trigger of somebody
else under its id, and the strategy holds the coins attached to it. -/
structure Creatable (env : Env) (balance : Denom → ℕ) (command : CreateTriggerMsg) (funds : List Coin) : Prop where
  accepted : ∀ triggers : Table ℕ Trigger,
    (∀ id, command.id env.contract=.ok id → ∀ t, triggers.get? id=some t → t.owner=env.contract) →
    ∃ r, SchedulerContract.create ⟨env.contract,funds⟩ triggers command=.ok r
  paid : ∀ x, amountIn x funds≤balance x

/-- The message is accepted and can be paid for if and only if the schedule names at most ten executors
and the clamped rebate entries of each denom together stay within the balance. -/
theorem trigger_creatable_iff {messages : List CosmosMsg} {stored : Condition}
    (hb : deps.Answers env.contract balance) (h : s.executeUnsafe deps env=.ok (messages,stored)) :
    (∃ address command funds, messages=[.wasmExecute address (.scheduler (.create command)) funds] ∧
      Creatable env balance command funds) ↔
      s.executors.length≤MAX_EXECUTORS ∧ ∀ x, s.clamped balance x≤balance x := by
  obtain ⟨rebate,condition,_,_,hr,hadvance,_,rfl⟩ := executeUnsafe_eq_ok h
  have hsupported := advance_supported hadvance
  have hamount := rebate_amountOf hb hr
  constructor
  · rintro ⟨address,command,funds,hm,haccepted,hpaid⟩
    simp only [List.cons.injEq,CosmosMsg.wasmExecute.injEq,Body.scheduler.injEq,SchedulerExecuteMsg.create.injEq,
      and_true] at hm
    obtain ⟨rfl,rfl,rfl⟩ := hm
    refine ⟨?_,fun x => ?_⟩
    · obtain ⟨r,hcreate⟩ := haccepted Table.empty fun _ _ t ht => by cases ht
      exact (create_isOk_iff hsupported (Coins.toVec_denoms_nodup rebate) fun _ _ t ht => by cases ht).mp ⟨r,hcreate⟩
    · rw [← hamount,← Coins.amountIn_toVec]
      exact hpaid x
  · rintro ⟨hle,hclamped⟩
    refine ⟨_,_,_,rfl,fun triggers howner => ?_,fun x => ?_⟩
    · exact (create_isOk_iff hsupported (Coins.toVec_denoms_nodup rebate) howner).mpr hle
    · rw [Coins.amountIn_toVec,hamount]
      exact hclamped x

end

section

attribute [local instance] Crates.plain

/-- Every ten blocks, with the given rebate and executors. -/
def everyTenBlocks (rebate : List Coin) (executors : List Addr) : Schedule where
  schedulerAddress := "scheduler"
  managerAddress := "manager"
  cadence := .blocks 10 none
  next := none
  executionRebate := rebate
  executors := executors
  jitter := none
  executions := none
  maxExecutions := none

def atBlock (height : ℕ) : Env := ⟨⟨height,⟨height*10^9⟩⟩,"strategy"⟩

/-- Two rebate entries of 100 rune, with a balance of 150: the message attaches 200. With eleven executors
and no rebate the scheduler rejects the message. -/
theorem trigger_not_creatable :
    (everyTenBlocks [⟨100,"rune"⟩,⟨100,"rune"⟩] []).init Deps.silent=
      .ok (.schedule (everyTenBlocks [⟨100,"rune"⟩,⟨100,"rune"⟩] [])) ∧
    (∃ command stored, (everyTenBlocks [⟨100,"rune"⟩,⟨100,"rune"⟩] []).executeUnsafe
        (Deps.withBalance fun _ _ => 150) (atBlock 1)=
        .ok ([.wasmExecute "scheduler" (.scheduler (.create command)) [⟨200,"rune"⟩]],stored) ∧
      ¬Creatable (atBlock 1) (fun _ => 150) command [⟨200,"rune"⟩]) ∧
    (everyTenBlocks [] (List.replicate 11 "keeper")).init Deps.silent=
      .ok (.schedule (everyTenBlocks [] (List.replicate 11 "keeper"))) ∧
    ∃ command stored, (everyTenBlocks [] (List.replicate 11 "keeper")).executeUnsafe
        (Deps.withBalance fun _ _ => 150) (atBlock 1)=
        .ok ([.wasmExecute "scheduler" (.scheduler (.create command)) []],stored) ∧
      ¬Creatable (atBlock 1) (fun _ => 150) command [] := by
  refine ⟨by decide,⟨_,_,rfl,fun h => absurd (h.paid "rune") (by decide)⟩,by decide,_,_,rfl,fun h => ?_⟩
  obtain ⟨r,hr⟩ := h.accepted Table.empty fun _ _ t ht => by cases ht
  cases hr

theorem trigger_creatable_iff_tenBlocks :
    (∃ address command funds, [CosmosMsg.wasmExecute "scheduler" (.scheduler (.create
        ((everyTenBlocks [⟨100,"rune"⟩] []).createTriggerMsg (atBlock 1) (.blocksCompleted 11)))) [⟨60,"rune"⟩]]=
        [.wasmExecute address (.scheduler (.create command)) funds] ∧
      Creatable (atBlock 1) (fun _ => 60) command funds) ↔
      (everyTenBlocks [⟨100,"rune"⟩] []).executors.length≤MAX_EXECUTORS ∧
        ∀ x, (everyTenBlocks [⟨100,"rune"⟩] []).clamped (fun _ => 60) x≤60 :=
  have hanswers : (Deps.withBalance fun _ _ => 60).Answers (atBlock 1).contract fun _ => 60 := fun _ => rfl
  trigger_creatable_iff hanswers (by rfl)

end

end Schedule
end CalcRs
