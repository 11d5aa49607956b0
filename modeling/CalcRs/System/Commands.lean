import CalcRs.Foundation.History
import CalcRs.System.Requests
import CalcRs.System.Status

/-! What the manager asks of its strategies is done, once and to the end: commands, node lists and runs. -/
namespace CalcRs

/-- A command of the manager to a strategy, with the funds that go with it. -/
structure Command where
  strategy : Addr
  msg : StrategyExecuteMsg
  funds : List Coin
  deriving DecidableEq

/-- The command that a call of the manager leads to. -/
def ManagerExecuteMsg.command (funds : List Coin) : ManagerExecuteMsg → Option Command
  | .execute a => some ⟨a,.execute,funds⟩
  | .update a nodes => some ⟨a,.update nodes,funds⟩
  | .updateStatus a status => some ⟨a,ManagerContract.statusMsg status,funds⟩
  | .instantiate .. => none
  | .updateLabel .. => none

/-- The node list that a message installs. -/
def StrategyExecuteMsg.installs : StrategyExecuteMsg → Option (List Node)
  | .init nodes => some nodes
  | _ => none

/-- The run that a message starts. -/
def StrategyExecuteMsg.opens : StrategyExecuteMsg → Option StrategyOperation
  | .process operation none => some operation
  | _ => none

/-- The run that a message goes on with. -/
def StrategyExecuteMsg.resumes : StrategyExecuteMsg → Option StrategyOperation
  | .process operation (some _) => some operation
  | _ => none

/-- The runs that a message leads to. -/
def StrategyExecuteMsg.runs : StrategyExecuteMsg → List StrategyOperation
  | .init _ => [.execute]
  | .execute => [.execute]
  | .update _ => [.cancel]
  | .cancel => [.cancel]
  | .withdraw _ => []
  | .process _ _ => []

namespace Site

variable {site : Site} {p : Packet} {out : List Packet} {a : Addr}

/-- The command of the manager that a message is. -/
def commanded (site : Site) (p : Packet) : Option Command :=
  match p.sub.msg with
  | .wasmExecute a (.strategy msg) funds =>
    if p.sender=site.manager ∧ p.sub.replyOn=.never then some ⟨a,msg,funds⟩ else none
  | _ => none

theorem commanded_eq_some {command : Command} : site.commanded p=some command ↔
    p=⟨site.manager,⟨.wasmExecute command.strategy (.strategy command.msg) command.funds,.never,p.sub.id⟩⟩ := by
  obtain ⟨sender,message,replyOn,id⟩ := p
  obtain ⟨a,msg,funds⟩ := command
  cases message with
  | wasmExecute target body funds' =>
    cases body <;> simp [commanded,and_comm,and_assoc,and_left_comm]
  | _ => simp [commanded]

theorem commanded_sender {command : Command} (h : site.commanded p=some command) : p.sender=site.manager := by
  rw [commanded_eq_some.mp h]

theorem commanded_other (h : p.sender≠site.manager) : site.commanded p=none :=
  Option.eq_none_iff_forall_ne_some.mpr fun _ hc => h (commanded_sender hc)

theorem commanded_others (h : ∀ q ∈ out, q.sender≠site.manager) : out.filterMap site.commanded=[] :=
  List.filterMap_eq_nil_iff.mpr fun q hq => commanded_other (h q hq)

theorem commanded_callStrategy {msg : StrategyExecuteMsg} {funds : List Coin} :
    site.commanded ⟨site.manager,ManagerContract.callStrategy a msg funds⟩=some ⟨a,msg,funds⟩ := by
  simp [commanded,ManagerContract.callStrategy]

/-- The message by which a strategy goes on with what it was asked for. -/
def onward (a : Addr) (p : Packet) : Option StrategyExecuteMsg :=
  match p.sub.msg with
  | .wasmExecute target (.strategy msg) _ => if p.sender=a ∧ target=a ∧ p.sub.replyOn=.never then some msg else none
  | _ => none

theorem onward_sender {msg : StrategyExecuteMsg} (h : onward a p=some msg) : p.sender=a := by
  unfold onward at h
  split at h
  · split_ifs at h with hp
    exact hp.1
  · cases h

theorem onward_others (h : ∀ q ∈ out, q.sender≠a) : out.filterMap (onward a)=[] :=
  List.filterMap_eq_nil_iff.mpr fun q hq => Option.eq_none_iff_forall_ne_some.mpr fun _ ho => h q hq (onward_sender ho)

theorem onward_callSelf {env : Env} {msg : StrategyExecuteMsg} :
    onward env.contract ⟨env.contract,callSelf env msg⟩=some msg := by simp [onward,callSelf]

theorem onward_reported {sender : Addr} {m : CosmosMsg} {i : ℕ} : onward a ⟨sender,⟨m,.always,i⟩⟩=none := by
  unfold onward
  split
  · simp
  · rfl

end Site

section

variable [Crates]

namespace Site

/-- An address that is derived for a strategy. -/
def Derived (site : Site) (a : Addr) : Prop := ∃ codeId salt, a=Crates.instantiate2Address codeId site.manager salt

/-- The command that a message asks the manager for. -/
def asked (site : Site) (p : Packet) : Option Command := (site.toManager p).bind fun msg => msg.command p.funds

/-- Strategies have derived addresses and belong to the manager, which registers and commands derived addresses only,
and does not ask how it went. -/
structure Housed (site : Site) (w : World) (ps : List Packet) : Prop where
  home : ∀ a s, w.strategies a=some s → site.Strategy a ∧ s.manager=site.manager
  listed : ∀ a strategy, w.manager.strategies.get? a=some strategy → site.Derived a
  aimed : ∀ p ∈ ps, ∀ command, site.commanded p=some command → site.Derived command.strategy
  silent : ∀ p ∈ ps, p.sender=site.manager → p.sub.replyOn=.never

variable {site : Site} {w w' : World} {p : Packet} {out ps : List Packet} {a : Addr}

theorem Derived.not_outside (h : site.Derived a) : ¬site.Outside a := fun ho => by
  obtain ⟨codeId,salt,he⟩ := h
  exact ho.2.2 codeId salt he

section

open ManagerContract (Accepts)

variable {deps : Deps} {env : Env} {info : MessageInfo} {storage storage' : ManagerStorage} {msg : ManagerExecuteMsg}
  {response : ManagerResponse}

/-- An accepted call of the manager sends its command, and nothing else is a command. -/
theorem accepts_commands (h : Accepts deps env info storage msg storage' response) :
    (response.messages.map (Packet.mk site.manager)).filterMap site.commanded=(msg.command info.funds).toList := by
  cases h with
  | instantiate => rfl
  | execute => rw [List.map_singleton,List.filterMap_cons,commanded_callStrategy]; rfl
  | update => rw [List.map_singleton,List.filterMap_cons,commanded_callStrategy]; rfl
  | updateStatus => rw [List.map_singleton,List.filterMap_cons,commanded_callStrategy]; rfl
  | updateLabel => rfl

theorem accepts_silent (h : Accepts deps env info storage msg storage' response) :
    ∀ sub ∈ response.messages, sub.replyOn=.never := by
  intro sub hs
  cases h with
  | updateLabel => cases hs
  | _ => exact List.mem_singleton.mp hs ▸ rfl

theorem derived_insert {a : Addr} {strategy : CalcRs.Strategy} (ha : site.Derived a)
    (hl : ∀ b strategy, storage.strategies.get? b=some strategy → site.Derived b) :
    ∀ b strategy', (storage.strategies.insert a strategy).get? b=some strategy' → site.Derived b := by
  intro b strategy' hb
  rw [Table.get?_insert] at hb
  split_ifs at hb with hba
  · exact hba ▸ ha
  · exact hl b _ hb

/-- What is registered or commanded has a derived address. -/
theorem accepts_derived (henv : env.contract=site.manager)
    (hl : ∀ b strategy, storage.strategies.get? b=some strategy → site.Derived b)
    (h : Accepts deps env info storage msg storage' response) :
    (∀ b strategy, storage'.strategies.get? b=some strategy → site.Derived b) ∧
      ∀ command, msg.command info.funds=some command → site.Derived command.strategy := by
  cases h with
  | instantiate _ _ _ _ _ _ _ ha => exact ⟨derived_insert ⟨_,_,henv ▸ ha⟩ hl,fun _ hc => by cases hc⟩
  | execute hg => exact ⟨derived_insert (hl _ _ hg) hl,fun _ hc => Option.some.inj hc ▸ hl _ _ hg⟩
  | update hg => exact ⟨derived_insert (hl _ _ hg) hl,fun _ hc => Option.some.inj hc ▸ hl _ _ hg⟩
  | updateStatus hg => exact ⟨derived_insert (hl _ _ hg) hl,fun _ hc => Option.some.inj hc ▸ hl _ _ hg⟩
  | updateLabel _ hg => exact ⟨derived_insert (hl _ _ hg) hl,fun _ hc => by cases hc⟩

end

/-- Only the manager sends in its name. -/
theorem Housed.senders (h : site.Housed w ps) (hd : site.Delivers w p w' out) (hm : site.toManager p=none) :
    ∀ q ∈ out, q.sender≠site.manager := by
  cases hd with
  | send _ _ => simp
  | deposit _ _ => simp
  | manager hmsg _ hbody _ _ _ => simp [toManager,hmsg,hbody] at hm
  | scheduler _ _ _ _ _ _ =>
    intro q hq
    obtain ⟨_,_,rfl⟩ := List.mem_map.mp hq
    exact site.distinct.symm
  | strategy _ _ hs _ _ _ _ =>
    intro q hq
    obtain ⟨_,_,rfl⟩ := List.mem_map.mp hq
    exact (h.home _ _ hs).1.1
  | instantiate _ _ _ _ hne _ _ _ =>
    intro q hq
    obtain ⟨_,_,rfl⟩ := List.mem_map.mp hq
    exact hne
  | outside _ ho _ hq => exact fun q hm => (hq q hm).symm ▸ ho.1

/-- A delivery that calls the manager is an accepted call of it. -/
theorem Housed.to_manager (h : site.Housed w ps) (hd : site.Delivers w p w' out) {msg : ManagerExecuteMsg}
    (hm : site.toManager p=some msg) : ∃ deps env storage response, env.contract=site.manager ∧
      ManagerContract.Accepts deps env ⟨p.sender,p.funds⟩ w.manager msg storage response ∧
      w'={ w.charge p with manager := storage } ∧ out=response.messages.map (Packet.mk site.manager) := by
  obtain ⟨body,funds,hmsg,hbody⟩ : ∃ body funds, p.sub.msg=.wasmExecute site.manager body funds ∧
      body.toManager=some msg := by
    unfold toManager at hm
    split at hm
    · split_ifs at hm with ht
      subst ht
      exact ⟨_,_,by assumption,hm⟩
    · cases hm
  have hfunds : p.funds=funds := by simp [Packet.funds,hmsg,CosmosMsg.funds]
  cases hd with
  | send h _ => simp [hmsg] at h
  | deposit h _ => simp [hmsg] at h
  | manager h' _ hbody' _ henv he =>
    simp only [hmsg,CosmosMsg.wasmExecute.injEq] at h'
    obtain ⟨_,rfl,rfl⟩ := h'
    obtain rfl := Option.some.inj (hbody.symm.trans hbody')
    exact ⟨_,_,_,_,henv,hfunds ▸ ManagerContract.execute_accepts he,rfl,rfl⟩
  | scheduler h' _ _ _ _ _ =>
    simp only [hmsg,CosmosMsg.wasmExecute.injEq] at h'
    exact absurd h'.1 site.distinct
  | strategy h' _ hs _ _ _ _ =>
    simp only [hmsg,CosmosMsg.wasmExecute.injEq] at h'
    exact absurd h'.1.symm (h.home _ _ hs).1.1
  | instantiate h' _ _ _ _ _ _ _ => simp [hmsg] at h'
  | outside h' ho _ _ =>
    rw [Packet.receiver,hmsg] at h'
    exact absurd (Option.some.inj h').symm ho.1

/-- What a delivery makes the manager command is what the message asked for. -/
theorem Housed.commands (h : site.Housed w ps) (hd : site.Delivers w p w' out) :
    out.filterMap site.commanded=(site.asked p).toList := by
  cases hm : site.toManager p with
  | none =>
    rw [commanded_others (h.senders hd hm),asked,hm]
    rfl
  | some msg =>
    obtain ⟨deps,env,storage,response,_,he,_,rfl⟩ := h.to_manager hd hm
    rw [asked,hm]
    exact accepts_commands he

theorem Housed.extend (h : site.Housed w (p :: ps)) (hs : ∀ a s, w'.strategies a=some s → site.Strategy a ∧ s.manager=site.manager)
    (hm : w'.manager=w.manager) (hq : ∀ q ∈ out, q.sender≠site.manager) : site.Housed w' (out ++ ps) := by
  refine ⟨hs,hm ▸ h.listed,fun q hmem command hc => ?_,fun q hmem hsender => ?_⟩
  · rcases List.mem_append.mp hmem with hmem | hmem
    · exact absurd (commanded_sender hc) (hq q hmem)
    · exact h.aimed q (List.mem_cons_of_mem _ hmem) command hc
  · rcases List.mem_append.mp hmem with hmem | hmem
    · exact absurd hsender (hq q hmem)
    · exact h.silent q (List.mem_cons_of_mem _ hmem) hsender

theorem Housed.keeps (site : Site) : Dispatch.Keeps site.machine Dispatch.Conduct.any (Housed site) where
  call {w w' p ps out} h _ hd := by
    have hd : site.Delivers w p w' out := hd
    have hcommands := h.commands hd
    cases hd with
    | send _ _ => exact h.extend h.home rfl (by simp)
    | deposit _ _ => exact h.extend h.home rfl (by simp)
    | @manager body funds msg _ _ _ _ hmsg _ hbody _ henv he =>
      obtain ⟨hlisted,haimed⟩ := accepts_derived henv h.listed (ManagerContract.execute_accepts he)
      refine ⟨h.home,hlisted,fun q hq command hc => ?_,fun q hq hsender => ?_⟩
      · rcases List.mem_append.mp hq with hq | hq
        · have hmem : command ∈ (site.asked p).toList := hcommands ▸ List.mem_filterMap.mpr ⟨q,hq,hc⟩
          have hasked : site.asked p=msg.command funds := by
            simp [asked,toManager,hmsg,hbody,Packet.funds,CosmosMsg.funds]
          exact haimed command (hasked ▸ Option.mem_toList.mp hmem)
        · exact h.aimed q (List.mem_cons_of_mem _ hq) command hc
      · rcases List.mem_append.mp hq with hq | hq
        · obtain ⟨sub,hsub,rfl⟩ := List.mem_map.mp hq
          exact accepts_silent (ManagerContract.execute_accepts he) sub hsub
        · exact h.silent q (List.mem_cons_of_mem _ hq) hsender
    | scheduler hmsg _ _ _ _ _ =>
      refine h.extend h.home rfl fun q hq => ?_
      obtain ⟨_,_,rfl⟩ := List.mem_map.mp hq
      exact site.distinct.symm
    | @strategy target _ _ _ _ _ _ _ s' _ hmsg _ hs _ _ _ he =>
      obtain ⟨hhome,hman⟩ := h.home target _ hs
      refine h.extend (fun b t hb => ?_) rfl fun q hq => ?_
      · by_cases hbt : b=target
        · subst hbt
          simp only [Function.update_self,Option.some.injEq] at hb
          exact ⟨hhome,by rw [← hb,(StrategyContract.execute_sends he).1,hman]⟩
        · simp only [Function.update_of_ne hbt] at hb
          exact h.home b t hb
      · obtain ⟨_,_,rfl⟩ := List.mem_map.mp hq
        exact hhome.1
    | @instantiate _ codeId _ salt msg funds env s _ hmsg hsender _ henv hm hsch _ hi =>
      obtain ⟨rfl,rfl⟩ := StrategyContract.instantiate_eq_ok hi
      refine h.extend (fun b t hb => ?_) rfl fun q hq => ?_
      · by_cases hbt : b=env.contract
        · subst hbt
          simp only [Function.update_self,Option.some.injEq] at hb
          exact ⟨⟨hm,hsch,codeId,salt,henv⟩,by rw [← hb]; exact hsender⟩
        · simp only [Function.update_of_ne hbt] at hb
          exact h.home b t hb
      · obtain ⟨_,_,rfl⟩ := List.mem_map.mp hq
        exact hm
    | outside _ ho _ hq => exact h.extend h.home rfl fun q hm => (hq q hm).symm ▸ ho.1
  reply {w p ok ps out} h hr := by
    refine ⟨h.home,h.listed,fun q hq command hc => ?_,fun q hq hsender => ?_⟩
    · rcases List.mem_append.mp hq with hq | hq
      · exact absurd (commanded_sender hc) (Replies.senders hr q hq).1
      · exact h.aimed q hq command hc
    · rcases List.mem_append.mp hq with hq | hq
      · exact absurd hsender (Replies.senders hr q hq).1
      · exact h.silent q hq hsender
  drop h _ _ := ⟨h.home,h.listed,fun q hq => h.aimed q (List.mem_cons_of_mem _ hq),
    fun q hq => h.silent q (List.mem_cons_of_mem _ hq)⟩

theorem Housed.begins (h : site.Housed w []) (ho : site.Outside p.sender) : site.Housed w [p] := by
  refine ⟨h.home,h.listed,fun q hq command hc => ?_,fun q hq hsender => ?_⟩
  · rw [List.mem_singleton.mp hq] at hc
    exact absurd (commanded_sender hc) ho.1
  · rw [List.mem_singleton.mp hq] at hsender
    exact absurd hsender ho.1

/-- A new chain: no strategy, no entry in the registry. -/
theorem Housed.vacant (hnone : ∀ a, w.strategies a=none) (hempty : w.manager.strategies=Table.empty) :
    site.Housed w [] := by
  refine ⟨fun a s hs => ?_,fun a strategy hs => ?_,by simp,by simp⟩
  · rw [hnone] at hs
    cases hs
  · rw [hempty] at hs
    cases hs

theorem commanded_firm (site : Site) : Dispatch.Firm site.machine site.commanded where
  begins h := commanded_other h.1
  replies h := commanded_others fun q hq => (Replies.senders h q hq).1
  catches {p} h := by
    refine Option.eq_none_iff_forall_ne_some.mpr fun command hc => ?_
    rw [commanded_eq_some.mp hc] at h
    cases h

/-- The strategy does what it is commanded. -/
theorem Housed.obeys (h : site.Housed w (p :: ps)) (hd : site.Delivers w p w' out) {command : Command}
    (hc : site.commanded p=some command) : ∃ gas deps env s s' response, w.strategies command.strategy=some s ∧
      env.contract=command.strategy ∧ StrategyContract.execute gas deps env ⟨site.manager,command.funds⟩ s command.msg=
        .ok (s',response) ∧ out=response.messages.map (Packet.mk command.strategy) := by
  have hderived := h.aimed p List.mem_cons_self command hc
  have hp := commanded_eq_some.mp hc
  have hmsg : p.sub.msg=.wasmExecute command.strategy (.strategy command.msg) command.funds := by rw [hp]
  cases hd with
  | send h' _ => simp [hmsg] at h'
  | deposit h' _ => simp [hmsg] at h'
  | manager h' _ hbody _ _ _ =>
    simp only [hmsg,CosmosMsg.wasmExecute.injEq] at h'
    rw [← h'.2.1] at hbody
    cases hbody
  | scheduler h' _ hbody _ _ _ =>
    simp only [hmsg,CosmosMsg.wasmExecute.injEq] at h'
    rw [← h'.2.1] at hbody
    cases hbody
  | strategy h' _ hs hbody _ henv he =>
    simp only [hmsg,CosmosMsg.wasmExecute.injEq] at h'
    obtain ⟨rfl,rfl,rfl⟩ := h'
    obtain rfl := Option.some.inj hbody
    rw [commanded_sender hc] at he
    exact ⟨_,_,_,_,_,_,hs,henv,he,rfl⟩
  | instantiate h' _ _ _ _ _ _ _ => simp [hmsg] at h'
  | outside h' ho _ _ =>
    rw [Packet.receiver,hmsg] at h'
    exact absurd (Option.some.inj h' ▸ ho) hderived.not_outside

/-- When a transaction is over, every command that the manager accepted was carried out by its strategy once, and no
others were. -/
theorem commands_carried_out {w₀ : World} (h₀ : site.Housed w₀ []) {history : Dispatch.History Packet}
    (h : Dispatch.Reachable site.machine.logging Dispatch.Conduct.any.recording (w₀,[]) ⟨(w,history),[]⟩) :
    (history.delivered.filterMap site.asked).Perm (history.delivered.filterMap site.commanded) ∧
    ∀ e ∈ history, ∀ command, site.commanded e.1=some command → ∃ gas deps env s s' response,
      env.contract=command.strategy ∧ StrategyContract.execute gas deps env ⟨site.manager,command.funds⟩ s command.msg=
        .ok (s',response) ∧ e.2=response.messages.map (Packet.mk command.strategy) := by
  obtain ⟨_,hlog⟩ := h.logged (Housed.keeps site) (fun hw hb => hw.begins hb) h₀
  have hsent : history.sent.filterMap site.commanded=history.flatMap fun e => (site.asked e.1).toList :=
    Dispatch.History.sent_filterMap fun e he => by
      obtain ⟨_,_,_,hw,hd⟩ := hlog e he
      exact hw.commands hd
  refine ⟨?_,fun e he command hc => ?_⟩
  · have hsettled := h.settled (commanded_firm site)
    rw [hsent] at hsettled
    rwa [List.filterMap_eq_flatMap_toList,Dispatch.History.delivered,List.flatMap_map]
  · obtain ⟨_,_,_,hw,hd⟩ := hlog e he
    obtain ⟨gas,deps,env,s,s',response,_,henv,hex,hout⟩ := hw.obeys hd hc
    exact ⟨gas,deps,env,s,s',response,henv,hex,hout⟩

/-! ### Node lists and runs -/

theorem onward_firm (ha : site.Strategy a) : Dispatch.Firm site.machine (onward a) where
  begins h := Option.eq_none_iff_forall_ne_some.mpr fun _ ho => h.not_strategy (onward_sender ho ▸ ha)
  replies h := onward_others fun q hq he => (Replies.senders h q hq).not_strategy (he ▸ ha)
  catches {p} h := by
    unfold onward
    split
    · refine if_neg fun hp => ?_
      have he := hp.2.2
      have h : p.sub.replyOn.asks false=true := h
      rw [he] at h
      cases h
    · rfl

theorem onward_calls {msg : StrategyExecuteMsg} (h : onward a p=some msg) : p.calls a=some msg := by
  unfold onward at h
  split at h
  · split_ifs at h with hp
    obtain rfl := Option.some.inj h
    rename_i hmsg
    simp [Packet.calls,CosmosMsg.strategyCall,hmsg,hp.2.1,Body.toStrategy]
  · cases h

section

variable {gas : ℕ} {deps : Deps} {env : Env} {info : MessageInfo} {s s' : StrategyStorage} {msg : StrategyExecuteMsg}
  {response : StrategyResponse}

/-- What a strategy tells itself to do next. -/
inductive Follows (out : List Packet) : StrategyExecuteMsg → List StrategyExecuteMsg → Prop
  | init {nodes : List Node} : Follows out (.init nodes) [.process .execute none]
  | execute : Follows out .execute [.process .execute none]
  | withdraw {amounts : List Coin} : Follows out (.withdraw amounts) []
  | update {nodes : List Node} : Follows out (.update nodes) [.process .cancel none,.init nodes]
  | cancel : Follows out .cancel [.process .cancel none]
  | goOn {operation : StrategyOperation} {previous : Option ℕ} {q : ℕ} : out≠[] →
      Follows out (.process operation previous) [.process operation (some q)]
  | finish {operation : StrategyOperation} {previous : Option ℕ} : out=[] → Follows out (.process operation previous) []

theorem execute_follows (h : StrategyContract.execute gas deps env info s msg=.ok (s',response)) :
    Follows (response.messages.map (Packet.mk env.contract)) msg
      ((response.messages.map (Packet.mk env.contract)).filterMap (onward env.contract)) := by
  have hself : ∀ m : StrategyExecuteMsg, [Packet.mk env.contract (callSelf env m)].filterMap (onward env.contract)=[m] :=
    fun m => by rw [List.filterMap_cons,onward_callSelf]; rfl
  obtain ⟨deposits,h⟩ := StrategyContract.execute_eq_ok h
  cases h with
  | init => rw [List.map_singleton,hself]; exact .init
  | execute => rw [List.map_singleton,hself]; exact .execute
  | update =>
    rw [List.map_cons,List.map_singleton,List.filterMap_cons,onward_callSelf,hself]
    exact .update
  | withdraw _ hw =>
    rw [List.filterMap_eq_nil_iff.mpr fun q hq => ?_]
    · exact .withdraw
    · obtain ⟨sub,hsub,rfl⟩ := List.mem_map.mp hq
      obtain ⟨target,amount,hm⟩ := StrategyContract.withdraw_sends hw sub hsub
      simp [onward,hm]
  | cancel => rw [List.map_singleton,hself]; exact .cancel
  | @process operation previous r _ hp =>
    cases hpr : r.progress with
    | finished path => exact .finish rfl
    | failed i e =>
      change Follows ([callSelf env (.process operation (some i))].map (Packet.mk env.contract)) _
        (([callSelf env (.process operation (some i))].map (Packet.mk env.contract)).filterMap _)
      rw [List.map_singleton,hself]
      exact .goOn (List.cons_ne_nil _ _)
    | messages i ms q =>
      have hnone : ((ms.map fun m => (⟨m,.always,i⟩ : SubMsg)).map (Packet.mk env.contract)).filterMap
          (onward env.contract)=[] := by
        refine List.filterMap_eq_nil_iff.mpr fun x hx => ?_
        obtain ⟨_,hsub,rfl⟩ := List.mem_map.mp hx
        obtain ⟨m,_,rfl⟩ := List.mem_map.mp hsub
        exact onward_reported
      rw [StrategyContract.processResponse,List.map_append,List.filterMap_append,hnone,List.map_singleton,hself]
      exact .goOn (by simp)

end

/-- The creation of the strategy at this address. -/
def creation (site : Site) (a : Addr) (p : Packet) : Option StrategyInstantiateMsg :=
  match p.sub.msg with
  | .instantiate2 _ codeId _ salt msg _ =>
    if p.sender=site.manager ∧ Crates.instantiate2Address codeId site.manager salt=a then some msg else none
  | _ => none

/-- What the strategy tells itself when this message is delivered. -/
inductive Prompts (site : Site) (a : Addr) (p : Packet) (out : List Packet) : List StrategyExecuteMsg → Prop
  | call {msg : StrategyExecuteMsg} {next : List StrategyExecuteMsg} : p.calls a=some msg → site.creation a p=none →
      Follows out msg next → Prompts site a p out next
  | created {msg : StrategyInstantiateMsg} : p.calls a=none → site.creation a p=some msg → Prompts site a p out [.init msg.nodes]
  | other : p.calls a=none → site.creation a p=none → Prompts site a p out []

theorem creation_calls {msg : StrategyInstantiateMsg} (h : site.creation a p=some msg) : p.calls a=none := by
  unfold creation at h
  split at h
  · rename_i hm
    simp [Packet.calls,CosmosMsg.strategyCall,hm]
  · cases h

theorem creation_none {msg : StrategyExecuteMsg} (h : p.calls a=some msg) : site.creation a p=none :=
  Option.eq_none_iff_forall_ne_some.mpr fun _ hc => by rw [creation_calls hc] at h; cases h

theorem Delivers.prompts (hd : site.Delivers w p w' out) (ha : site.Strategy a) :
    site.Prompts a p out (out.filterMap (onward a)) := by
  cases hc : p.calls a with
  | some msg =>
    obtain ⟨_,_,_,_,_,_,_,_,rfl,he,_,rfl⟩ := hd.to_strategy ha hc
    exact .call hc (creation_none hc) (execute_follows he)
  | none =>
    have hquiet : (∀ q ∈ out, q.sender≠a) → site.creation a p=none → site.Prompts a p out (out.filterMap (onward a)) :=
      fun hq hn => by
        rw [onward_others hq]
        exact .other hc hn
    cases hd with
    | send hm _ => exact hquiet (by simp) (by simp [creation,hm])
    | deposit hm _ => exact hquiet (by simp) (by simp [creation,hm])
    | manager hm _ _ _ _ _ =>
      refine hquiet (fun q hq => ?_) (by simp [creation,hm])
      obtain ⟨_,_,rfl⟩ := List.mem_map.mp hq
      exact ha.1.symm
    | scheduler hm _ _ _ _ _ =>
      refine hquiet (fun q hq => ?_) (by simp [creation,hm])
      obtain ⟨_,_,rfl⟩ := List.mem_map.mp hq
      exact ha.2.1.symm
    | @strategy target _ _ _ _ _ _ _ _ _ hm _ _ hbody _ _ _ =>
      have hne : target≠a := fun he => by simp [Packet.calls,CosmosMsg.strategyCall,hm,he,hbody] at hc
      refine hquiet (fun q hq => ?_) (by simp [creation,hm])
      obtain ⟨_,_,rfl⟩ := List.mem_map.mp hq
      exact hne
    | @instantiate _ codeId _ salt msg _ env _ _ hm hsender _ henv _ _ _ hi =>
      obtain ⟨rfl,rfl⟩ := StrategyContract.instantiate_eq_ok hi
      by_cases hea : env.contract=a
      · subst hea
        have hcr : site.creation env.contract p=some msg := by simp [creation,hm,hsender,henv]
        have hled : ([callSelf env (.init msg.nodes)].map (Packet.mk env.contract)).filterMap (onward env.contract)=
            [.init msg.nodes] := by
          rw [List.map_singleton,List.filterMap_cons,onward_callSelf]
          rfl
        rw [hled]
        exact .created hc hcr
      · refine hquiet (fun q hq => ?_) ?_
        · obtain ⟨_,_,rfl⟩ := List.mem_map.mp hq
          exact hea
        · have hne : Crates.instantiate2Address codeId site.manager salt≠a := henv ▸ hea
          simp [creation,hm,hne]
    | outside hr ho _ hq =>
      refine hquiet (fun q hm he => ho.not_strategy ((hq q hm) ▸ he ▸ ha)) ?_
      refine Option.eq_none_iff_forall_ne_some.mpr fun msg hcr => ?_
      unfold creation at hcr
      split at hcr
      · split_ifs at hcr with hp
        rename_i hm
        rw [Packet.receiver,hm,hp.1] at hr
        exact ho.2.2 _ _ (Option.some.inj hr).symm
      · cases hcr

/-- The node list that the strategy tells itself to install. -/
def installed (a : Addr) (p : Packet) : Option (List Node) := (onward a p).bind StrategyExecuteMsg.installs

/-- The node list that the manager hands to the strategy. -/
def handed (site : Site) (a : Addr) (p : Packet) : Option (List Node) :=
  if p.sender=site.manager ∧ p.sub.replyOn=.never then
    match p.calls a with
    | some (.update nodes) => some nodes
    | _ => (site.creation a p).map StrategyInstantiateMsg.nodes
  else none

/-- The node list of an accepted call of the manager for the strategy. -/
def accepted (site : Site) (a : Addr) (e : Packet × List Packet) : Option (List Node) :=
  match site.toManager e.1 with
  | some (.update b nodes) => if b=a then some nodes else none
  | some (.instantiate _ _ _ _ nodes) => if e.2.any fun q => (site.creation a q).isSome then some nodes else none
  | _ => none

theorem handed_sender {nodes : List Node} (h : site.handed a p=some nodes) :
    p.sender=site.manager ∧ p.sub.replyOn=.never := by
  unfold handed at h
  split_ifs at h with hp
  exact hp

theorem handed_others (h : ∀ q ∈ out, q.sender≠site.manager) : out.filterMap (site.handed a)=[] :=
  List.filterMap_eq_nil_iff.mpr fun q hq => Option.eq_none_iff_forall_ne_some.mpr fun _ hn => h q hq (handed_sender hn).1

theorem handed_firm (site : Site) (a : Addr) : Dispatch.Firm site.machine (site.handed a) where
  begins h := Option.eq_none_iff_forall_ne_some.mpr fun _ hn => h.1 (handed_sender hn).1
  replies h := handed_others fun q hq => (Replies.senders h q hq).1
  catches {p} h := by
    refine Option.eq_none_iff_forall_ne_some.mpr fun _ hn => ?_
    have h : p.sub.replyOn.asks false=true := h
    rw [(handed_sender hn).2] at h
    cases h

/-- An accepted call of the manager hands on its node list. -/
theorem accepts_hands {deps : Deps} {env : Env} {storage storage' : ManagerStorage} {msg : ManagerExecuteMsg}
    {response : ManagerResponse} (hm : site.toManager p=some msg) (henv : env.contract=site.manager)
    (h : ManagerContract.Accepts deps env ⟨p.sender,p.funds⟩ storage msg storage' response) :
    (response.messages.map (Packet.mk site.manager)).filterMap (site.handed a)=
      (site.accepted a (p,response.messages.map (Packet.mk site.manager))).toList := by
  have hcall : ∀ {b m funds}, site.handed a ⟨site.manager,ManagerContract.callStrategy b m funds⟩=
      match (if b=a then some m else none : Option StrategyExecuteMsg) with
      | some (.update nodes) => some nodes
      | _ => none := fun {b m funds} => by
    rw [handed,if_pos ⟨rfl,rfl⟩]
    rfl
  have haccepted : ∀ {out}, site.accepted a (p,out)=match (some msg : Option ManagerExecuteMsg) with
      | some (.update b nodes) => if b=a then some nodes else none
      | some (.instantiate _ _ _ _ nodes) => if out.any fun q => (site.creation a q).isSome then some nodes else none
      | _ => none := fun {out} => by rw [accepted,hm]
  cases h with
  | @instantiate _ _ _ _ _ _ b _ _ salt _ _ _ _ _ _ _ hb =>
    rw [haccepted]
    simp only [List.map_singleton,List.any_cons,List.any_nil,Bool.or_false]
    by_cases hba : b=a
    · simp [handed,creation,henv ▸ hb.symm,hba,Packet.calls,CosmosMsg.strategyCall]
    · simp [handed,creation,henv ▸ hb.symm,hba,Packet.calls,CosmosMsg.strategyCall]
  | @execute b =>
    rw [haccepted,List.map_singleton,List.filterMap_cons,hcall]
    by_cases hba : b=a <;> simp [hba]
  | @update b =>
    rw [haccepted,List.map_singleton,List.filterMap_cons,hcall]
    by_cases hba : b=a <;> simp [hba]
  | @updateStatus b status =>
    rw [haccepted,List.map_singleton,List.filterMap_cons,hcall]
    by_cases hba : b=a <;> cases status <;> simp [hba,ManagerContract.statusMsg]
  | updateLabel => rw [haccepted]; rfl

theorem Housed.hands (h : site.Housed w ps) (hd : site.Delivers w p w' out) :
    out.filterMap (site.handed a)=(site.accepted a (p,out)).toList := by
  cases hm : site.toManager p with
  | none =>
    rw [handed_others (h.senders hd hm),accepted,hm]
    rfl
  | some msg =>
    obtain ⟨deps,env,storage,response,henv,he,_,rfl⟩ := h.to_manager hd hm
    exact accepts_hands hm henv he

/-- What the manager hands to a strategy is what the strategy tells itself to install. -/
theorem Housed.installs (h : site.Housed w (p :: ps)) (hd : site.Delivers w p w' out) (ha : site.Strategy a) :
    out.filterMap (installed a)=(site.handed a p).toList := by
  have hbind : out.filterMap (installed a)=(out.filterMap (onward a)).filterMap StrategyExecuteMsg.installs :=
    List.filterMap_filterMap.symm
  have hsilent : p.sender=site.manager → p.sender=site.manager ∧ p.sub.replyOn=.never := fun hs =>
    ⟨hs,h.silent p List.mem_cons_self hs⟩
  have hled := hd.prompts ha
  rw [hbind]
  generalize out.filterMap (onward a)=next at hled ⊢
  cases hled with
  | @call msg _ hc hn hf =>
    have hnone : (∀ nodes, msg≠.update nodes) → site.handed a p=none := fun hne => by
      unfold handed
      rw [hc,hn]
      cases msg with
      | update nodes => exact absurd rfl (hne nodes)
      | _ => exact ite_self none
    cases hf with
    | @update nodes =>
      obtain ⟨_,_,env,s,_,_,hs,_,henv,he,_,_⟩ := hd.to_strategy ha hc
      have hsender : p.sender=site.manager := (StrategyContract.execute_sends he).2.1.trans (h.home a s hs).2
      rw [handed,if_pos (hsilent hsender),hc]
      rfl
    | init => rw [hnone (by simp)]; rfl
    | execute => rw [hnone (by simp)]; rfl
    | withdraw => rw [hnone (by simp)]; rfl
    | cancel => rw [hnone (by simp)]; rfl
    | goOn _ => rw [hnone (by simp)]; rfl
    | finish _ => rw [hnone (by simp)]; rfl
  | created hc hcr =>
    have hsender : p.sender=site.manager := by
      unfold creation at hcr
      split at hcr
      · split_ifs at hcr with hp
        exact hp.1
      · cases hcr
    rw [handed,if_pos (hsilent hsender),hc,hcr]
    rfl
  | other hc hn =>
    rw [handed,hc,hn]
    simp

/-- When a transaction is over, every node list that the manager accepted for a strategy has been installed by it
once, after its check, and the strategy told itself to install no others. -/
theorem lists_installed_once {w₀ : World} (h₀ : site.Housed w₀ []) (ha : site.Strategy a)
    {history : Dispatch.History Packet}
    (h : Dispatch.Reachable site.machine.logging Dispatch.Conduct.any.recording (w₀,[]) ⟨(w,history),[]⟩) :
    (history.filterMap (site.accepted a)).Perm (history.delivered.filterMap (installed a)) ∧
    ∀ e ∈ history, ∀ nodes, installed a e.1=some nodes → ∃ deps env store store' affiliates,
      NodeStore.init deps env affiliates store nodes=.ok store' ∧ env.contract=a := by
  obtain ⟨_,hlog⟩ := h.logged (Housed.keeps site) (fun hw hb => hw.begins hb) h₀
  have hhanded : history.sent.filterMap (site.handed a)=history.flatMap fun e => (site.accepted a e).toList :=
    Dispatch.History.sent_filterMap fun e he => by
      obtain ⟨_,_,_,hw,hd⟩ := hlog e he
      exact hw.hands hd
  have hinstalled : history.sent.filterMap (installed a)=history.flatMap fun e => (site.handed a e.1).toList :=
    Dispatch.History.sent_filterMap fun e he => by
      obtain ⟨_,_,_,hw,hd⟩ := hlog e he
      exact hw.installs hd ha
  refine ⟨?_,fun e he nodes hn => ?_⟩
  · have hfirst := h.settled (handed_firm site a)
    have hsecond : (history.sent.filterMap (installed a)).Perm (history.delivered.filterMap (installed a)) :=
      h.settled ((onward_firm ha).bind StrategyExecuteMsg.installs)
    rw [hhanded,← List.filterMap_eq_flatMap_toList] at hfirst
    rw [hinstalled,← List.filterMap_eq_flatMap_toList] at hsecond
    rw [Dispatch.History.delivered,List.filterMap_map] at hfirst
    exact hfirst.trans hsecond
  · obtain ⟨_,_,_,_,hd⟩ := hlog e he
    obtain ⟨msg,ho,hm⟩ := Option.bind_eq_some_iff.mp hn
    cases msg with
    | init list =>
      obtain rfl := Option.some.inj hm
      obtain ⟨_,_,_,_,_,_,_,_,henv,hex,_,_⟩ := hd.to_strategy ha (onward_calls ho)
      obtain ⟨_,hd'⟩ := StrategyContract.execute_eq_ok hex
      cases hd' with
      | init _ hi => exact ⟨_,_,_,_,_,hi,henv⟩
    | _ => cases hm

/-- The run of the strategy that a message takes a step of. -/
def processed (a : Addr) (p : Packet) : Option StrategyOperation :=
  match p.calls a with
  | some (.process operation _) => some operation
  | _ => none

/-- The run that a message is the first step of. -/
def started (a : Addr) (p : Packet) : Option StrategyOperation :=
  if ((onward a p).bind StrategyExecuteMsg.resumes).isSome then none else processed a p

/-- The run that a delivery was the last step of: the walk came to its end, and there is nothing to send. -/
def ended (a : Addr) (e : Packet × List Packet) : Option StrategyOperation :=
  if e.2=[] then processed a e.1 else none

/-- The run that a delivery was a step of, but not the last. -/
def continued (a : Addr) (e : Packet × List Packet) : Option StrategyOperation :=
  if e.2=[] then none else processed a e.1

theorem processed_resumes {operation : StrategyOperation}
    (h : (onward a p).bind StrategyExecuteMsg.resumes=some operation) : processed a p=some operation := by
  obtain ⟨msg,ho,hr⟩ := Option.bind_eq_some_iff.mp h
  rw [processed,onward_calls ho]
  cases msg with
  | process operation' previous =>
    cases previous with
    | some _ => exact hr
    | none => cases hr
  | _ => cases hr

/-- Each step of a run is its first or goes on with it. -/
theorem processed_split : (processed a p).toList=
    (started a p).toList ++ ((onward a p).bind StrategyExecuteMsg.resumes).toList := by
  cases hr : (onward a p).bind StrategyExecuteMsg.resumes with
  | some operation => simp [started,hr,processed_resumes hr]
  | none => simp [started,hr]

theorem Prompts.opens {next : List StrategyExecuteMsg} (h : site.Prompts a p out next) :
    next.filterMap StrategyExecuteMsg.opens=(p.calls a).elim [] StrategyExecuteMsg.runs := by
  cases h with
  | call hc _ hf =>
    rw [hc]
    cases hf with
    | @goOn operation previous q _ => rfl
    | _ => rfl
  | created hc _ => rw [hc]; rfl
  | other hc _ => rw [hc]; rfl

theorem Prompts.resumes {next : List StrategyExecuteMsg} (h : site.Prompts a p out next) :
    next.filterMap StrategyExecuteMsg.resumes=(continued a (p,out)).toList := by
  cases h with
  | call hc _ hf =>
    cases hf with
    | goOn hne => simp [continued,processed,hc,hne,StrategyExecuteMsg.resumes]
    | finish he => simp [continued,he]
    | _ => simp [continued,processed,hc,StrategyExecuteMsg.resumes]
  | created hc _ => simp [continued,processed,hc,StrategyExecuteMsg.resumes]
  | other hc _ => simp [continued,processed,hc]

/-- When a transaction is over, every call of a strategy that asks for a run has led to its run once, and every run that
was started has come to the end of its walk. -/
theorem runs_end {w₀ : World} (ha : site.Strategy a) {history : Dispatch.History Packet}
    (h : Dispatch.Reachable site.machine.logging Dispatch.Conduct.any.recording (w₀,[]) ⟨(w,history),[]⟩) :
    (history.delivered.filterMap fun p => (onward a p).bind StrategyExecuteMsg.opens).Perm
      (history.delivered.flatMap fun p => (p.calls a).elim [] StrategyExecuteMsg.runs) ∧
    (history.filterMap fun e => started a e.1).Perm (history.filterMap (ended a)) := by
  have hled : ∀ e ∈ history, site.Prompts a e.1 e.2 (e.2.filterMap (onward a)) := fun e he => by
    obtain ⟨_,_,hd⟩ := h.deliveries e he
    exact Delivers.prompts hd ha
  have hsent : ∀ {g : StrategyExecuteMsg → Option StrategyOperation} {f : Packet × List Packet → List StrategyOperation},
      (∀ e ∈ history, (e.2.filterMap (onward a)).filterMap g=f e) →
      (history.flatMap f).Perm (history.delivered.filterMap fun p => (onward a p).bind g) := fun {g f} hf => by
    rw [← Dispatch.History.sent_filterMap fun e he => (List.filterMap_filterMap.symm.trans (hf e he) :
      (e.2.filterMap fun p => (onward a p).bind g)=f e)]
    exact h.settled ((onward_firm ha).bind g)
  refine ⟨?_,?_⟩
  · rw [Dispatch.History.delivered,List.flatMap_map]
    exact (hsent fun e he => (hled e he).opens).symm
  · have hcontinued := hsent fun e he => (hled e he).resumes
    rw [← List.filterMap_eq_flatMap_toList,Dispatch.History.delivered,List.filterMap_map] at hcontinued
    have hfirst : (history.filterMap fun e => processed a e.1).Perm ((history.filterMap fun e => started a e.1) ++
        history.filterMap fun e => (onward a e.1).bind StrategyExecuteMsg.resumes) :=
      Dispatch.History.filterMap_split fun e => processed_split ▸ .refl _
    have hlast : (history.filterMap fun e => processed a e.1).Perm (history.filterMap (ended a) ++
        history.filterMap (continued a)) := Dispatch.History.filterMap_split fun e => by
      by_cases he : e.2=[] <;> simp [ended,continued,he]
    exact (List.perm_append_right_iff _).mp (hfirst.symm.trans (hlast.trans (hcontinued.append_left _)))

end Site
end

namespace Site

attribute [local instance] Crates.plain

/-- A strategy that is created without nodes and then updated, with the history. -/
def chronicle : Option (World × Dispatch.History Packet) :=
  let scribe := (dawn fun _ => true).recording Dispatch.History.enter
  (scribe.transact 6 (wealthy Table.empty,[]) (asks (.instantiate none none "savings" [] []))).bind fun created =>
    scribe.transact 14 created (asks (.update "manager/21" [payOut]))

theorem chronicle_reachable {w : World} {history : Dispatch.History Packet} (h : chronicle=some (w,history)) :
    Dispatch.Reachable town.machine.logging Dispatch.Conduct.any.recording (wealthy Table.empty,[]) ⟨(w,history),[]⟩ := by
  have hsound : (dawn fun _ => true).Sound town.machine Dispatch.Conduct.any :=
    player_sound townsfolk_outside (fun _ => trivial) fun _ => trivial
  obtain ⟨created,h₁,h₂⟩ := Option.bind_eq_some_iff.mp h
  exact (hsound.recording _).transact ((hsound.recording _).transact .start (alice_outside _) h₁) (alice_outside _) h₂

theorem savings_strategy : town.Strategy "manager/21" := ⟨by decide,by decide,1,21,by decide⟩

theorem commands_carried_out_update : ∃ w history, chronicle=some (w,history) ∧
    history.delivered.filterMap town.asked=[⟨"manager/21",.update [payOut],[]⟩] ∧
    history.delivered.filterMap town.commanded=[⟨"manager/21",.update [payOut],[]⟩] := by
  have hrun : chronicle.map (fun c => c.2.delivered.filterMap town.asked)=
      some [⟨"manager/21",.update [payOut],[]⟩] := by decide +kernel
  obtain ⟨⟨w,history⟩,hc,hasked⟩ := Option.map_eq_some_iff.mp hrun
  have hperm := (commands_carried_out (Housed.vacant (fun _ => rfl) rfl) (chronicle_reachable hc)).1
  exact ⟨w,history,hc,hasked,List.perm_singleton.mp (hasked ▸ hperm).symm⟩

theorem lists_installed_once_update : ∃ w history, chronicle=some (w,history) ∧
    history.filterMap (town.accepted "manager/21")=[[],[payOut]] ∧
    (history.delivered.filterMap (installed "manager/21")).Perm [[],[payOut]] := by
  have hrun : chronicle.map (fun c => c.2.filterMap (town.accepted "manager/21"))=some [[],[payOut]] := by decide +kernel
  obtain ⟨⟨w,history⟩,hc,haccepted⟩ := Option.map_eq_some_iff.mp hrun
  have hperm := (lists_installed_once (Housed.vacant (fun _ => rfl) rfl) savings_strategy (chronicle_reachable hc)).1
  exact ⟨w,history,hc,haccepted,(haccepted ▸ hperm).symm⟩

/-- Three runs, of which the last one pays. -/
theorem runs_end_update : ∃ w history, chronicle=some (w,history) ∧
    (history.filterMap fun e => started "manager/21" e.1)=[.execute,.cancel,.execute] ∧
    (history.filterMap (ended "manager/21")).Perm [.execute,.cancel,.execute] := by
  have hrun : chronicle.map (fun c => c.2.filterMap fun e => started "manager/21" e.1)=
      some [.execute,.cancel,.execute] := by decide +kernel
  obtain ⟨⟨w,history⟩,hc,hstarted⟩ := Option.map_eq_some_iff.mp hrun
  have hperm := (runs_end savings_strategy (chronicle_reachable hc)).2
  exact ⟨w,history,hc,hstarted,(hstarted ▸ hperm).symm⟩

end Site
end CalcRs
