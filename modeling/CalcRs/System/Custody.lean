import CalcRs.System.Payees
import CalcRs.System.Registry
import CalcRs.System.Withdrawals

/-! Where the funds of a strategy may go. Its node lists come from its owner through the manager, or as the bytes of a
payment that an earlier list names; whom they name, and the affiliates, may be paid, and the owner may withdraw. -/
namespace CalcRs

/-- Everybody whom the stored nodes name is permitted. -/
structure Within (permits : Payee → Prop) (nodes : Table ℕ Node) : Prop where
  sane : Sane nodes
  named : ∀ k node, nodes.get? k=some node → ∀ payee ∈ node.payees, permits payee

namespace Within

variable {permits : Payee → Prop} {nodes : Table ℕ Node} {node node' : Node}

theorem empty : Within permits Table.empty := ⟨⟨by simp,by simp⟩,by simp⟩

theorem mono {permits' : Payee → Prop} (h : Within permits nodes) (hp : ∀ payee, permits payee → permits' payee) :
    Within permits' nodes := ⟨h.sane,fun k node hk payee hn => hp payee (h.named k node hk payee hn)⟩

theorem save (h : Within permits nodes) (hn : nodes.get? node.index=some node) (hw : node'.wiring=node.wiring)
    (hp : node'.payees ⊆ node.payees) : Within permits (NodeStore.save nodes node') := by
  refine ⟨NodeStore.sane_save h.sane hn hw,fun k n hk payee hmem => ?_⟩
  rw [NodeStore.get?_save] at hk
  split_ifs at hk with he
  · exact h.named _ node hn payee (hp (Option.some.inj hk ▸ hmem))
  · exact h.named k n hk payee hmem

end Within

section

variable [Crates]

namespace Within

variable {permits : Payee → Prop} {nodes : Table ℕ Node} {node node' : Node} {deps : Deps} {env : Env}

theorem run_pays {operation : StrategyOperation} {messages : List CosmosMsg}
    (h : StrategyContract.run operation node deps env=.ok (messages,node')) :
    (∀ m ∈ messages, ∃ payee ∈ node.payees, Pays env.contract m payee) ∧ node'.payees ⊆ node.payees := by
  cases operation with
  | execute => exact Node.execute_pays h
  | cancel => exact Node.cancel_pays h

/-- A `Process` call pays those whom the stored nodes name. -/
theorem process {gas : ℕ} {operation : StrategyOperation} {storage : StrategyStorage} {previous : Option ℕ}
    {r : StrategyContract.Processed} (hi : Within permits storage.nodes)
    (h : StrategyContract.process gas deps env storage operation previous=.ok r) : Within permits r.nodes ∧
      ∀ m ∈ r.progress.emitted, ∃ payee, permits payee ∧ Pays env.contract m payee := by
  have hends := (StrategyContract.process_invariant (I := Within permits) (fun _ h => h.sane)
    (fun nodes node node' hi hn hr => hi.save hn (StrategyContract.run_wiring hr) (run_pays hr).2) (fun _ => hi)
    (fun p node node' _ hk hc => ⟨hi.sane,hi.save (by rw [hi.sane.index p node hk]; exact hk) (Node.commit_wiring hc)
      (Node.commit_payees hc ▸ List.Subset.refl _)⟩) h).ends
  unfold StrategyContract.Ends at hends
  cases hp : r.progress with
  | messages i ms q =>
    simp only [hp] at hends
    obtain ⟨nodes,node,node',hwithin,hn,hidx,hr,_,he,_⟩ := hends
    refine ⟨he ▸ hwithin.save (hidx ▸ hn) (StrategyContract.run_wiring hr) (run_pays hr).2,fun m hm => ?_⟩
    obtain ⟨payee,hpayee,hpays⟩ := (run_pays hr).1 m hm
    exact ⟨payee,hwithin.named i node hn payee hpayee,hpays⟩
  | failed i e =>
    simp only [hp] at hends
    exact ⟨hends.1,by simp [StrategyContract.Progress.emitted]⟩
  | finished path =>
    simp only [hp] at hends
    exact ⟨hends,by simp [StrategyContract.Progress.emitted]⟩

theorem init {affiliates : List Affiliate} {store : Table ℕ Node} {list : List Node} (hi : Within permits nodes)
    (hl : ∀ node ∈ list, ∀ payee ∈ node.payees, permits payee)
    (ha : ∀ affiliate ∈ affiliates, permits (.account affiliate.address))
    (h : NodeStore.init deps env affiliates nodes list=.ok store) : Within permits store := by
  obtain ⟨inits,hinits,hg⟩ := NodeStore.init_eq_ok h
  refine ⟨StrategyContract.sane_init hi.sane hinits hg,fun k node hk payee hp => ?_⟩
  rw [hg] at hk
  split_ifs at hk with hlt
  · obtain ⟨hlt',rfl⟩ := List.getElem?_eq_some_iff.mp hk
    rcases Node.init_payees (hinits.init k hlt hlt') payee hp with hp | ⟨affiliate,hmem,rfl⟩
    · exact hl _ (List.getElem_mem hlt) payee hp
    · exact ha affiliate hmem
  · exact hi.named k node hk payee hp

end Within

/-- Whom a strategy may pay, given the node lists that the manager accepted for it. -/
inductive Granted (a : Addr) (affiliates : List Affiliate) (lists : List (List Node)) : Payee → Prop
  | fee {affiliate : Affiliate} : affiliate ∈ affiliates → Granted a affiliates lists (.account affiliate.address)
  | listed {nodes : List Node} {node : Node} {payee : Payee} : nodes ∈ lists → node ∈ nodes → payee ∈ node.payees →
      Granted a affiliates lists payee
  -- a payment to the strategy itself, of which the bytes install another list
  | carried {msg : Binary} {nodes : List Node} {node : Node} {payee : Payee} :
      Granted a affiliates lists (.contract a msg) → Crates.parseStrategy msg=some (.init nodes) → node ∈ nodes →
      payee ∈ node.payees → Granted a affiliates lists payee

/-- What a strategy may send: a call to itself, a withdrawal to its owner, or a payment that is granted. -/
inductive Entitled (a owner : Addr) (affiliates : List Affiliate) (lists : List (List Node)) : CosmosMsg → Prop
  | own {msg : StrategyExecuteMsg} : (∀ nodes, msg=.init nodes → nodes ∈ lists) →
      Entitled a owner affiliates lists (.wasmExecute a (.strategy msg) [])
  | owner {coins : List Coin} : Entitled a owner affiliates lists (.bankSend owner coins)
  | granted {message : CosmosMsg} {payee : Payee} : Granted a affiliates lists payee → Pays a message payee →
      Entitled a owner affiliates lists message

variable {a owner : Addr} {affiliates : List Affiliate} {lists lists' : List (List Node)}

theorem Granted.mono (hl : lists ⊆ lists') {payee : Payee} (h : Granted a affiliates lists payee) :
    Granted a affiliates lists' payee := by
  induction h with
  | fee hmem => exact .fee hmem
  | listed hn hnode hp => exact .listed (hl hn) hnode hp
  | carried _ hparse hnode hp ih => exact .carried ih hparse hnode hp

theorem Entitled.mono (hl : lists ⊆ lists') {message : CosmosMsg} (h : Entitled a owner affiliates lists message) :
    Entitled a owner affiliates lists' message := by
  cases h with
  | own hinit => exact .own fun nodes he => hl (hinit nodes he)
  | owner => exact .owner
  | granted hg hp => exact .granted (hg.mono hl) hp

/-- A node list that comes with an entitled call names only whom is granted. -/
theorem Entitled.init {message : CosmosMsg} (h : Entitled a owner affiliates lists message) {nodes : List Node}
    (hc : message.strategyCall a=some (.init nodes)) :
    ∀ node ∈ nodes, ∀ payee ∈ node.payees, Granted a affiliates lists payee := by
  intro node hn payee hp
  cases h with
  | own hinit =>
    simp only [CosmosMsg.strategyCall,if_pos,Body.toStrategy,Option.some.injEq] at hc
    exact .listed (hinit nodes hc) hn hp
  | owner => cases hc
  | granted hg hpays =>
    obtain ⟨msg,rfl,hparse⟩ := hpays.strategyCall hc
    exact .carried hg hparse hn hp

namespace StrategyContract

variable {gas : ℕ} {deps : Deps} {env : Env} {info : MessageInfo} {s s' : StrategyStorage} {msg : StrategyExecuteMsg}
  {response : StrategyResponse}

/-- A withdrawal pays the owner and the affiliates. -/
theorem withdraw_entitled (a : Addr) (lists : List (List Node)) {amounts : List Coin} (h : withdraw deps env s amounts=.ok (s',response)) :
    ∀ sub ∈ response.messages, Entitled a s.owner s.affiliates lists sub.msg := by
  intro sub hs
  obtain ⟨_,rfl,_⟩ | ⟨_,fees,final,_,_,_,hshares,_,_,rfl⟩ := withdraw_eq_ok h
  · cases hs
  · obtain ⟨⟨fees',rfl,_⟩,_⟩ := shares_adds hshares
    rcases List.mem_cons.mp hs with rfl | hs
    · exact .owner
    · obtain ⟨entry,hentry,rfl⟩ := List.mem_map.mp hs
      obtain ⟨affiliate,hmem,rfl⟩ := List.mem_map.mp (List.mem_of_mem_filter hentry)
      exact .granted (.fee hmem) .account

/-- A call of a strategy stores and sends only what is granted, if the list that comes with it names nobody else. -/
theorem execute_entitled (h : execute gas deps env info s msg=.ok (s',response))
    (hw : Within (Granted env.contract s.affiliates lists) s.nodes)
    (hinit : ∀ nodes, msg=.init nodes → ∀ node ∈ nodes, ∀ payee ∈ node.payees, Granted env.contract s.affiliates lists payee)
    (hupdate : ∀ nodes, msg=.update nodes → nodes ∈ lists) :
    Within (Granted env.contract s.affiliates lists) s'.nodes ∧
      ∀ sub ∈ response.messages, Entitled env.contract s.owner s.affiliates lists sub.msg := by
  have hself : ∀ operation previous, Entitled env.contract s.owner s.affiliates lists
      (callSelf env (.process operation previous)).msg := fun _ _ => .own fun _ he => by cases he
  obtain ⟨deposits,h⟩ := execute_eq_ok h
  cases h with
  | init _ hi =>
    refine ⟨hw.init (hinit _ rfl) (fun affiliate hmem => .fee hmem) hi,fun sub hs => ?_⟩
    exact List.mem_singleton.mp hs ▸ hself _ _
  | execute _ => exact ⟨hw,fun sub hs => List.mem_singleton.mp hs ▸ hself _ _⟩
  | update _ =>
    refine ⟨hw,fun sub hs => ?_⟩
    rcases List.mem_cons.mp hs with rfl | hs
    · exact hself _ _
    · rw [List.mem_singleton.mp hs]
      exact .own fun nodes he => by cases he; exact hupdate _ rfl
  | withdraw _ hwithdraw =>
    have hentitled := withdraw_entitled env.contract lists hwithdraw
    obtain ⟨_,rfl⟩ := withdraw_keeps hwithdraw
    exact ⟨hw,hentitled⟩
  | cancel _ => exact ⟨hw,fun sub hs => List.mem_singleton.mp hs ▸ hself _ _⟩
  | process _ hp =>
    obtain ⟨hwithin,hpays⟩ := hw.process hp
    refine ⟨hwithin,fun sub hs => ?_⟩
    rcases mem_processResponse hs with ⟨m,hm,i,rfl⟩ | ⟨q,rfl⟩
    · obtain ⟨payee,hg,hpay⟩ := hpays m hm
      exact .granted hg hpay
    · exact hself _ _

end StrategyContract

namespace Site

variable {site : Site} {w w' : World} {p : Packet} {out ps : List Packet} {history : Dispatch.History Packet}

/-- A strategy of the world after a delivery was there before, was called, or was created. -/
theorem Delivers.origin (hd : site.Delivers w p w' out) (ha : site.Strategy a) {s' : StrategyStorage}
    (hs : w'.strategies a=some s') :
    (w.strategies a=some s' ∧ ∀ q ∈ out, q.sender≠a) ∨
    (∃ gas deps env s msg response, w.strategies a=some s ∧ p.calls a=some msg ∧ env.contract=a ∧
      StrategyContract.execute gas deps env ⟨p.sender,p.funds⟩ s msg=.ok (s',response) ∧
      out=response.messages.map (Packet.mk a)) ∨
    ∃ msg, w.strategies a=none ∧ p.sender=site.manager ∧ site.creation a p=some msg ∧
      s'=⟨p.sender,msg.owner,msg.affiliates,[],[],Table.empty,none⟩ ∧
      out=[⟨a,⟨.wasmExecute a (.strategy (.init msg.nodes)) [],.never,0⟩⟩] := by
  cases hd with
  | send _ _ => exact .inl ⟨hs,by simp⟩
  | deposit _ _ => exact .inl ⟨hs,by simp⟩
  | manager _ _ _ _ _ _ =>
    refine .inl ⟨hs,fun q hq => ?_⟩
    obtain ⟨_,_,rfl⟩ := List.mem_map.mp hq
    exact ha.1.symm
  | scheduler _ _ _ _ _ _ =>
    refine .inl ⟨hs,fun q hq => ?_⟩
    obtain ⟨_,_,rfl⟩ := List.mem_map.mp hq
    exact ha.2.1.symm
  | @strategy target body funds msg _ _ _ _ _ _ hmsg _ hold hbody _ henv he =>
    by_cases hat : a=target
    · subst hat
      obtain rfl : _=s' := by simpa only [Function.update_self,Option.some.injEq] using hs
      have hfunds : p.funds=funds := by simp [Packet.funds,hmsg,CosmosMsg.funds]
      exact .inr (.inl ⟨_,_,_,_,msg,_,hold,by simp [Packet.calls,CosmosMsg.strategyCall,hmsg,hbody],henv,hfunds ▸ he,rfl⟩)
    · simp only [Function.update_of_ne hat] at hs
      refine .inl ⟨hs,fun q hq => ?_⟩
      obtain ⟨_,_,rfl⟩ := List.mem_map.mp hq
      exact Ne.symm hat
  | @instantiate _ codeId _ salt msg _ env _ _ hmsg hsender _ henv _ _ hfree hi =>
    obtain ⟨rfl,rfl⟩ := StrategyContract.instantiate_eq_ok hi
    by_cases hat : a=env.contract
    · subst hat
      obtain rfl : _=s' := by simpa only [Function.update_self,Option.some.injEq] using hs
      exact .inr (.inr ⟨msg,hfree,hsender,by simp [creation,hmsg,hsender,henv],rfl,rfl⟩)
    · simp only [Function.update_of_ne hat] at hs
      refine .inl ⟨hs,fun q hq => ?_⟩
      obtain ⟨_,_,rfl⟩ := List.mem_map.mp hq
      exact Ne.symm hat
  | outside _ ho _ hq => exact .inl ⟨hs,fun q hm he => ho.not_strategy ((hq q hm) ▸ he ▸ ha)⟩

theorem Delivers.sender_stored (hd : site.Delivers w p w' out) (ha : site.Strategy a) {q : Packet} (hq : q ∈ out)
    (hsender : q.sender=a) : ∃ s', w'.strategies a=some s' := by
  cases hd with
  | send _ _ => cases hq
  | deposit _ _ => cases hq
  | manager _ _ _ _ _ _ =>
    obtain ⟨_,_,rfl⟩ := List.mem_map.mp hq
    exact absurd hsender.symm ha.1
  | scheduler _ _ _ _ _ _ =>
    obtain ⟨_,_,rfl⟩ := List.mem_map.mp hq
    exact absurd hsender.symm ha.2.1
  | strategy _ _ _ _ _ _ _ =>
    obtain ⟨_,_,rfl⟩ := List.mem_map.mp hq
    obtain rfl : _=a := hsender
    exact ⟨_,Function.update_self ..⟩
  | instantiate _ _ _ _ _ _ _ _ =>
    obtain ⟨_,_,rfl⟩ := List.mem_map.mp hq
    obtain rfl : _=a := hsender
    exact ⟨_,Function.update_self ..⟩
  | outside _ ho _ hall =>
    rw [hall q hq] at hsender
    exact absurd (hsender ▸ ha) ho.not_strategy

/-- Strategies stay, with their owners and their affiliates. -/
theorem Delivers.remains (hd : site.Delivers w p w' out) {s : StrategyStorage} (hs : w.strategies a=some s) :
    ∃ s', w'.strategies a=some s' ∧ s'.owner=s.owner ∧ s'.affiliates=s.affiliates := by
  cases hd with
  | @strategy target _ _ _ _ _ _ _ _ _ _ _ hold _ _ _ he =>
    by_cases hat : a=target
    · subst hat
      obtain rfl := Option.some.inj (hs.symm.trans hold)
      exact ⟨_,Function.update_self ..,(StrategyContract.execute_keeps he).2⟩
    · exact ⟨s,by simp only [Function.update_of_ne hat,hs],rfl,rfl⟩
  | @instantiate _ _ _ _ _ _ env _ _ _ _ _ _ _ _ hnone _ =>
    have hat : a≠env.contract := fun he => by
      rw [he,hnone] at hs
      cases hs
    exact ⟨s,by simp only [Function.update_of_ne hat,hs],rfl,rfl⟩
  | _ => exact ⟨s,hs,rfl,rfl⟩

/-- The node lists that the manager accepted for a strategy. -/
def acceptedLists (site : Site) (a : Addr) (history : Dispatch.History Packet) : List (List Node) :=
  history.filterMap (site.accepted a)

theorem acceptedLists_append : site.acceptedLists a (history ++ [(p,out)])=site.acceptedLists a history ++ (site.accepted a (p,out)).toList := by
  rw [acceptedLists,List.filterMap_append]
  cases h : site.accepted a (p,out) <;> simp [h,acceptedLists]

/-- What the strategies store and what they send is granted, and so are the lists that the manager hands them. -/
structure Custody (site : Site) (w : World × Dispatch.History Packet) (ps : List Packet) : Prop where
  housed : site.Housed w.1 ps
  stores : ∀ a s, w.1.strategies a=some s → Within (Granted a s.affiliates (site.acceptedLists a w.2)) s.nodes
  handed : ∀ a, ∀ p ∈ ps, ∀ nodes, site.handed a p=some nodes → nodes ∈ site.acceptedLists a w.2
  entitled : ∀ a, site.Strategy a → ∀ p ∈ ps, p.sender=a → ∃ s, w.1.strategies a=some s ∧
    Entitled a s.owner s.affiliates (site.acceptedLists a w.2) p.sub.msg

/-- A strategy that is called is in order before and after, and what it sends is entitled. -/
theorem Custody.called (h : site.Custody (w,history) (p :: ps)) (ha : site.Strategy a) {gas : ℕ} {deps : Deps} {env : Env}
    {s s' : StrategyStorage} {msg : StrategyExecuteMsg} {response : StrategyResponse} (hs : w.strategies a=some s)
    (hc : p.calls a=some msg) (henv : env.contract=a)
    (he : StrategyContract.execute gas deps env ⟨p.sender,p.funds⟩ s msg=.ok (s',response)) :
    Within (Granted a s.affiliates (site.acceptedLists a history)) s'.nodes ∧
      ∀ sub ∈ response.messages, Entitled a s.owner s.affiliates (site.acceptedLists a history) sub.msg := by
  have hsends := (StrategyContract.execute_sends he).2
  subst henv
  refine StrategyContract.execute_entitled he (h.stores _ s hs) (fun nodes hm => ?_) fun nodes hm => ?_
  · subst hm
    obtain ⟨t,ht,hentitled⟩ := h.entitled _ ha p List.mem_cons_self hsends.1
    obtain rfl := Option.some.inj (hs.symm.trans ht)
    exact hentitled.init hc
  · subst hm
    have hsender : p.sender=site.manager := hsends.1.trans (h.housed.home _ s hs).2
    refine h.handed _ p List.mem_cons_self nodes ?_
    rw [Site.handed,if_pos ⟨hsender,h.housed.silent p List.mem_cons_self hsender⟩,hc]

/-- What goes out under the address of a strategy is entitled: what a call of it sends, and the list that its creation
installs. -/
theorem Custody.sends (h : site.Custody (w,history) (p :: ps)) (hd : site.Delivers w p w' out) (ha : site.Strategy a)
    {q : Packet} (hq : q ∈ out) (hsender : q.sender=a) : ∃ s', w'.strategies a=some s' ∧
      Entitled a s'.owner s'.affiliates (site.acceptedLists a history) q.sub.msg := by
  obtain ⟨s',hs'⟩ := hd.sender_stored ha hq hsender
  refine ⟨s',hs',?_⟩
  rcases hd.origin ha hs' with ⟨_,hquiet⟩ | ⟨_,_,_,s,_,_,hs,hc,henv,he,rfl⟩ | ⟨msg,_,hman,hcr,rfl,rfl⟩
  · exact absurd hsender (hquiet q hq)
  · obtain ⟨sub,hsub,rfl⟩ := List.mem_map.mp hq
    obtain ⟨_,howner,haff⟩ := StrategyContract.execute_keeps he
    exact howner ▸ haff ▸ (h.called ha hs hc henv he).2 sub hsub
  · rw [List.mem_singleton.mp hq]
    refine .own fun nodes hm => ?_
    cases hm
    refine h.handed a p List.mem_cons_self msg.nodes ?_
    rw [Site.handed,if_pos ⟨hman,h.housed.silent p List.mem_cons_self hman⟩,creation_calls hcr,hcr]
    rfl

theorem Custody.call (h : site.Custody (w,history) (p :: ps)) (hd : site.Delivers w p w' out) :
    site.Custody (w',history ++ [(p,out)]) (out ++ ps) := by
  have hhoused := (Housed.keeps site).call h.housed trivial hd
  have hlists : ∀ a, site.acceptedLists a history ⊆ site.acceptedLists a (history ++ [(p,out)]) := fun a => by
    rw [acceptedLists_append]
    exact List.subset_append_left _ _
  refine ⟨hhoused,fun a s' hs' => ?_,fun a q hq nodes hn => ?_,fun a ha q hq hsender => ?_⟩
  · have ha := (hhoused.home a s' hs').1
    rcases hd.origin ha hs' with ⟨hs,_⟩ | ⟨_,_,_,s,_,_,hs,hc,henv,he,_⟩ | ⟨msg,_,_,_,rfl,_⟩
    · exact (h.stores a s' hs).mono fun _ hg => hg.mono (hlists a)
    · have hstored := (h.called ha hs hc henv he).1
      rw [(StrategyContract.execute_keeps he).2.2]
      exact hstored.mono fun _ hg => hg.mono (hlists a)
    · exact Within.empty
  · rcases List.mem_append.mp hq with hq | hq
    · have hmem : nodes ∈ (site.accepted a (p,out)).toList :=
        h.housed.hands (a := a) hd ▸ List.mem_filterMap.mpr ⟨q,hq,hn⟩
      rw [acceptedLists_append]
      exact List.mem_append_right _ hmem
    · exact hlists a (h.handed a q (List.mem_cons_of_mem _ hq) nodes hn)
  · rcases List.mem_append.mp hq with hq | hq
    · obtain ⟨s',hs',hentitled⟩ := h.sends hd ha hq hsender
      exact ⟨s',hs',hentitled.mono (hlists a)⟩
    · obtain ⟨s,hs,hentitled⟩ := h.entitled a ha q (List.mem_cons_of_mem _ hq) hsender
      obtain ⟨s',hs',howner,haff⟩ := hd.remains hs
      exact ⟨s',hs',howner ▸ haff ▸ hentitled.mono (hlists a)⟩

theorem Custody.keeps (site : Site) : Dispatch.Keeps site.machine.logging Dispatch.Conduct.any.recording (Custody site) where
  call := by
    rintro ⟨w,history⟩ ⟨w',history'⟩ p ps out h _ ⟨hd,hrecord⟩
    obtain rfl : history'=history ++ [(p,out)] := hrecord
    exact h.call hd
  reply {w p ok ps out} h hr := by
    have houtside := Replies.senders hr
    refine ⟨(Housed.keeps site).reply h.housed hr,h.stores,fun a q hq nodes hn => ?_,fun a ha q hq hsender => ?_⟩
    · rcases List.mem_append.mp hq with hq | hq
      · exact absurd (handed_sender hn).1 (houtside q hq).1
      · exact h.handed a q hq nodes hn
    · rcases List.mem_append.mp hq with hq | hq
      · exact absurd (hsender ▸ ha) (houtside q hq).not_strategy
      · exact h.entitled a ha q hq hsender
  drop h hc hf := ⟨(Housed.keeps site).drop h.housed hc hf,h.stores,
    fun a q hq => h.handed a q (List.mem_cons_of_mem _ hq),fun a ha q hq => h.entitled a ha q (List.mem_cons_of_mem _ hq)⟩

theorem Custody.begins (h : site.Custody (w,history) []) (ho : site.Outside p.sender) : site.Custody (w,history) [p] := by
  refine ⟨h.housed.begins ho,h.stores,fun a q hq nodes hn => ?_,fun a ha q hq hsender => ?_⟩
  · rw [List.mem_singleton.mp hq] at hn
    exact absurd (handed_sender hn).1 ho.1
  · rw [List.mem_singleton.mp hq] at hsender
    exact absurd (hsender ▸ ha) ho.not_strategy

theorem Custody.vacant (h : w.Vacant) : site.Custody (w,[]) [] :=
  ⟨Housed.vacant h.strategies h.registry,fun a s hs => absurd ((h.strategies a).symm.trans hs) (by simp),by simp,by simp⟩

/-- In every run, whatever a strategy sends is a call to itself, a withdrawal to its owner, or a payment to an affiliate or
to somebody whom a node list names that the manager had accepted for it by then: in every call of it, and in every delivery
from which a message goes out under the address of a strategy, its creation included. -/
theorem payments_granted {w₀ : World} (h₀ : w₀.Vacant) {w' : World × Dispatch.History Packet}
    (h : Dispatch.Delivery site.machine.logging Dispatch.Conduct.any.recording (w₀,[]) (w,history) p w' out) :
    (∀ a s msg, w.strategies a=some s → p.calls a=some msg →
      ∀ q ∈ out, q.sender=a ∧ Entitled a s.owner s.affiliates (site.acceptedLists a history) q.sub.msg) ∧
    ∀ q ∈ out, site.Strategy q.sender → ∃ s', w'.1.strategies q.sender=some s' ∧
      Entitled q.sender s'.owner s'.affiliates (site.acceptedLists q.sender history) q.sub.msg := by
  obtain ⟨ps,hcustody,hd,_⟩ := h.holds (Custody.keeps site) (fun {w p} hw hb => Custody.begins hw hb) (Custody.vacant h₀)
  refine ⟨fun a s msg hs hc q hq => ?_,fun q hq ha => hcustody.sends hd ha hq rfl⟩
  have ha := (hcustody.housed.home a s hs).1
  obtain ⟨_,_,_,t,_,_,ht,_,henv,he,_,rfl⟩ := Delivers.to_strategy hd ha hc
  obtain rfl := Option.some.inj (hs.symm.trans ht)
  obtain ⟨sub,hsub,rfl⟩ := List.mem_map.mp hq
  exact ⟨rfl,(hcustody.called ha hs hc henv he).2 sub hsub⟩

/-! ### The author of a list -/

/-- Who answers for a node list: the owner who is named at the creation, or the sender of the update. -/
def author (site : Site) (e : Packet × List Packet) : Addr :=
  match site.toManager e.1 with
  | some (.instantiate _ owner _ _ _) => owner.getD e.1.sender
  | _ => e.1.sender

theorem accepted_cases {e : Packet × List Packet} {nodes : List Node} (h : site.accepted a e=some nodes) :
    site.toManager e.1=some (.update a nodes) ∨ (∃ source owner label affiliates,
      site.toManager e.1=some (.instantiate source owner label affiliates nodes)) ∧
      (e.2.any fun q => (site.creation a q).isSome)=true := by
  unfold accepted at h
  split at h
  · split_ifs at h with hb
    cases h
    exact .inl (hb ▸ by assumption)
  · split_ifs at h with hany
    cases h
    exact .inr ⟨⟨_,_,_,_,by assumption⟩,hany⟩
  · cases h

/-- A list is accepted for a strategy that is registered, or that claims its address just then. -/
theorem Housed.accepted_claimed (h : site.Housed w (p :: ps)) (hd : site.Delivers w p w' out) {nodes : List Node}
    (hacc : site.accepted a (p,out)=some nodes) :
    (w.manager.strategies.get? a).isSome ∨ 1 ≤ (site.claim a (p,out)).length := by
  rcases accepted_cases hacc with hm | ⟨⟨_,_,_,_,hm⟩,hany⟩
  · have hpermitted := (h.replayed (a := a) hd).2
    rw [permitted,hm] at hpermitted
    obtain ⟨_,hs,_⟩ := hpermitted rfl
    obtain ⟨_,hg,_⟩ := Option.map_eq_some_iff.mp hs
    exact .inl (by rw [hg]; rfl)
  · obtain ⟨q,hq,hc⟩ := List.any_eq_true.mp hany
    obtain ⟨msg,hmsg⟩ := Option.isSome_iff_exists.mp hc
    rw [claim,hm]
    exact .inr (List.length_pos_of_mem (List.mem_filterMap.mpr ⟨q,hq,by rw [founds,hmsg]; rfl⟩))

/-- It is accepted from the owner. -/
theorem Housed.accepted_author (h : site.Housed w (p :: ps)) (hd : site.Delivers w p w' out) {nodes : List Node}
    (hacc : site.accepted a (p,out)=some nodes) {strategy : CalcRs.Strategy}
    (hg : w'.manager.strategies.get? a=some strategy) : site.author (p,out)=strategy.owner := by
  obtain ⟨hreplay,hpermitted⟩ := h.replayed (a := a) hd
  rw [hg,Option.map_some] at hreplay
  rcases accepted_cases hacc with hm | ⟨⟨_,_,_,_,hm⟩,hany⟩
  · rw [permitted,hm] at hpermitted
    obtain ⟨s,hs,howner⟩ := hpermitted rfl
    rw [hs,replay,hm] at hreplay
    rw [author,hm]
    exact howner.symm.trans (congrArg Standing.owner (Option.some.inj hreplay)).symm
  · rw [replay,hm] at hreplay
    simp only [hany,if_true] at hreplay
    rw [author,hm]
    exact (congrArg Standing.owner (Option.some.inj hreplay)).symm

/-- The lists of an address that is claimed once come from the owner of the strategy there. -/
structure Authored (site : Site) (w : World × Dispatch.History Packet) (ps : List Packet) : Prop where
  enrolled : site.Enrolled w.1 ps
  claimed : ∀ a, ∀ e ∈ w.2, ∀ nodes, site.accepted a e=some nodes → 1 ≤ (site.claimants w.1 ps a).length
  authored : ∀ a strategy, w.1.manager.strategies.get? a=some strategy → (site.claimants w.1 ps a).length=1 →
    ∀ e ∈ w.2, ∀ nodes, site.accepted a e=some nodes → site.author e=strategy.owner

theorem Authored.perm {w : World × Dispatch.History Packet} {qs : List Packet} (h : site.Authored w ps)
    (he : site.Enrolled w.1 qs) (hp : ∀ a, (site.claimants w.1 qs a).Perm (site.claimants w.1 ps a)) :
    site.Authored w qs :=
  ⟨he,fun a e hmem nodes hacc => (hp a).length_eq ▸ h.claimed a e hmem nodes hacc,
    fun a strategy hg hone => h.authored a strategy hg ((hp a).length_eq ▸ hone)⟩

theorem Authored.call (h : site.Authored (w,history) (p :: ps)) (hd : site.Delivers w p w' out) :
    site.Authored (w',history ++ [(p,out)]) (out ++ ps) := by
  have hclaims := fun a => (h.enrolled.housed.claims (a := a) hd).length_eq
  simp only [List.length_append] at hclaims
  refine ⟨(Enrolled.keeps site).call h.enrolled trivial hd,fun a e he nodes hacc => ?_,
    fun a strategy hg hone e he nodes hacc => ?_⟩
  · have hsum := hclaims a
    change 1 ≤ (site.claimants w' (out ++ ps) a).length
    rcases List.mem_append.mp he with he | he
    · have := h.claimed a e he nodes hacc
      change 1 ≤ (site.claimants w (p :: ps) a).length at this
      omega
    · obtain rfl := List.mem_singleton.mp he
      rcases h.enrolled.housed.accepted_claimed hd hacc with hsome | hclaim
      · have := List.length_pos_iff.mpr ((h.enrolled.roll.claimed a).mp (by rwa [Option.isSome_map]))
        change 0<(site.claimants w (p :: ps) a).length at this
        omega
      · omega
  · rcases List.mem_append.mp he with he | he
    · have hold := h.claimed a e he nodes hacc
      change 1 ≤ (site.claimants w (p :: ps) a).length at hold
      change (site.claimants w' (out ++ ps) a).length=1 at hone
      have hsum := hclaims a
      -- the address was claimed before, so this call claims another one or none
      have hentries : (w'.manager.strategies.get? a).map Strategy.identity=
          (w.manager.strategies.get? a).map Strategy.identity := by
        rcases h.enrolled.housed.enters hd with ⟨b,i,_,_,_,hentries,hclaim⟩ | ⟨_,hentries,_⟩
        · have hab : a≠b := fun hab => by
            rw [hclaim,if_pos hab,List.length_singleton] at hsum
            omega
          have := congrFun hentries a
          rwa [Function.update_of_ne hab] at this
        · exact congrFun hentries a
      change w'.manager.strategies.get? a=some strategy at hg
      rw [hg,Option.map_some] at hentries
      obtain ⟨before,hbefore,hid⟩ := Option.map_eq_some_iff.mp hentries.symm
      have hauthor := h.authored a before hbefore (by change (site.claimants w (p :: ps) a).length=1; omega) e he nodes hacc
      exact hauthor.trans (congrArg Identity.owner hid)
    · obtain rfl := List.mem_singleton.mp he
      exact h.enrolled.housed.accepted_author hd hacc hg

theorem Authored.keeps (site : Site) : Dispatch.Keeps site.machine.logging Dispatch.Conduct.any.recording (Authored site) where
  call := by
    rintro ⟨w,history⟩ ⟨w',history'⟩ p ps out h _ ⟨hd,hrecord⟩
    obtain rfl : history'=history ++ [(p,out)] := hrecord
    exact h.call hd
  reply {w p ok ps out} h hr := h.perm ((Enrolled.keeps site).reply h.enrolled hr) fun a => by
    rw [claimants_append,founds_others fun q hq => (Replies.senders hr q hq).1]
    exact .refl _
  drop {w p ps} h hc hf := h.perm ((Enrolled.keeps site).drop h.enrolled hc hf) fun a => by
    rw [claimants_cons,founds_silent h.enrolled.housed hc]
    exact .refl _

/-- Between transactions every node list that was accepted for a strategy came from its owner: by an update, or by the
creation that names the owner. -/
theorem lists_from_owner {w₀ : World} (h₀ : w₀.Vacant)
    (h : Dispatch.Reachable site.machine.logging Dispatch.Conduct.any.recording (w₀,[]) ⟨(w,history),[]⟩)
    {s : StrategyStorage} (hs : w.strategies a=some s) {e : Packet × List Packet} (he : e ∈ history) {nodes : List Node}
    (hacc : site.accepted a e=some nodes) : site.author e=s.owner := by
  have hbegin : ∀ {w p}, site.Authored w [] → site.machine.logging.begins w p → site.Authored w [p] := fun {w p} hw hb =>
    hw.perm (hw.enrolled.begins hb) fun a => by
      rw [claimants_cons,Option.eq_none_iff_forall_ne_some.mpr fun _ hf => hb.1 (founds_sender hf)]
      exact .refl _
  have hauthored := (h.holds (Authored.keeps site) hbegin ⟨Enrolled.vacant h₀,by simp,by simp⟩).1.now
  have hone : (site.claimants w [] a).length=1 := by
    rw [claimants_settled,hs]
    rfl
  have hsome := (hauthored.enrolled.roll.claimed a).mpr (List.length_pos_iff.mp (hone ▸ Nat.one_pos))
  rw [Option.isSome_map] at hsome
  obtain ⟨strategy,hg⟩ := Option.isSome_iff_exists.mp hsome
  have howner := hauthored.enrolled.roll.owned a strategy.identity (by rw [hg,Option.map_some]) s.owner (by
    change site.claimants w [] a=[s.owner]
    rw [claimants_settled,hs]
    rfl)
  exact (hauthored.authored a strategy hg hone e he nodes hacc).trans howner.symm

end Site

end

namespace Site

attribute [local instance] Crates.plain

/-- The creation of a strategy that pays a saver and the fees, after so many of the messages that follow from it. -/
def payingRun (messages : ℕ) : Option (Dispatch.Config (World × Dispatch.History Packet) Packet) :=
  (((dawn fun _ => true).recording Dispatch.History.enter).start (wealthy Table.empty,[])
    (asks (.instantiate none none "savings" [] [payOut]))).bind
      (((dawn fun _ => true).recording Dispatch.History.enter).play messages)

/-- The strategy hands itself the list that was accepted when it is created, and pays out when it is executed. -/
theorem payments_granted_saver :
    (∃ w history p w' out, Dispatch.Delivery town.machine.logging Dispatch.Conduct.any.recording (wealthy Table.empty,[])
        (w,history) p w' out ∧ town.acceptedLists "manager/21" history=[[payOut]] ∧
      out=[⟨"manager/21",⟨.wasmExecute "manager/21" (.strategy (.init [payOut])) [],.never,0⟩⟩] ∧
      ∃ s', w'.1.strategies "manager/21"=some s' ∧ Entitled "manager/21" s'.owner s'.affiliates [[payOut]]
        (.wasmExecute "manager/21" (.strategy (.init [payOut])) [])) ∧
    ∃ w history p w' out, Dispatch.Delivery town.machine.logging Dispatch.Conduct.any.recording (wealthy Table.empty,[])
        (w,history) p w' out ∧ town.acceptedLists "manager/21" history=[[payOut]] ∧
      ∃ s, w.strategies "manager/21"=some s ∧
      out.map (fun q => q.sub.msg)=[.bankSend "saver" [⟨99,"rune"⟩],.bankSend "fees" [⟨1,"rune"⟩],
        .wasmExecute "manager/21" (.strategy (.process .execute (some 0))) []] ∧
      ∀ q ∈ out, Entitled "manager/21" s.owner s.affiliates (town.acceptedLists "manager/21" history) q.sub.msg := by
  have hsound : ((dawn fun _ => true).recording Dispatch.History.enter).Sound town.machine.logging
      Dispatch.Conduct.any.recording :=
    (player_sound townsfolk_outside (fun _ => trivial) fun _ => trivial).recording _
  have hreaches : ∀ {n c p w' out}, payingRun n=some c →
      ((dawn fun _ => true).recording Dispatch.History.enter).next c=some (p,w',out) →
      Dispatch.Delivery town.machine.logging Dispatch.Conduct.any.recording (wealthy Table.empty,[]) c.world p w' out :=
    fun {n c p w' out} hc hnext => by
      unfold payingRun at hc
      obtain ⟨started,h₁,h₂⟩ := Option.bind_eq_some_iff.mp hc
      exact hsound.next (hsound.reaches (hsound.start .start (alice_outside _) h₁) h₂) hnext
  have hcreated : ((payingRun 0).bind fun c => (((dawn fun _ => true).recording Dispatch.History.enter).next c).map fun r =>
      (town.acceptedLists "manager/21" c.world.2,r.2.2))=some ([[payOut]],
      [⟨"manager/21",⟨.wasmExecute "manager/21" (.strategy (.init [payOut])) [],.never,0⟩⟩]) := by decide +kernel
  have hpaid : ((payingRun 2).bind fun c => (((dawn fun _ => true).recording Dispatch.History.enter).next c).map fun r =>
      (r.1.calls "manager/21",town.acceptedLists "manager/21" c.world.2,(c.world.1.strategies "manager/21").isSome,
        r.2.2.map fun q => q.sub.msg))=some (some (.process .execute none),[[payOut]],true,
      [.bankSend "saver" [⟨99,"rune"⟩],.bankSend "fees" [⟨1,"rune"⟩],
        .wasmExecute "manager/21" (.strategy (.process .execute (some 0))) []]) := by decide +kernel
  constructor
  · obtain ⟨⟨⟨w,history⟩,frames⟩,hc,hrun⟩ := Option.bind_eq_some_iff.mp hcreated
    obtain ⟨⟨p,w',out⟩,hnext,hrun⟩ := Option.map_eq_some_iff.mp hrun
    obtain ⟨hlists,hout⟩ := Prod.mk.inj hrun
    have hdelivery := hreaches hc hnext
    have hlists : town.acceptedLists "manager/21" history=[[payOut]] := hlists
    have hsent := (payments_granted wealthy_vacant hdelivery).2 _ (List.mem_of_getElem? (congrArg (·[0]?) hout))
    obtain ⟨s',hs',hentitled⟩ := hsent savings_strategy
    rw [hlists] at hentitled
    exact ⟨w,history,p,w',out,hdelivery,hlists,hout,s',hs',hentitled⟩
  · obtain ⟨⟨⟨w,history⟩,frames⟩,hc,hrun⟩ := Option.bind_eq_some_iff.mp hpaid
    obtain ⟨⟨p,w',out⟩,hnext,hrun⟩ := Option.map_eq_some_iff.mp hrun
    obtain ⟨hcalls,hrun⟩ := Prod.mk.inj hrun
    obtain ⟨hlists,hrun⟩ := Prod.mk.inj hrun
    obtain ⟨hstored,hout⟩ := Prod.mk.inj hrun
    obtain ⟨s,hs⟩ := Option.isSome_iff_exists.mp hstored
    have hdelivery := hreaches hc hnext
    exact ⟨w,history,p,w',out,hdelivery,hlists,s,hs,hout,
      fun q hq => ((payments_granted wealthy_vacant hdelivery).1 _ s _ hs hcalls q hq).2⟩

/-- Both lists of the strategy came from alice, who owns it. -/
theorem lists_from_owner_update : ∃ w history s, chronicle=some (w,history) ∧ w.strategies "manager/21"=some s ∧
    s.owner="alice" ∧ (history.filter fun e => (town.accepted "manager/21" e).isSome).length=2 ∧
    ∀ e ∈ history, (town.accepted "manager/21" e).isSome → town.author e="alice" := by
  have hrun : chronicle.map (fun c => ((c.1.strategies "manager/21").map StrategyStorage.owner,
      (c.2.filter fun e => (town.accepted "manager/21" e).isSome).length))=some (some "alice",2) := by decide +kernel
  obtain ⟨⟨w,history⟩,hc,hrun⟩ := Option.map_eq_some_iff.mp hrun
  obtain ⟨howner,hlen⟩ := Prod.mk.inj hrun
  obtain ⟨s,hs,howner⟩ := Option.map_eq_some_iff.mp howner
  refine ⟨w,history,s,hc,hs,howner,hlen,fun e he hacc => ?_⟩
  obtain ⟨nodes,hnodes⟩ := Option.isSome_iff_exists.mp hacc
  exact (lists_from_owner wealthy_vacant (chronicle_reachable hc) hs he hnodes).trans howner

end Site
end CalcRs
