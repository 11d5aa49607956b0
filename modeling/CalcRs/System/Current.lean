import CalcRs.System.Custody

/-! Which nodes a strategy executes. The store keeps nodes of earlier and longer lists, but a run that no installation
interrupts never meets them. -/
namespace CalcRs

/-- A node of a list as runs leave it: wired alike, and it names nobody but whom that one names, and the affiliates. -/
structure Bears (affiliates : List Affiliate) (given node : Node) : Prop where
  wiring : node.wiring=given.wiring
  payees : ∀ payee ∈ node.payees, payee ∈ given.payees ∨ ∃ affiliate ∈ affiliates, payee=.account affiliate.address

/-- The first nodes of the store are those of the list. -/
structure Lays (affiliates : List Affiliate) (list : List Node) (nodes : Table ℕ Node) : Prop where
  sane : Sane nodes
  wellFormed : NodeStore.WellFormed (list.map Node.wiring)
  stored : ∀ k (hk : k<list.length), ∃ node, nodes.get? k=some node ∧ Bears affiliates list[k] node

namespace Lays

theorem bears {affiliates : List Affiliate} {list : List Node} {nodes : Table ℕ Node} {node : Node} {k : ℕ}
    (h : Lays affiliates list nodes) (hk : k<list.length) (hn : nodes.get? k=some node) :
    Bears affiliates list[k] node := by
  obtain ⟨node',hn',hb⟩ := h.stored k hk
  exact Option.some.inj (hn.symm.trans hn') ▸ hb

theorem save {affiliates : List Affiliate} {list : List Node} {nodes : Table ℕ Node} {node node' : Node}
    (h : Lays affiliates list nodes) (hn : nodes.get? node.index=some node) (hw : node'.wiring=node.wiring)
    (hp : node'.payees ⊆ node.payees) : Lays affiliates list (NodeStore.save nodes node') := by
  refine ⟨NodeStore.sane_save h.sane hn hw,h.wellFormed,fun k hk => ?_⟩
  rw [NodeStore.get?_save]
  split_ifs with he
  · rw [Node.index_congr hw] at he
    subst he
    have hb := h.bears hk hn
    exact ⟨node',rfl,hw.trans hb.wiring,fun payee hmem => hb.payees payee (hp hmem)⟩
  · exact h.stored k hk

end Lays

namespace StrategyContract

theorem processResponse_resumes {env : Env} {operation : StrategyOperation} {p : ℕ} {progress : Progress} {sub : SubMsg}
    (h : sub ∈ (processResponse env operation progress).messages)
    (ho : Site.onward env.contract ⟨env.contract,sub⟩=some (.process operation (some p))) : progress.next=some p := by
  have hself : ∀ q, Site.onward env.contract ⟨env.contract,callSelf env (.process operation (some q))⟩=
      some (.process operation (some q)) := fun _ => Site.onward_callSelf
  cases progress with
  | messages i ms q =>
    rcases List.mem_append.mp h with h | h
    · obtain ⟨m,_,rfl⟩ := List.mem_map.mp h
      rw [Site.onward_reported] at ho
      cases ho
    · rw [List.mem_singleton.mp h,hself] at ho
      cases ho
      rfl
  | failed i e =>
    rw [List.mem_singleton.mp h,hself] at ho
    cases ho
    rfl
  | finished path => cases h

end StrategyContract

section

variable [Crates] {affiliates : List Affiliate} {list : List Node} {nodes : Table ℕ Node} {node node' next : Node}
  {deps : Deps} {env : Env} {operation : StrategyOperation} {k : ℕ}

namespace Lays

theorem init {store : Table ℕ Node} (hs : Sane nodes) (h : NodeStore.init deps env affiliates nodes list=.ok store) :
    Lays affiliates list store := by
  obtain ⟨inits,hi,hg⟩ := NodeStore.init_eq_ok h
  have hmap : inits.map Node.wiring=list.map Node.wiring := by
    refine List.ext_getElem (by simp [hi.length]) fun i h₁ h₂ => ?_
    rw [List.getElem_map,List.getElem_map]
    exact Node.init_wiring (hi.init i (by simpa using h₂) (by simpa using h₁))
  refine ⟨StrategyContract.sane_init hs hi hg,hmap ▸ hi.wellFormed,fun k hk => ?_⟩
  have hk' := hi.length ▸ hk
  refine ⟨inits[k],by rw [hg,if_pos hk,List.getElem?_eq_getElem hk'],Node.init_wiring (hi.init k hk hk'),?_⟩
  exact Node.init_payees (hi.init k hk hk')

/-- The successor of a node of the list is a node of the list. -/
theorem successor (h : Lays affiliates list nodes) (hk : node.index<list.length) (hw : node.wiring=list[node.index].wiring)
    (hn : Fault.okay (NodeStore.getNext deps env nodes .execute node)=.ok (some next)) : next.index<list.length := by
  obtain ⟨k,hget,⟨hne,_⟩ | ⟨_,hnext⟩⟩ := NodeStore.getNext_eq_some hn
  · cases hne
  · obtain rfl := h.sane.index k next hget
    obtain ⟨rank,_,hr⟩ := h.wellFormed.ranked
    have hwired : (list.map Node.wiring)[node.index]?=some node.wiring := by
      rw [List.getElem?_map,List.getElem?_eq_getElem hk,Option.map_some,hw]
    have hv := StrategyContract.nextIndex_eq_ok hnext
    have hin := (StrategyContract.following_spec (v := ⟨node,deps,env⟩) hr hwired hv.symm).1
    rwa [List.length_map] at hin

end Lays

/-- A node that is one of the list. -/
def Listed (affiliates : List Affiliate) (list : List Node) (node : Node) : Prop :=
  ∃ hk : node.index<list.length, Bears affiliates list[node.index] node

namespace StrategyContract

variable {storage : StrategyStorage} {stored : Option (List String)} {path : List String} {previous : Option ℕ}
  {r : Processed} {gas : ℕ}

theorem run_payees {messages : List CosmosMsg} (h : run operation node deps env=.ok (messages,node')) :
    node'.payees ⊆ node.payees := (Within.run_pays h).2

/-- A run that goes on with a node of the list executes nodes of the list only. -/
theorem Loops.listed (hl : Lays affiliates list nodes) {start : Option Node}
    (hnext : ∀ node ∈ start, nodes.get? node.index=some node ∧ node.index<list.length)
    (h : Loops .execute deps env stored nodes path start r) :
    (∀ node ∈ r.executed, Listed affiliates list node) ∧ ∀ i, r.progress.next=some i → i<list.length := by
  induction h with
  | finished => exact ⟨by simp,fun i hi => by cases hi⟩
  | @failed nodes path current error herr =>
    obtain ⟨hget,hk⟩ := hnext _ rfl
    refine ⟨fun node hn => ?_,fun i hi => ?_⟩
    · obtain rfl := List.mem_singleton.mp hn
      exact ⟨hk,hl.bears hk hget⟩
    · obtain rfl := Option.some.inj hi
      exact hk
  | @messages nodes path current node messages hex hm =>
    obtain ⟨hget,hk⟩ := hnext _ rfl
    refine ⟨fun node hn => ?_,fun i hi => ?_⟩
    · obtain rfl := List.mem_singleton.mp hn
      exact ⟨hk,hl.bears hk hget⟩
    · obtain rfl := Option.some.inj hi
      rwa [run_index hex]
  | @next nodes path current node next rest hex hget hrest ih =>
    obtain ⟨hcur,hk⟩ := hnext _ rfl
    have hlisted : Listed affiliates list current := ⟨hk,hl.bears hk hcur⟩
    have hl' := hl.save hcur (run_wiring hex) (run_payees hex)
    have hidx := run_index hex
    obtain ⟨hexecuted,hgoes⟩ := ih hl' fun n hn => by
      rw [Option.mem_def.mp hn] at hget
      refine ⟨(NodeStore.getNext_stored hl'.sane (hl'.sane.noLoop _ _ NodeStore.get?_save_self) hget).1,?_⟩
      have hk' : node.index<list.length := hidx ▸ hk
      exact hl'.successor hk' (hl'.bears hk' NodeStore.get?_save_self).wiring hget
    refine ⟨fun n hn => ?_,hgoes⟩
    rcases List.mem_cons.mp hn with rfl | hn
    · exact hlisted
    · exact hexecuted n hn

/-- A `Process` call keeps the list laid out. -/
theorem process_lays (hl : Lays affiliates list storage.nodes)
    (h : process gas deps env storage operation previous=.ok r) : Lays affiliates list r.nodes := by
  have hends := (process_invariant (I := Lays affiliates list) (fun _ h => h.sane)
    (fun nodes node node' hl hn hr => hl.save hn (run_wiring hr) (run_payees hr)) (fun _ => hl)
    (fun p node node' _ hk hc => ⟨hl.sane,hl.save (by rw [hl.sane.index p node hk]; exact hk) (Node.commit_wiring hc)
      (Node.commit_payees hc ▸ List.Subset.refl _)⟩) h).ends
  unfold Ends at hends
  cases hp : r.progress with
  | messages i ms q =>
    simp only [hp] at hends
    obtain ⟨nodes,node,node',hl',hn,hidx,hr,_,he,_⟩ := hends
    exact he ▸ hl'.save (hidx ▸ hn) (run_wiring hr) (run_payees hr)
  | failed i e =>
    simp only [hp] at hends
    exact hends.1
  | finished path =>
    simp only [hp] at hends
    exact hends

/-- A call that begins a run or goes on behind a node of the list executes nodes of the list only. -/
theorem process_listed (hl : Lays affiliates list storage.nodes) (hne : list≠[])
    (hprevious : ∀ i, previous=some i → i<list.length) (h : process gas deps env storage .execute previous=.ok r) :
    (∀ node ∈ r.executed, Listed affiliates list node) ∧ ∀ i, r.progress.next=some i → i<list.length := by
  cases process_eq_ok h with
  | first hloop =>
    refine hloop.listed hl fun node hn => ?_
    have hget := Option.mem_def.mp hn
    have hidx := hl.sane.index 0 node hget
    exact ⟨hidx.symm ▸ hget,hidx.symm ▸ List.length_pos_iff.mpr hne⟩
  | @resumed p node updated next path rest hk hget hc hpath hloop =>
    have hl' : Lays affiliates list (NodeStore.save storage.nodes updated) :=
      hl.save (by rw [hl.sane.index p node hk]; exact hk) (Node.commit_wiring hc) (Node.commit_payees hc ▸ List.Subset.refl _)
    have hstored := next_stored hl.sane hk hc hget
    have hlisted := hloop.listed hl' fun n hn => ⟨hstored n hn,?_⟩
    · exact hlisted
    · obtain rfl := hl.sane.index p node hk
      rw [Option.mem_def.mp hn] at hget
      have hp := hprevious _ rfl
      exact hl.successor hp (hl.bears hp hk).wiring hget

/-- Without nodes there is nothing to execute. -/
theorem process_empty (he : storage.nodes=Table.empty) (h : process gas deps env storage operation previous=.ok r) :
    r.nodes=Table.empty ∧ r.executed=[] ∧ r.progress.next=none := by
  cases process_eq_ok h with
  | first hloop =>
    rw [he] at hloop
    cases hloop
    exact ⟨rfl,rfl,rfl⟩
  | resumed hk _ _ _ _ =>
    rw [he] at hk
    cases hk

end StrategyContract

/-! ### The list that governs -/

/-- The nodes that a message lays out: a list without nodes leaves the store as it is. -/
def StrategyExecuteMsg.layout : StrategyExecuteMsg → Option (List Node)
  | .init nodes => if nodes=[] then none else some nodes
  | _ => none

/-- The store is governed by this list, or nothing is stored. -/
def Governed (affiliates : List Affiliate) (nodes : Table ℕ Node) : Option (List Node) → Prop
  | none => nodes=Table.empty
  | some list => list≠[] ∧ Lays affiliates list nodes

omit [Crates] in
theorem Governed.sane {current : Option (List Node)} (h : Governed affiliates nodes current) : Sane nodes := by
  cases current with
  | none =>
    obtain rfl : nodes=Table.empty := h
    exact ⟨by simp,by simp⟩
  | some list => exact h.2.sane

theorem NodeStore.init_nil {store : Table ℕ Node} (h : init deps env affiliates nodes []=.ok store) : store=nodes := by
  obtain ⟨inits,_,hg⟩ := init_eq_ok h
  refine Table.ext_get? fun k => ?_
  rw [hg,if_neg (by simp)]

namespace StrategyContract

variable {gas : ℕ} {info : MessageInfo} {s s' : StrategyStorage} {msg : StrategyExecuteMsg} {response : StrategyResponse}
  {current : Option (List Node)}

/-- A call keeps the store governed by the last list that was laid out, and goes on behind nodes of it. -/
theorem execute_governed (h : execute gas deps env info s msg=.ok (s',response)) (hg : Governed s.affiliates s.nodes current)
    (hprevious : ∀ i, msg=.process .execute (some i) → ∃ list, current=some list ∧ i<list.length) :
    Governed s.affiliates s'.nodes (msg.layout.or current) ∧
      ∀ sub ∈ response.messages, ∀ i, Site.onward env.contract ⟨env.contract,sub⟩=some (.process .execute (some i)) →
        ∃ list, msg.layout.or current=some list ∧ i<list.length := by
  have hself : ∀ {m : StrategyExecuteMsg} {i : ℕ}, Site.onward env.contract ⟨env.contract,callSelf env m⟩=
      some (.process .execute (some i)) → m=.process .execute (some i) := fun ho =>
    Option.some.inj (Site.onward_callSelf.symm.trans ho)
  obtain ⟨deposits,h⟩ := execute_eq_ok h
  cases h with
  | @init nodes _ _ hi =>
    refine ⟨?_,fun sub hs i ho => ?_⟩
    · by_cases hne : nodes=[]
      · subst hne
        obtain rfl := NodeStore.init_nil hi
        simpa [StrategyExecuteMsg.layout] using hg
      · simp only [StrategyExecuteMsg.layout,if_neg hne,Option.some_or]
        exact ⟨hne,Lays.init hg.sane hi⟩
    · rw [List.mem_singleton.mp hs] at ho
      cases hself ho
  | execute _ =>
    refine ⟨hg,fun sub hs i ho => ?_⟩
    rw [List.mem_singleton.mp hs] at ho
    cases hself ho
  | cancel _ =>
    refine ⟨hg,fun sub hs i ho => ?_⟩
    rw [List.mem_singleton.mp hs] at ho
    cases hself ho
  | update _ =>
    refine ⟨hg,fun sub hs i ho => ?_⟩
    rcases List.mem_cons.mp hs with rfl | hs
    · cases hself ho
    · rw [List.mem_singleton.mp hs] at ho
      cases hself ho
  | withdraw _ hw =>
    have hsends := withdraw_sends hw
    obtain ⟨_,rfl⟩ := withdraw_keeps hw
    refine ⟨hg,fun sub hs i ho => ?_⟩
    obtain ⟨target,amount,hm⟩ := hsends sub hs
    simp [Site.onward,hm] at ho
  | @process operation previous r _ hp =>
    cases current with
    | none =>
      obtain ⟨hnodes,_,hnone⟩ := process_empty (show ({ s with deposits := deposits } : StrategyStorage).nodes=_ from hg) hp
      refine ⟨hnodes,fun sub hs i ho => ?_⟩
      rcases mem_processResponse hs with ⟨m,_,j,rfl⟩ | ⟨q,rfl⟩
      · rw [Site.onward_reported] at ho
        cases ho
      · obtain ⟨rfl,_⟩ := StrategyExecuteMsg.process.inj (hself ho)
        rw [processResponse_resumes hs ho] at hnone
        cases hnone
    | some list =>
      have hl : Lays s.affiliates list ({ s with deposits := deposits } : StrategyStorage).nodes := hg.2
      refine ⟨⟨hg.1,process_lays hl hp⟩,fun sub hs i ho => ⟨list,rfl,?_⟩⟩
      rcases mem_processResponse hs with ⟨m,_,j,rfl⟩ | ⟨q,rfl⟩
      · rw [Site.onward_reported] at ho
        cases ho
      · obtain ⟨rfl,_⟩ := StrategyExecuteMsg.process.inj (hself ho)
        refine (process_listed hl hg.1 (fun j hj => ?_) hp).2 i (processResponse_resumes hs ho)
        obtain ⟨list',he,hj⟩ := hprevious j (by rw [hj])
        cases he
        exact hj

end StrategyContract

namespace Site

variable {site : Site} {w w' : World} {p : Packet} {out ps : List Packet} {history : Dispatch.History Packet} {a : Addr}

/-- The last list that was laid out. -/
def current (a : Addr) (history : Dispatch.History Packet) : Option (List Node) :=
  (history.delivered.filterMap fun p => (p.calls a).bind StrategyExecuteMsg.layout).getLast?

theorem current_append : current a (history ++ [(p,out)])=((p.calls a).bind StrategyExecuteMsg.layout).or (current a history) := by
  rw [current,Dispatch.History.delivered_append,List.filterMap_append,List.getLast?_append]
  cases h : (p.calls a).bind StrategyExecuteMsg.layout <;> simp [h,current]

/-- Lists are laid out between the runs of the strategy only, and no payment of the strategy calls it. -/
def uninterrupted (a : Addr) : Dispatch.Conduct World Packet where
  calls _ p ps := (p.sender=a → p.calls a=onward a p) ∧ (((p.calls a).bind StrategyExecuteMsg.layout).isSome=true →
    ∀ q ∈ ps, (onward a q).bind StrategyExecuteMsg.resumes≠some .execute)
  fails _ _ := True

/-- The store of the strategy is governed by the last list, which the manager had accepted, and the runs under way are at
nodes of it. -/
structure Governs (site : Site) (a : Addr) (w : World × Dispatch.History Packet) (ps : List Packet) : Prop where
  custody : site.Custody w ps
  absent : w.1.strategies a=none → current a w.2=none
  governed : ∀ s, w.1.strategies a=some s → Governed s.affiliates s.nodes (current a w.2)
  underway : ∀ q ∈ ps, ∀ i, onward a q=some (.process .execute (some i)) → ∃ list, current a w.2=some list ∧ i<list.length
  accepted : ∀ list, current a w.2=some list → list ∈ site.acceptedLists a w.2

/-- A list that the strategy lays out had been accepted. -/
theorem Custody.layout (h : site.Custody (w,history) (p :: ps)) (ha : site.Strategy a) {nodes : List Node}
    (ho : onward a p=some (.init nodes)) : nodes ∈ site.acceptedLists a history := by
  obtain ⟨s,_,hentitled⟩ := h.entitled a ha p List.mem_cons_self (onward_sender ho)
  unfold onward at ho
  generalize p.sub.msg=message at ho hentitled
  cases hentitled with
  | own hinit =>
    simp only [Option.ite_none_right_eq_some,Option.some.injEq] at ho
    exact hinit nodes ho.2
  | owner => cases ho
  | granted _ hpays => cases hpays <;> cases ho

/-- No run goes on in a delivery that does not call the strategy. -/
theorem Delivers.rests (hd : site.Delivers w p w' out) (ha : site.Strategy a) (hc : p.calls a=none) {i : ℕ} :
    ∀ q ∈ out, onward a q≠some (.process .execute (some i)) := by
  intro q hq ho
  have hmem : StrategyExecuteMsg.process .execute (some i) ∈ out.filterMap (onward a) := List.mem_filterMap.mpr ⟨q,hq,ho⟩
  have hprompts := hd.prompts ha
  generalize out.filterMap (onward a)=next at hmem hprompts
  cases hprompts with
  | call hcall _ _ => exact absurd (hc.symm.trans hcall) (by simp)
  | created _ _ => cases List.mem_singleton.mp hmem
  | other _ _ => cases hmem

theorem Governs.call (ha : site.Strategy a) (h : site.Governs a (w,history) (p :: ps)) (hc : (uninterrupted a).calls w p ps)
    (hd : site.Delivers w p w' out) : site.Governs a (w',history ++ [(p,out)]) (out ++ ps) := by
  have hcustody := h.custody.call hd
  have hlists : site.acceptedLists a history ⊆ site.acceptedLists a (history ++ [(p,out)]) := by
    rw [acceptedLists_append]
    exact List.subset_append_left _ _
  cases hcall : p.calls a with
  | none =>
    have hcurrent : current a (history ++ [(p,out)])=current a history := by rw [current_append,hcall]; rfl
    refine ⟨hcustody,fun hnone => ?_,fun s' hs' => ?_,fun q hq i ho => ?_,fun list hl => ?_⟩
    all_goals simp only [hcurrent] at *
    · refine h.absent (Option.eq_none_iff_forall_ne_some.mpr fun s hs => ?_)
      obtain ⟨_,hs',_⟩ := hd.remains hs
      rw [hnone] at hs'
      cases hs'
    · rcases hd.origin ha hs' with ⟨hs,_⟩ | ⟨_,_,_,_,_,_,_,hcall',_⟩ | ⟨_,hnone,_,_,rfl,_⟩
      · exact h.governed s' hs
      · exact absurd (hcall.symm.trans hcall') (by simp)
      · rw [h.absent hnone]
        rfl
    · rcases List.mem_append.mp hq with hq | hq
      · exact absurd ho (hd.rests ha hcall q hq)
      · exact h.underway q (List.mem_cons_of_mem _ hq) i ho
    · exact hlists (h.accepted list hl)
  | some msg =>
    obtain ⟨gas,deps,env,s,s',response,hs,_,henv,he,rfl,rfl⟩ := hd.to_strategy ha hcall
    subst henv
    have hsends := (StrategyContract.execute_sends he).2
    obtain ⟨hgoverned,hgoes⟩ := StrategyContract.execute_governed he (h.governed s hs) fun i hm => by
      subst hm
      exact h.underway p List.mem_cons_self i ((hc.1 hsends.1).symm.trans hcall)
    have hcurrent : current env.contract (history ++ [(p,response.messages.map (Packet.mk env.contract))])=
        msg.layout.or (current env.contract history) := by rw [current_append,hcall]; rfl
    refine ⟨hcustody,fun hnone => ?_,fun t ht => ?_,fun q hq i ho => ?_,fun list hl => ?_⟩
    · simp at hnone
    · obtain rfl : s'=t := by simpa using ht
      rw [hcurrent,(StrategyContract.execute_keeps he).2.2]
      exact hgoverned
    · rw [hcurrent]
      rcases List.mem_append.mp hq with hq | hq
      · obtain ⟨sub,hsub,rfl⟩ := List.mem_map.mp hq
        exact hgoes sub hsub i ho
      · have hnone : msg.layout=none := by
          refine Option.not_isSome_iff_eq_none.mp fun hsome => hc.2 (by rw [hcall]; exact hsome) q hq ?_
          rw [ho]
          rfl
        rw [hnone,Option.none_or]
        exact h.underway q (List.mem_cons_of_mem _ hq) i ho
    · rw [hcurrent] at hl
      refine hlists ?_
      cases msg with
      | init nodes =>
        by_cases hne : nodes=[]
        · exact h.accepted list (by simpa [StrategyExecuteMsg.layout,hne] using hl)
        · obtain rfl : nodes=list := by simpa [StrategyExecuteMsg.layout,hne] using hl
          exact h.custody.layout ha ((hc.1 hsends.1).symm.trans hcall)
      | _ => exact h.accepted list hl

theorem Governs.keeps (ha : site.Strategy a) :
    Dispatch.Keeps site.machine.logging (uninterrupted a).recording (Governs site a) where
  call := by
    rintro ⟨w,history⟩ ⟨w',history'⟩ p ps out h hc ⟨hd,hrecord⟩
    obtain rfl : history'=history ++ [(p,out)] := hrecord
    exact h.call ha hc hd
  reply {w p ok ps out} h hr := by
    refine ⟨(Custody.keeps site).reply h.custody hr,h.absent,h.governed,fun q hq i ho => ?_,h.accepted⟩
    rcases List.mem_append.mp hq with hq | hq
    · exact absurd (onward_sender ho ▸ ha) (Replies.senders hr q hq).not_strategy
    · exact h.underway q hq i ho
  drop h hc hf := ⟨(Custody.keeps site).drop h.custody hc trivial,h.absent,h.governed,
    fun q hq => h.underway q (List.mem_cons_of_mem _ hq),h.accepted⟩

theorem Governs.vacant (h : w.Vacant) : site.Governs a (w,[]) [] :=
  ⟨Custody.vacant h,fun _ => rfl,fun s hs => absurd ((h.strategies a).symm.trans hs) (by simp),by simp,fun _ hl => by cases hl⟩

theorem Governs.begins (ha : site.Strategy a) (h : site.Governs a (w,history) []) (ho : site.Outside p.sender) :
    site.Governs a (w,history) [p] := by
  refine ⟨h.custody.begins ho,h.absent,h.governed,fun q hq i hgoes => ?_,h.accepted⟩
  rw [List.mem_singleton.mp hq] at hgoes
  exact absurd (onward_sender hgoes ▸ ha) ho.not_strategy

/-- Where lists are laid out between the runs of a strategy only, each run executes nodes of the last list alone, wired as
there, which pay nobody but whom that list names, and the affiliates. -/
theorem runs_current {w₀ : World} (h₀ : w₀.Vacant) (ha : site.Strategy a) {w' : World × Dispatch.History Packet}
    (h : Dispatch.Delivery site.machine.logging (uninterrupted a).recording (w₀,[]) (w,history) p w' out)
    {previous : Option ℕ} (hc : p.calls a=some (.process .execute previous)) : ∃ gas deps env s s' r,
      w.strategies a=some s ∧ w'.1.strategies a=some s' ∧ env.contract=a ∧
      StrategyContract.process gas deps env { s with deposits := s'.deposits } .execute previous=.ok r ∧
      s'.nodes=r.nodes ∧ out=(StrategyContract.processResponse env .execute r.progress).messages.map (Packet.mk a) ∧
      ∀ node ∈ r.executed, ∃ list, current a history=some list ∧ list ∈ site.acceptedLists a history ∧
        Listed s.affiliates list node := by
  obtain ⟨ps,hgoverns,hcalls,hd,_⟩ := h.conducted (Governs.keeps ha) (fun {w p} hw hb => Governs.begins ha hw hb)
    (Governs.vacant h₀)
  obtain ⟨gas,deps,env,s,s',response,hs,_,henv,he,hw',rfl⟩ := hd.to_strategy ha hc
  have hs' : w'.1.strategies a=some s' := by rw [hw']; exact Function.update_self ..
  obtain ⟨deposits,he⟩ := StrategyContract.execute_eq_ok he
  cases he with
  | @process _ _ r hself hp =>
    refine ⟨gas,deps,env,s,_,r,hs,hs',henv,hp,rfl,rfl,fun node hn => ?_⟩
    have hsender : p.sender=a := hself.trans henv
    have hgoverned := hgoverns.governed s hs
    cases hcur : current a history with
    | none =>
      rw [hcur] at hgoverned
      rw [(StrategyContract.process_empty (show ({ s with deposits := deposits } : StrategyStorage).nodes=_ from hgoverned)
        hp).2.1] at hn
      cases hn
    | some list =>
      rw [hcur] at hgoverned
      refine ⟨list,rfl,hgoverns.accepted list hcur,(StrategyContract.process_listed
        (show Lays s.affiliates list ({ s with deposits := deposits } : StrategyStorage).nodes from hgoverned.2)
        hgoverned.1 (fun i hi => ?_) hp).1 node hn⟩
      obtain ⟨list',hl,hi'⟩ := hgoverns.underway p List.mem_cons_self i (by rw [← hcalls.1 hsender,hc,hi])
      obtain rfl := Option.some.inj (hcur.symm.trans hl)
      exact hi'

end Site

end

namespace Site

attribute [local instance] Crates.plain

instance (a : Addr) (p : Packet) (ps : List Packet) (w : World) : Decidable ((uninterrupted a).calls w p ps) :=
  inferInstanceAs (Decidable (_ ∧ _))

/-- Two nodes that pay dollars. -/
def payTwice : List Node :=
  [.action (.distribute ⟨["usd"],[⟨10000,.bank "saver",none,none⟩]⟩) 0 (some 1),
    .action (.distribute ⟨["usd"],[⟨10000,.bank "saver",none,none⟩]⟩) 1 none]

/-- The town, where no run of alice's strategy is interrupted. -/
def calm : Dispatch.Player World Packet :=
  town.player ⟨1,⟨1⟩⟩ (townsfolk fun _ => []) fun w p ps => decide ((uninterrupted "manager/21").calls w p ps)

/-- Two nodes are replaced by one, up to the call that executes it. -/
def replacingRun : Option (Dispatch.Config (World × Dispatch.History Packet) Packet) :=
  let scribe := calm.recording Dispatch.History.enter
  (scribe.transact 12 (wealthy Table.empty,[]) (asks (.instantiate none none "savings" [] payTwice))).bind fun w =>
    (scribe.start w (asks (.update "manager/21" [payOut]))).bind (scribe.play 4)

/-- The second node of the list before is still stored, but only the new node is executed. -/
theorem runs_current_replaced : ∃ w history p w' out s, Dispatch.Delivery town.machine.logging
      (uninterrupted "manager/21").recording (wealthy Table.empty,[]) (w,history) p w' out ∧
    p.calls "manager/21"=some (.process .execute none) ∧ w.strategies "manager/21"=some s ∧ s.nodes.keys=[0,1] ∧
    out.map (fun q => q.sub.msg)=[.bankSend "saver" [⟨99,"rune"⟩],.bankSend "fees" [⟨1,"rune"⟩],
      .wasmExecute "manager/21" (.strategy (.process .execute (some 0))) []] ∧
    ∃ gas deps env deposits r, StrategyContract.process gas deps env { s with deposits := deposits } .execute none=.ok r ∧
      ∀ node ∈ r.executed, Listed s.affiliates [payOut] node := by
  have hsound : (calm.recording Dispatch.History.enter).Sound town.machine.logging (uninterrupted "manager/21").recording :=
    (player_sound townsfolk_outside (fun h => of_decide_eq_true h) fun _ => trivial).recording _
  have hrun : (replacingRun.bind fun c => ((calm.recording Dispatch.History.enter).next c).map fun r =>
      (r.1.calls "manager/21",(c.world.1.strategies "manager/21").map fun s => s.nodes.keys,current "manager/21" c.world.2,
        r.2.2.map fun q => q.sub.msg))=some (some (.process .execute none),some [0,1],some [payOut],
      [.bankSend "saver" [⟨99,"rune"⟩],.bankSend "fees" [⟨1,"rune"⟩],
        .wasmExecute "manager/21" (.strategy (.process .execute (some 0))) []]) := by decide +kernel
  obtain ⟨⟨⟨w,history⟩,frames⟩,hc,hrun⟩ := Option.bind_eq_some_iff.mp hrun
  obtain ⟨⟨p,w',out⟩,hnext,hrun⟩ := Option.map_eq_some_iff.mp hrun
  obtain ⟨hcalls,hrun⟩ := Prod.mk.inj hrun
  obtain ⟨hkeys,hrun⟩ := Prod.mk.inj hrun
  obtain ⟨hcurrent,hout⟩ := Prod.mk.inj hrun
  unfold replacingRun at hc
  obtain ⟨created,h₁,hc⟩ := Option.bind_eq_some_iff.mp hc
  obtain ⟨updated,h₂,hc⟩ := Option.bind_eq_some_iff.mp hc
  have hbegun := hsound.start (hsound.transact .start (alice_outside _) h₁) (alice_outside _) h₂
  have hdelivery := hsound.next (hsound.reaches hbegun hc) hnext
  have hstrategy := savings_strategy
  obtain ⟨gas,deps,env,s,s',r,hs,_,_,hr,_,_,hlisted⟩ := runs_current wealthy_vacant hstrategy hdelivery hcalls
  obtain ⟨t,ht,hkeys⟩ := Option.map_eq_some_iff.mp hkeys
  obtain rfl := Option.some.inj (hs.symm.trans ht)
  refine ⟨w,history,p,w',out,s,hdelivery,hcalls,hs,hkeys,hout,gas,deps,env,s'.deposits,r,hr,fun node hn => ?_⟩
  obtain ⟨list,hl,_,hnode⟩ := hlisted node hn
  obtain rfl := Option.some.inj (hcurrent.symm.trans hl)
  exact hnode

end Site

end CalcRs
