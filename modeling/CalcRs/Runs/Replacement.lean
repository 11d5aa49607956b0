import CalcRs.Runs.Invariant

/-! Replacing the node list. `NodeStore::init` writes the keys of the new list and removes none, so the
store holds exactly the new list when no earlier list was longer, and only then. -/
namespace CalcRs.StrategyContract

/-- No node of a well formed graph leads to itself. -/
theorem wellFormed_noLoop {wirings : List Wiring} (hf : NodeStore.WellFormed wirings) {i : ℕ}
    (hi : i<wirings.length) : wirings[i].index ∉ wirings[i].targets := fun hmem => by
  obtain ⟨rank,_,hr⟩ := hf.ranked
  have := (hr i hi wirings[i].index (by simpa [List.getElem?_eq_getElem hi] using hmem)).2
  rw [hf.index i hi] at this
  exact lt_irrefl _ this

section

variable [Crates]

/-- The storages of a strategy, with the node lists of its successful `Init` messages, the last first. -/
inductive History : StrategyStorage → List (List Node) → Prop
  | instantiate {env : Env} {info : MessageInfo} {msg : StrategyInstantiateMsg} {s : StrategyStorage}
      {response : StrategyResponse} : instantiate env info msg=.ok (s,response) → History s []
  | init {gas : ℕ} {deps : Deps} {env : Env} {info : MessageInfo} {nodes : List Node} {s s' : StrategyStorage}
      {lists : List (List Node)} {response : StrategyResponse} : History s lists →
      execute gas deps env info s (.init nodes)=.ok (s',response) → History s' (nodes :: lists)
  | call {gas : ℕ} {deps : Deps} {env : Env} {info : MessageInfo} {msg : StrategyExecuteMsg}
      {s s' : StrategyStorage} {lists : List (List Node)} {response : StrategyResponse} : History s lists →
      (∀ nodes, msg≠.init nodes) → execute gas deps env info s msg=.ok (s',response) → History s' lists

/-- The storages that follow without another `Init`. -/
inductive Later (s : StrategyStorage) : StrategyStorage → Prop
  | refl : Later s s
  | call {gas : ℕ} {deps : Deps} {env : Env} {info : MessageInfo} {msg : StrategyExecuteMsg}
      {s₁ s₂ : StrategyStorage} {response : StrategyResponse} : Later s s₁ → (∀ nodes, msg≠.init nodes) →
      execute gas deps env info s₁ msg=.ok (s₂,response) → Later s s₂

/-- The store holds one node list and nothing else is seen of any other: by `NodeStore::all`, by the
two queries and by the runs that follow. -/
structure HoldsOnly (s : StrategyStorage) (inits : List Node) : Prop where
  all : NodeStore.all s.nodes=inits
  config : (queryConfig s).nodes=inits
  balances : ∀ deps env, queryBalances deps env s=queryBalances deps env { s with nodes := Table.ofList inits }
  runs : ∀ s', Later s s' → ∀ operation turns c, Chain.run operation s' turns=.ok c →
    ∀ node ∈ c.executed, ∃ origin, inits[node.index]?=some origin ∧ Becomes origin node

variable {deps : Deps} {env : Env}

/-- A call that is not an `Init` takes every node through its own stages only. -/
theorem execute_traces {origins : ℕ → Option Node} {gas : ℕ} {info : MessageInfo} {s s' : StrategyStorage}
    {msg : StrategyExecuteMsg} {response : StrategyResponse} (ht : Traces origins s.nodes)
    (hm : ∀ nodes, msg≠.init nodes) (h : execute gas deps env info s msg=.ok (s',response)) :
    Traces origins s'.nodes := by
  obtain ⟨_,h⟩ := execute_nodes h
  cases msg with
  | init nodes => exact absurd rfl (hm nodes)
  | process operation previous =>
    obtain ⟨r,deposits,hn,_,hp⟩ := h
    have ht' : Traces origins { s with deposits := deposits }.nodes := ht
    exact hn ▸ (process_traces ht' hp).1
  | execute => exact h.1 ▸ ht
  | update nodes => exact h.1 ▸ ht
  | withdraw amounts => exact h.1 ▸ ht
  | cancel => exact h.1 ▸ ht

theorem Later.traces {origins : ℕ → Option Node} {s s' : StrategyStorage} (h : Later s s')
    (ht : Traces origins s.nodes) : Traces origins s'.nodes := by
  induction h with
  | refl => exact ht
  | call _ hm he ih => exact execute_traces ih hm he

/-- After `Init` the keys of the new list hold its initialised nodes and the others what they held. -/
theorem sane_init {affiliates : List Affiliate} {store store' : Table ℕ Node} {nodes inits : List Node}
    (hs : Sane store) (hi : NodeStore.Initialised deps env affiliates nodes inits)
    (hg : ∀ k, store'.get? k=if k<nodes.length then inits[k]? else store.get? k) : Sane store' := by
  have hnew : ∀ (k : ℕ) (node : Node), inits[k]?=some node → node.index=k ∧ node.index ∉ node.wiring.targets := by
    intro k node hk
    obtain ⟨hlt,rfl⟩ := List.getElem?_eq_some_iff.mp hk
    refine ⟨hi.index k hlt,?_⟩
    have := wellFormed_noLoop hi.wellFormed (i := k) (by simpa using hlt)
    simpa using this
  refine ⟨fun k node hk => ?_,fun k node hk => ?_⟩
  · rw [hg] at hk
    split_ifs at hk
    · exact (hnew k node hk).1
    · exact hs.index k node hk
  · rw [hg] at hk
    split_ifs at hk
    · exact (hnew k node hk).2
    · exact hs.noLoop k node hk

/-- The keys in use are the positions of the longest list so far. -/
theorem History.keys {s : StrategyStorage} {lists : List (List Node)} (h : History s lists) :
    Sane s.nodes ∧ ∀ k, (s.nodes.get? k).isSome ↔ ∃ l ∈ lists, k<l.length := by
  induction h with
  | instantiate h =>
    obtain ⟨rfl,_⟩ := instantiate_eq_ok h
    exact ⟨⟨by simp,by simp⟩,by simp⟩
  | @init gas deps env info nodes s s' lists response _ he ih =>
    obtain ⟨_,he⟩ := execute_nodes he
    obtain ⟨inits,hi,hg⟩ := NodeStore.init_eq_ok he
    refine ⟨sane_init ih.1 hi hg,fun k => ?_⟩
    rw [hg]
    split_ifs with hk
    · simp [hi.length,hk]
    · simp [ih.2 k,hk]
  | call _ hm he ih =>
    have ht := execute_traces (traces_self ih.1) hm he
    exact ⟨ht.1,fun k => by rw [ht.2.1 k,ih.2 k]⟩

theorem History.short {s : StrategyStorage} {lists : List (List Node)} (h : History s lists) :
    ∀ l ∈ lists, l.length ≤ MAX_STRATEGY_SIZE := by
  induction h with
  | instantiate => exact fun l hl => (by cases hl)
  | @init gas deps env info nodes s s' lists response _ he ih =>
    obtain ⟨_,he⟩ := execute_nodes he
    obtain ⟨inits,hi,_⟩ := NodeStore.init_eq_ok he
    refine List.forall_mem_cons.mpr ⟨?_,ih⟩
    have := hi.wellFormed.short
    rwa [List.length_map,hi.length] at this
  | call _ _ _ ih => exact ih

/-- What `NodeStore::init` establishes of the nodes that it stores and every stage keeps holds of every stored node. -/
theorem History.each {P : Node → Prop}
    (hinit : ∀ {deps env affiliates nodes} {store store' : Table ℕ Node},
      NodeStore.init deps env affiliates store nodes=.ok store' →
      ∀ k node, store'.get? k=some node → store.get? k=some node ∨ P node)
    (hstage : ∀ {node node'}, Stage node node' → P node → P node') {s : StrategyStorage} {lists : List (List Node)}
    (h : History s lists) (k : ℕ) (node : Node) (hk : s.nodes.get? k=some node) : P node := by
  induction h generalizing k node with
  | instantiate h =>
    obtain ⟨rfl,_⟩ := instantiate_eq_ok h
    simp at hk
  | init _ he ih =>
    obtain ⟨_,he⟩ := execute_nodes he
    rcases hinit he k node hk with hold | hnew
    · exact ih k node hold
    · exact hnew
  | @call _ _ _ _ msg s s' _ _ hh hm he ih =>
    obtain ⟨_,he⟩ := execute_nodes he
    cases msg with
    | init nodes => exact absurd rfl (hm nodes)
    | process operation previous =>
      obtain ⟨r,deposits,hn,_,hp⟩ := he
      have hi : Sane { s with deposits := deposits }.nodes ∧ ∀ k node, s.nodes.get? k=some node → P node :=
        ⟨hh.keys.1,ih⟩
      have hkeep := process_preserves (I := fun nodes => Sane nodes ∧ ∀ k node, nodes.get? k=some node → P node)
        (fun _ h => h.1) (fun nodes node node' hi hk hst => ⟨NodeStore.sane_save hi.1 hk hst.wiring,fun j n hj => by
          rw [NodeStore.get?_save] at hj
          split_ifs at hj
          · exact Option.some.inj hj ▸ hstage hst (hi.2 _ _ hk)
          · exact hi.2 j n hj⟩) hi hp
      exact hkeep.1.2 k node (hn ▸ hk)
    | execute => exact ih k node (he.1 ▸ hk)
    | update nodes => exact ih k node (he.1 ▸ hk)
    | withdraw amounts => exact ih k node (he.1 ▸ hk)
    | cancel => exact ih k node (he.1 ▸ hk)

/-- What `init` establishes of a node and every stage keeps holds of every stored node. -/
theorem History.all {P : Node → Prop}
    (hinit : ∀ {deps env affiliates} {node node' : Node}, node.init deps env affiliates=.ok node' → P node')
    (hstage : ∀ {node node'}, Stage node node' → P node → P node') {s : StrategyStorage} {lists : List (List Node)}
    (h : History s lists) (k : ℕ) (node : Node) (hk : s.nodes.get? k=some node) : P node := by
  refine h.each (fun he k node hk => ?_) hstage k node hk
  obtain ⟨inits,hi,hg⟩ := NodeStore.init_eq_ok he
  rw [hg] at hk
  split_ifs at hk with hlt
  · obtain ⟨hlt',rfl⟩ := List.getElem?_eq_some_iff.mp hk
    exact .inr (hinit (hi.init k hlt hlt'))
  · exact .inl hk

/-- After an `Init` the store holds exactly its node list if and only if no earlier list was longer. -/
theorem init_replaces_iff {gas : ℕ} {info : MessageInfo} {nodes : List Node} {s s' : StrategyStorage}
    {lists : List (List Node)} {response : StrategyResponse} (h : History s lists)
    (hinit : execute gas deps env info s (.init nodes)=.ok (s',response)) :
    (∃ inits, NodeStore.Initialised deps env s.affiliates nodes inits ∧ HoldsOnly s' inits) ↔
      ∀ l ∈ lists, l.length≤nodes.length := by
  obtain ⟨hs,hkeys⟩ := h.keys
  obtain ⟨_,he⟩ := execute_nodes hinit
  obtain ⟨inits,hi,hg⟩ := NodeStore.init_eq_ok he
  have hs' := sane_init hs hi hg
  constructor
  · rintro ⟨inits',hi',ho⟩ l hl
    by_contra hlt
    have hsome : (s.nodes.get? nodes.length).isSome := (hkeys _).mpr ⟨l,hl,not_le.mp hlt⟩
    obtain ⟨node,hn⟩ := Option.isSome_iff_exists.mp hsome
    have hn' : s'.nodes.get? nodes.length=some node := by rw [hg,if_neg (lt_irrefl _),hn]
    -- the node kept from the longer list is enumerated, but its index is no position of the new one
    have hmem : node ∈ inits' := ho.all ▸ Table.mem_values.mpr ⟨_,hn'⟩
    obtain ⟨i,hlt',rfl⟩ := List.getElem_of_mem hmem
    have h1 := hi'.index i hlt'
    have h2 := hs'.index _ _ hn'
    have h3 := hi'.length
    omega
  · intro hle
    have hget : ∀ k, s'.nodes.get? k=inits[k]? := fun k => by
      rw [hg]
      split_ifs with hk
      · rfl
      · have hnone : ¬(s.nodes.get? k).isSome := fun hsome => by
          obtain ⟨l,hl,hkl⟩ := (hkeys k).mp hsome
          have := hle l hl
          omega
        rw [Option.not_isSome_iff_eq_none.mp hnone,List.getElem?_eq_none_iff.mpr (by rw [hi.length]; omega)]
    have htable : s'.nodes=Table.ofList inits := Table.ext_get? fun k => by rw [hget,Table.get?_ofList]
    have hall : NodeStore.all s'.nodes=inits := by rw [NodeStore.all,htable,Table.values_ofList]
    refine ⟨inits,hi,hall,hall,fun deps env => by rw [← htable],fun s'' hl operation turns c hr node hn => ?_⟩
    obtain ⟨origin,ho,hb⟩ := (run_traces (hl.traces (traces_self hs')) hr).2 node hn
    exact ⟨origin,hget node.index ▸ ho,hb⟩

end

section

attribute [local instance] Crates.plain

def payAll (index : ℕ) (next : Option ℕ) : Node :=
  .action (.distribute ⟨["rune"],[⟨10000,.bank "owner",none,none⟩]⟩) index next

/-- The storage after an `Init` with a node list that starts on an empty store. -/
def holding (nodes : List Node) : StrategyStorage := ⟨"manager","owner",[],[],[],Table.ofList nodes,none⟩

theorem holding_history (nodes : List Node)
    (h : execute 0 Deps.silent ⟨⟨1,⟨1⟩⟩,"strategy"⟩ ⟨"strategy",[]⟩ (holding []) (.init nodes)=
      .ok (holding nodes,⟨[.init],[callSelf ⟨⟨1,⟨1⟩⟩,"strategy"⟩ (.process .execute none)]⟩)) :
    History (holding nodes) [nodes] :=
  have hinst : instantiate ⟨⟨1,⟨1⟩⟩,"strategy"⟩ ⟨"manager",[]⟩ ⟨"strategy","owner",[],[]⟩=.ok (holding [],_) := rfl
  .init (.instantiate hinst) h

/-- An `Init` with one node after one with two: the second node of the old list is still stored. -/
theorem init_keeps_longer_list : ∃ s response, History (holding [payAll 0 (some 1),payAll 1 none])
      [[payAll 0 (some 1),payAll 1 none]] ∧
    execute 0 Deps.silent ⟨⟨1,⟨1⟩⟩,"strategy"⟩ ⟨"strategy",[]⟩ (holding [payAll 0 (some 1),payAll 1 none])
      (.init [payAll 0 none])=.ok (s,response) ∧
    ¬∃ inits, NodeStore.Initialised Deps.silent ⟨⟨1,⟨1⟩⟩,"strategy"⟩ [] [payAll 0 none] inits ∧ HoldsOnly s inits := by
  refine ⟨holding [payAll 0 none,payAll 1 none],_,holding_history _ (by decide),by rfl,?_⟩
  rintro ⟨inits,hi,ho⟩
  have hall : [payAll 0 none,payAll 1 none]=inits := ho.all
  have hlen := hi.length
  simp [← hall] at hlen

theorem init_replaces_iff_shorter :
    (∃ inits, NodeStore.Initialised Deps.silent ⟨⟨1,⟨1⟩⟩,"strategy"⟩ [] [payAll 0 none] inits ∧
      HoldsOnly (holding [payAll 0 none,payAll 1 none]) inits) ↔
      ∀ l ∈ [[payAll 0 (some 1),payAll 1 none]], l.length≤[payAll 0 none].length :=
  have hinit : execute 0 Deps.silent ⟨⟨1,⟨1⟩⟩,"strategy"⟩ ⟨"strategy",[]⟩ (holding [payAll 0 (some 1),payAll 1 none])
      (.init [payAll 0 none])=.ok (holding [payAll 0 none,payAll 1 none],
        ⟨[.init],[callSelf ⟨⟨1,⟨1⟩⟩,"strategy"⟩ (.process .execute none)]⟩) := by decide
  init_replaces_iff (holding_history [payAll 0 (some 1),payAll 1 none] (by decide)) hinit

end

end CalcRs.StrategyContract
