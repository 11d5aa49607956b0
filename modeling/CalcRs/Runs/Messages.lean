import CalcRs.Model.Strategy

/-! What a message to a strategy does when it succeeds: with the funds that come with it, and for itself. -/
namespace CalcRs.StrategyContract

theorem instantiate_eq_ok {env : Env} {info : MessageInfo} {msg : StrategyInstantiateMsg} {s : StrategyStorage}
    {response : StrategyResponse} (h : instantiate env info msg=.ok (s,response)) :
    s=⟨info.sender,msg.owner,msg.affiliates,[],[],Table.empty,none⟩ ∧ response=⟨[],[callSelf env (.init msg.nodes)]⟩ := by
  simp only [instantiate,genericErr,Except.ite_error_eq_ok] at h
  exact Prod.mk.inj (Except.ok.inj h.2).symm

theorem deposit_eq_ok {storage storage' : StrategyStorage} {info : MessageInfo}
    (h : deposit storage info=.ok storage') : ∃ deposits, storage'={ storage with deposits := deposits } := by
  unfold deposit at h
  split_ifs at h with hf
  · exact ⟨storage.deposits,(Except.ok.inj h).symm⟩
  · obtain ⟨_,_,h⟩ := Except.bind_eq_ok.mp h
    obtain ⟨_,_,h⟩ := Except.bind_eq_ok.mp h
    exact ⟨_,(Except.ok.inj h).symm⟩

/-- One coin that is withdrawn: its fees go to the affiliates, and what is left of it to the owner. -/
def shareCoin (state : List (Affiliate × Coins) × Coins) (amount : Coin) :
    Outcome (List (Affiliate × Coins) × Coins) := do
  let (affiliateAmounts,workingAmount) ← takeFees amount state.1 amount.amount
  let finalWithdrawals ← Coins.add state.2 ⟨workingAmount,amount.denom⟩
  return (affiliateAmounts,finalWithdrawals)

section

variable {deps : Deps} {env : Env} {storage storage' : StrategyStorage} {amounts : List Coin}
  {response : StrategyResponse}

/-- A withdrawal does nothing where nothing is asked for or there, and else pays the owner and all who have a fee. -/
theorem withdraw_eq_ok (h : withdraw deps env storage amounts=.ok (storage',response)) :
    storage'=storage ∧ response=⟨[],[]⟩ ∧
        (amounts=[] ∨ ∃ withdrawn, withdrawals deps env amounts=.ok withdrawn ∧ withdrawn.isEmpty=true) ∨
      ∃ withdrawn fees final total, withdrawals deps env amounts=.ok withdrawn ∧ withdrawn.isEmpty=false ∧
        withdrawn.toVec.foldlM shareCoin (storage.affiliates.map fun a => (a,Coins.empty),Coins.empty)=.ok (fees,final) ∧
        final.addAll storage.withdrawals=.ok total ∧ storage'={ storage with withdrawals := total.toVec } ∧
        response=⟨[.withdraw],⟨.bankSend storage.owner final.toVec,.never,0⟩ ::
          (fees.filter fun entry => ¬entry.2.isEmpty).map fun entry =>
            ⟨.bankSend entry.1.address entry.2.toVec,.never,0⟩⟩ := by
  unfold withdraw at h
  split_ifs at h with hnone
  · obtain ⟨rfl,rfl⟩ := Prod.mk.inj (Except.ok.inj h)
    exact .inl ⟨rfl,rfl,.inl (List.isEmpty_iff.mp hnone)⟩
  obtain ⟨withdrawn,hw,h⟩ := Except.bind_eq_ok.mp h
  split_ifs at h with hempty
  · obtain ⟨rfl,rfl⟩ := Prod.mk.inj (Except.ok.inj h)
    exact .inl ⟨rfl,rfl,.inr ⟨withdrawn,hw,hempty⟩⟩
  obtain ⟨⟨fees,final⟩,hshares,h⟩ := Except.bind_eq_ok.mp h
  obtain ⟨total,htotal,h⟩ := Except.bind_eq_ok.mp h
  obtain ⟨rfl,rfl⟩ := Prod.mk.inj (Except.ok.inj h)
  exact .inr ⟨withdrawn,fees,final,total,hw,Bool.eq_false_iff.mpr hempty,hshares,htotal,rfl,rfl⟩

theorem withdraw_keeps (h : withdraw deps env storage amounts=.ok (storage',response)) :
    ∃ withdrawals, storage'={ storage with withdrawals := withdrawals } := by
  obtain ⟨rfl,_⟩ | ⟨_,_,_,_,_,_,_,_,rfl,_⟩ := withdraw_eq_ok h
  · exact ⟨_,rfl⟩
  · exact ⟨_,rfl⟩

theorem withdraw_sends (h : withdraw deps env storage amounts=.ok (storage',response)) :
    ∀ sub ∈ response.messages, ∃ target amount, sub.msg=.bankSend target amount := by
  intro sub hs
  obtain ⟨_,rfl,_⟩ | ⟨_,_,_,_,_,_,_,_,_,rfl⟩ := withdraw_eq_ok h
  · cases hs
  · rcases List.mem_cons.mp hs with rfl | hs
    · exact ⟨_,_,rfl⟩
    · obtain ⟨entry,_,rfl⟩ := List.mem_map.mp hs
      exact ⟨_,_,rfl⟩

variable [Crates]

/-- What a message does, once its funds are recorded in `s`. -/
inductive Dispatches (gas : ℕ) (deps : Deps) (env : Env) (info : MessageInfo) (s : StrategyStorage) :
    StrategyExecuteMsg → StrategyStorage → StrategyResponse → Prop
  | init {nodes : List Node} {store : Table ℕ Node} : info.sender=env.contract →
      NodeStore.init deps env s.affiliates s.nodes nodes=.ok store →
      Dispatches gas deps env info s (.init nodes) { s with nodes := store }
        ⟨[.init],[callSelf env (.process .execute none)]⟩
  | execute : info.sender=s.manager →
      Dispatches gas deps env info s .execute s ⟨[.execute],[callSelf env (.process .execute none)]⟩
  | update {nodes : List Node} : info.sender=s.manager →
      Dispatches gas deps env info s (.update nodes) s
        ⟨[.update],[callSelf env (.process .cancel none),callSelf env (.init nodes)]⟩
  | withdraw {amounts : List Coin} {s' : StrategyStorage} {response : StrategyResponse} : info.sender=s.owner →
      withdraw deps env s amounts=.ok (s',response) → Dispatches gas deps env info s (.withdraw amounts) s' response
  | cancel : info.sender=s.manager →
      Dispatches gas deps env info s .cancel s ⟨[.cancel],[callSelf env (.process .cancel none)]⟩
  | process {operation : StrategyOperation} {previous : Option ℕ} {r : Processed} : info.sender=env.contract →
      process gas deps env s operation previous=.ok r →
      Dispatches gas deps env info s (.process operation previous) { s with nodes := r.nodes,path := r.path }
        (processResponse env operation r.progress)

theorem dispatch_eq_ok {gas : ℕ} {info : MessageInfo} {msg : StrategyExecuteMsg}
    (h : dispatch gas deps env info storage msg=.ok (storage',response)) :
    Dispatches gas deps env info storage msg storage' response := by
  cases msg with
  | init nodes =>
    simp only [dispatch,Except.ite_error_eq_ok,not_not] at h
    obtain ⟨store,hi,hr⟩ := Except.bind_eq_ok.mp h.2
    cases hr
    exact .init h.1 hi
  | withdraw amounts =>
    simp only [dispatch,Except.ite_error_eq_ok,not_not] at h
    exact .withdraw h.1 h.2
  | process operation previous =>
    simp only [dispatch,Except.ite_error_eq_ok,not_not] at h
    obtain ⟨r,hp,hr⟩ := Except.bind_eq_ok.mp h.2
    cases hr
    exact .process h.1 hp
  | execute =>
    simp only [dispatch,Except.ite_error_eq_ok,not_not] at h
    obtain ⟨hs,hr⟩ := h
    cases hr
    exact .execute hs
  | update nodes =>
    simp only [dispatch,Except.ite_error_eq_ok,not_not] at h
    obtain ⟨hs,hr⟩ := h
    cases hr
    exact .update hs
  | cancel =>
    simp only [dispatch,Except.ite_error_eq_ok,not_not] at h
    obtain ⟨hs,hr⟩ := h
    cases hr
    exact .cancel hs

theorem execute_eq_ok {gas : ℕ} {info : MessageInfo} {msg : StrategyExecuteMsg}
    (h : execute gas deps env info storage msg=.ok (storage',response)) :
    ∃ deposits, Dispatches gas deps env info { storage with deposits := deposits } msg storage' response := by
  obtain ⟨_,hd,h⟩ := Except.bind_eq_ok.mp h
  obtain ⟨deposits,rfl⟩ := deposit_eq_ok hd
  exact ⟨deposits,dispatch_eq_ok h⟩

end

end CalcRs.StrategyContract
